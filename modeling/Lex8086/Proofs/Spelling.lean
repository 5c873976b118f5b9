import Lex8086.Proofs.LetterCase

namespace Lex8086

/-- The characters that can stand for a piece of a name. -/
inductive StandsFor : Char → List Char → Prop
  | same (c : Char) : StandsFor c [c]
  | lower (c : Char) (h : c.isAlpha) : StandsFor c.toLower [c]
  | longS : StandsFor '\u017F' ['S']
  | dotlessI : StandsFor '\u0131' ['I']
  | sharpS : StandsFor '\u00DF' ['S', 'S']
  | longST : StandsFor '\uFB05' ['S', 'T']
  | ligatureST : StandsFor '\uFB06' ['S', 'T']

/-- The word is cut into pieces, and the text has one character for each of them. -/
def Spells (t w : String) : Prop :=
  ∃ pieces : List (Char × List Char), (∀ p ∈ pieces, StandsFor p.1 p.2) ∧
    t.toList = pieces.map Prod.fst ∧ w.toList = (pieces.map Prod.snd).flatten

/-- What names are written in. No name has an `F`, so the ligatures of `f` spell none. -/
def isNameChar (c : Char) : Bool := (c.isUpper && c != 'F') || c == ' '

theorem isNameChar_of_mem {table : Category × List String} (htable : table ∈ nameTables)
    {w : String} (hw : w ∈ table.2) : ∀ c ∈ w.toList, isNameChar c := by
  have hall : ∀ table ∈ nameTables, table.2.all fun w => w.toList.all isNameChar := by decide
  exact List.all_eq_true.mp (List.all_eq_true.mp (hall table htable) w hw)

theorem StandsFor.ne_nil {c : Char} {piece : List Char} (h : StandsFor c piece) : piece ≠ [] := by
  cases h <;> exact List.cons_ne_nil _ _

theorem toNat_lt_of_isNameChar {c : Char} (h : isNameChar c) : c.toNat < 0x80 := by
  simp only [isNameChar, Char.isUpper, Bool.or_eq_true, Bool.and_eq_true, decide_eq_true_eq,
    UInt32.le_iff_toNat_le, beq_iff_eq] at h
  rcases h with ⟨⟨-, hle⟩, -⟩ | rfl
  · exact Nat.lt_of_le_of_lt hle (by decide)
  · decide

theorem toUpper_of_isNameChar {c : Char} (h : isNameChar c) : c.toUpper = c :=
  Text.of_forall_ascii (p := fun c => isNameChar c → c.toUpper = c) (by decide)
    (toNat_lt_of_isNameChar h) h

theorem upperChar_of_isNameChar {c : Char} (h : isNameChar c) : Text.upperChar c = [c] := by
  rw [Text.upperChar_of_lt (toNat_lt_of_isNameChar h), toUpper_of_isNameChar h]

theorem upperChar_of_standsFor {c : Char} {piece : List Char} (hpiece : ∀ d ∈ piece, isNameChar d)
    (h : StandsFor c piece) : Text.upperChar c = piece := by
  cases h with
  | same => exact upperChar_of_isNameChar (hpiece c List.mem_cons_self)
  | lower d =>
    rw [← upperChar_toUpper, Char.toUpper_toLower_eq_toUpper, upperChar_toUpper]
    exact upperChar_of_isNameChar (hpiece d List.mem_cons_self)
  | longS | dotlessI | sharpS | longST | ligatureST => decide +kernel

theorem standsFor_toUpper (c : Char) : StandsFor c [c.toUpper] := by
  by_cases hlower : c.isLower
  · have hc : c.toUpper.toLower = c := by
      rw [Char.toLower_toUpper_eq_toLower]
      exact Char.toLower_eq_of_not_isUpper (Char.not_isUpper_of_isLower hlower)
    have halpha : c.toUpper.isAlpha := by simp [Char.isAlpha, hlower]
    have hstands := StandsFor.lower c.toUpper halpha
    rwa [hc] at hstands
  · rw [Char.toUpper_eq_of_not_isLower hlower]
    exact .same c

theorem standsFor_upperChar {c : Char} (h : ∀ d ∈ Text.upperChar c, isNameChar d) :
    StandsFor c (Text.upperChar c) := by
  obtain ⟨d, hd⟩ := List.exists_mem_of_ne_nil _ (Text.upperChar_ne_nil c)
  rcases Text.of_mem_upperChar hd (toNat_lt_of_isNameChar (h d hd)) with ⟨hlt, -⟩ | hmem
  · rw [Text.upperChar_of_lt hlt]
    exact standsFor_toUpper c
  · have hlisted : Text.casedIntoAscii.filter
        (fun n => (Text.upperChar (Char.ofNat n)).all isNameChar) =
        [0x00DF, 0x0131, 0x017F, 0xFB05, 0xFB06] := by decide
    have hcode : c.toNat ∈ [0x00DF, 0x0131, 0x017F, 0xFB05, 0xFB06] := by
      rw [← hlisted, List.mem_filter, Char.ofNat_toNat]
      exact ⟨hmem, List.all_eq_true.mpr h⟩
    rw [← Char.ofNat_toNat c]
    simp only [List.mem_cons, List.not_mem_nil, or_false] at hcode
    rcases hcode with hc | hc | hc | hc | hc <;> rw [hc]
    · exact .sharpS
    · exact .dotlessI
    · exact .longS
    · exact .longST
    · exact .ligatureST

/-- A word of name characters is the upper case of exactly the texts that spell it. -/
theorem upperCase_eq_iff_spells {t w : String} (hw : ∀ c ∈ w.toList, isNameChar c) :
    Text.upperCase t = w ↔ Spells t w := by
  constructor
  · rintro rfl
    rw [Text.toList_upperCase] at hw
    refine ⟨t.toList.map fun c => (c, Text.upperChar c), ?_, ?_, ?_⟩
    · simp only [List.forall_mem_map]
      intro c hc
      exact standsFor_upperChar fun d hd => hw d (List.mem_flatMap.mpr ⟨c, hc, hd⟩)
    · rw [List.map_map]
      exact (List.map_id t.toList).symm
    · rw [Text.toList_upperCase, List.flatMap_def, List.map_map]
      rfl
  · rintro ⟨pieces, hstands, ht, hcut⟩
    apply String.toList_inj.mp
    rw [Text.toList_upperCase, ht, List.flatMap_map, hcut, ← List.flatMap_def]
    apply List.flatMap_congr
    intro p hp
    -- A piece has characters of the word only.
    refine upperChar_of_standsFor (fun d hd => hw d ?_) (hstands p hp)
    rw [hcut]
    exact List.mem_flatten.mpr ⟨p.2, List.mem_map_of_mem hp, hd⟩

theorem Spells.length_le {t w : String} (h : Spells t w) : t.length ≤ w.length := by
  obtain ⟨pieces, hstands, ht, hcut⟩ := h
  have hpos : ∀ n ∈ (pieces.map Prod.snd).map List.length, 1 ≤ n := by
    simp only [List.forall_mem_map]
    intro p hp
    exact List.length_pos_iff.mpr (hstands p hp).ne_nil
  rw [← String.length_toList, ← String.length_toList, ht, hcut, List.length_flatten]
  simpa using List.length_le_sum_of_one_le _ hpos

theorem nameRule_iff_spells {table : Category × List String} (htable : table ∈ nameTables)
    (s : String) : (nameRule table).2 s ↔ ∃ w ∈ table.2, Spells s w := by
  rw [nameRule, List.contains_iff_mem]
  constructor
  · intro hmem
    exact ⟨_, hmem, (upperCase_eq_iff_spells (isNameChar_of_mem htable hmem)).mp rfl⟩
  · rintro ⟨w, hw, hspells⟩
    rwa [(upperCase_eq_iff_spells (isNameChar_of_mem htable hw)).mpr hspells]

theorem spells_iff_sameLetters {t w : String} (hw : ∀ c ∈ w.toList, isNameChar c)
    (ht : ∀ c ∈ t.toList, c.toNat < 0x80) : Spells t w ↔ SameLetters t w := by
  have hword : w.toList.map Char.toUpper = w.toList :=
    (List.map_congr_left fun c hc => toUpper_of_isNameChar (hw c hc)).trans (List.map_id w.toList)
  rw [← upperCase_eq_iff_spells hw, sameLetters_iff, ← String.toList_inj, ← String.toList_inj,
    Text.toList_upperCase_of_ascii ht, toList_toUpper, toList_toUpper, hword]

/-- The texts that a table of names catches are those spelled from its words. They are no longer
than the word, and the ASCII ones among them differ from it in letter case only. -/
theorem classify_eq_iff_spells (s : String) : ∀ table ∈ nameTables,
    (classify s = table.1 ↔ ∃ w ∈ table.2, Spells s w) ∧
    ((∀ c ∈ s.toList, c.toNat < 0x80) →
      (classify s = table.1 ↔ ∃ w ∈ table.2, SameLetters s w)) ∧
    ∀ w ∈ table.2, Spells s w → s.length ≤ w.length := by
  intro table htable
  have hspells : classify s = table.1 ↔ ∃ w ∈ table.2, Spells s w := by
    rw [classify_eq_iff_nameRule htable, nameRule_iff_spells htable]
  refine ⟨hspells, fun hascii => ?_, fun w _ hw => hw.length_le⟩
  rw [hspells]
  refine exists_congr fun w => and_congr_right fun hw => ?_
  exact spells_iff_sameLetters (isNameChar_of_mem htable hw) hascii

/-- A sharp s alone is a register, and so is `SI` in any letter case. -/
theorem classify_eq_iff_spells_sharp_s :
    Spells "\u00DF" "SS" ∧ classify "\u00DF" = .register ∧ "\u00DF".length ≤ "SS".length ∧
      SameLetters "Si" "SI" ∧ classify "Si" = .register := by
  have htable : (.register, registers) ∈ nameTables := by simp [nameTables]
  have hspells : Spells "\u00DF" "SS" :=
    ⟨[('\u00DF', ['S', 'S'])], by simpa using StandsFor.sharpS, rfl, rfl⟩
  have hletters : SameLetters "Si" "SI" := by decide
  obtain ⟨hsharp, -, hlength⟩ := classify_eq_iff_spells "\u00DF" _ htable
  obtain ⟨-, hascii, -⟩ := classify_eq_iff_spells "Si" _ htable
  exact ⟨hspells, hsharp.mpr ⟨"SS", by decide, hspells⟩, hlength "SS" (by decide) hspells, hletters,
    (hascii (by simp)).mpr ⟨"SI", by decide, hletters⟩⟩

end Lex8086
