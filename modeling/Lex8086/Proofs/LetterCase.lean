import Lex8086.Proofs.RuleOrder
import Mathlib

-- The whole library, as no small part of it brings the laws of `Char.toUpper` and `Char.toLower`.

namespace Lex8086

/-- The same characters one by one, up to the case of ASCII letters. -/
def SameLetters (s t : String) : Prop :=
  List.Forall₂ (fun c d => c.beqCaseInsensitiveAsciiOnly d) s.toList t.toList

instance (s t : String) : Decidable (SameLetters s t) :=
  inferInstanceAs (Decidable (List.Forall₂ _ s.toList t.toList))

theorem toUpper_eq_toUpper_iff {c d : Char} :
    c.toUpper = d.toUpper ↔ c.beqCaseInsensitiveAsciiOnly d := by
  have hlower : c.beqCaseInsensitiveAsciiOnly d ↔ c.toLower = d.toLower := beq_iff_eq
  rw [hlower]
  constructor
  · intro h
    rw [← Char.toLower_toUpper_eq_toLower c, h, Char.toLower_toUpper_eq_toLower]
  · intro h
    rw [← Char.toUpper_toLower_eq_toUpper c, h, Char.toUpper_toLower_eq_toUpper]

theorem toList_toUpper (s : String) : s.toUpper.toList = s.toList.map Char.toUpper :=
  String.toList_map

theorem sameLetters_iff {s t : String} : SameLetters s t ↔ s.toUpper = t.toUpper := by
  rw [← String.toList_inj, toList_toUpper, toList_toUpper, ← List.forall₂_eq_eq_eq,
    List.forall₂_map_left_iff, List.forall₂_map_right_iff]
  simp only [toUpper_eq_toUpper_iff]
  rfl

theorem toUpper_eq_iff {c d : Char} :
    c.toUpper = d ↔ d.isLower = false ∧ (c = d ∨ c = d.toLower) := by
  constructor
  · rintro rfl
    refine ⟨Char.isLower_toUpper_eq_false c, ?_⟩
    rw [Char.toLower_toUpper_eq_toLower]
    by_cases hlower : c.isLower
    · exact .inr (Char.toLower_eq_of_not_isUpper (Char.not_isUpper_of_isLower hlower)).symm
    · exact .inl (Char.toUpper_eq_of_not_isLower hlower).symm
  · rintro ⟨hlower, hc⟩
    have hd : d.toUpper = d := Char.toUpper_eq_of_not_isLower (by simp [hlower])
    rcases hc with rfl | rfl
    · exact hd
    · rw [Char.toUpper_toLower_eq_toUpper, hd]

/-- Only ASCII letters have another case, so only ASCII has to be checked. -/
theorem apply_toUpper {α : Type} {f : Char → α}
    (h : ∀ n < 0x80, f (Char.ofNat n).toUpper = f (Char.ofNat n)) (c : Char) :
    f c.toUpper = f c := by
  by_cases hlt : c.toNat < 0x80
  · exact Text.of_forall_ascii (p := fun c => f c.toUpper = f c) h hlt
  · rw [Char.toUpper_eq_of_not_isLower]
    intro hlower
    simp only [Char.isLower, Bool.and_eq_true, decide_eq_true_eq, UInt32.le_iff_toNat_le] at hlower
    exact hlt (Nat.lt_of_le_of_lt hlower.2 (by decide))

theorem upperChar_toUpper (c : Char) : Text.upperChar c.toUpper = Text.upperChar c :=
  apply_toUpper (by decide) c

theorem upperCase_toUpper (s : String) : Text.upperCase s.toUpper = Text.upperCase s := by
  rw [Text.upperCase, Text.upperCase, toList_toUpper, List.flatMap_map]
  simp only [upperChar_toUpper]

namespace Grammar

def IgnoresCase (g : Grammar) : Prop := ∀ cs, g.Describes (cs.map Char.toUpper) ↔ g.Describes cs

theorem ignoresCase_one {is : Char → Bool} (h : ∀ c, is c.toUpper = is c) :
    (one is).IgnoresCase := by
  intro cs
  constructor
  · rintro ⟨c, hc, hcs⟩
    obtain ⟨d, rfl, rfl⟩ := List.map_eq_singleton_iff.mp hcs
    exact ⟨d, by rwa [← h], rfl⟩
  · rintro ⟨c, hc, rfl⟩
    exact ⟨c.toUpper, by rwa [h], rfl⟩

theorem ignoresCase_oneOrMore {is : Char → Bool} (h : ∀ c, is c.toUpper = is c) :
    (oneOrMore is).IgnoresCase := by
  intro cs
  simp [Describes, Run, h]

theorem IgnoresCase.seq {first second : Grammar} (hfirst : first.IgnoresCase)
    (hsecond : second.IgnoresCase) : (seq first second).IgnoresCase := by
  intro cs
  constructor
  · rintro ⟨ds, es, hds, hes, hcs⟩
    obtain ⟨ds', es', rfl, rfl, rfl⟩ := List.map_eq_append_iff.mp hcs
    exact ⟨ds', es', (hfirst ds').mp hds, (hsecond es').mp hes, rfl⟩
  · rintro ⟨ds, es, hds, hes, rfl⟩
    exact ⟨_, _, (hfirst ds).mpr hds, (hsecond es).mpr hes, List.map_append⟩

theorem IgnoresCase.choice {first second : Grammar} (hfirst : first.IgnoresCase)
    (hsecond : second.IgnoresCase) : (choice first second).IgnoresCase :=
  fun cs => or_congr (hfirst cs) (hsecond cs)

end Grammar

open Grammar

theorem ignoresCase_sign : (choice (text "0x") (text "0X")).IgnoresCase := by
  intro cs
  constructor
  · intro h
    obtain ⟨x, rfl, rfl | rfl⟩ : ∃ x, cs = ['0', x] ∧ (x = 'X' ∨ x = 'x') := by
      simpa [Describes, List.map_eq_cons_iff, toUpper_eq_iff] using h
    · exact .inr rfl
    · exact .inl rfl
  · rintro (rfl | rfl) <;> exact .inr rfl

theorem isHexDigit_toUpper (c : Char) : isHexDigit c.toUpper = isHexDigit c :=
  apply_toUpper (by decide) c

theorem ignoresCase_hex : Constant.hex.IgnoresCase :=
  .choice (ignoresCase_sign.seq (ignoresCase_oneOrMore isHexDigit_toUpper))
    ((ignoresCase_oneOrMore isHexDigit_toUpper).seq
      (ignoresCase_one (apply_toUpper (f := fun c => c == 'h' || c == 'H') (by decide))))

theorem ignoresCase_bin : Constant.bin.IgnoresCase :=
  .seq (ignoresCase_oneOrMore (apply_toUpper (by decide)))
    (ignoresCase_one (apply_toUpper (f := fun c => c == 'b' || c == 'B') (by decide)))

theorem ignoresCase_dec : Constant.dec.IgnoresCase :=
  ignoresCase_oneOrMore (apply_toUpper (by decide))

theorem isStrConstant_toUpper (s : String) : isStrConstant s.toUpper = isStrConstant s := by
  have hquote : ∀ {c q : Char}, isQuote q → (c.toUpper = q ↔ c = q) := by
    intro c q hq
    rcases isQuote_iff.mp hq with rfl | rfl <;> simp [toUpper_eq_iff]
  rw [Bool.eq_iff_iff, isStrConstant_iff, isStrConstant_iff, toList_toUpper]
  refine exists_congr fun q => ?_
  constructor
  · rintro ⟨inside, hq, hs⟩
    obtain ⟨front, back, hcut, hfront, hback⟩ := List.map_eq_append_iff.mp hs
    obtain ⟨c, inner, rfl, hc, -⟩ := List.map_eq_cons_iff.mp hfront
    obtain ⟨d, rfl, hd⟩ := List.map_eq_singleton_iff.mp hback
    refine ⟨inner, hq, ?_⟩
    rw [hcut, (hquote hq).mp hc, (hquote hq).mp hd]
  · rintro ⟨inside, hq, hs⟩
    refine ⟨inside.map Char.toUpper, hq, ?_⟩
    rw [hs]
    simp [(hquote hq).mpr rfl]

theorem test_toUpper (s : String) :
    ∀ rule ∈ nameTables.map nameRule ++ constantRules, rule.2 s.toUpper = rule.2 s := by
  have hgrammar : ∀ g : Grammar, g.IgnoresCase →
      (∀ s, g.accepts s ↔ g.Describes s.toList) → g.accepts s.toUpper = g.accepts s := by
    intro g hg haccepts
    rw [Bool.eq_iff_iff, haccepts, haccepts, toList_toUpper, hg]
  simp only [List.forall_mem_append, List.forall_mem_map, constantRules, List.forall_mem_cons]
  refine ⟨fun table _ => ?_, ?_, ?_, ?_, isStrConstant_toUpper s, by simp⟩
  · simp only [nameRule, upperCase_toUpper]
  · exact hgrammar Constant.hex ignoresCase_hex fun _ => isHexConstant_iff_describes
  · exact hgrammar Constant.bin ignoresCase_bin fun _ => isBinConstant_iff_describes
  · exact hgrammar Constant.dec ignoresCase_dec fun _ => isDecConstant_iff_describes

theorem test_eq_of_sameLetters {s t : String} (h : SameLetters s t) :
    ∀ rule ∈ nameTables.map nameRule ++ constantRules, rule.2 s = rule.2 t := by
  intro rule hrule
  rw [← test_toUpper s rule hrule, sameLetters_iff.mp h, test_toUpper t rule hrule]

theorem classifyBy_congr {order : List Rule} {s t : String}
    (h : ∀ rule ∈ order, rule.2 s = rule.2 t) : classifyBy order s = classifyBy order t := by
  rw [classifyBy, classifyBy, List.find?_congr h]

theorem classifyBy_wordRule (s : String) :
    classifyBy [wordRule] s = if s ∈ pseudoWords then .pseudoInstruction else .symbol := by
  by_cases hs : s ∈ pseudoWords
  · rw [if_pos hs]
    exact classifyBy_of_agree (List.mem_singleton_self _) (List.contains_iff_mem.mpr hs) (by simp)
  · rw [if_neg hs]
    exact classifyBy_of_none (by simpa [wordRule] using hs)

/-- Texts that differ in letter case have one category, unless one of them is a pseudo-word as it
stands; then the other is a symbol. -/
theorem classify_of_sameLetters {s t : String} (h : SameLetters s t) :
    classify s = classify t ∨
      (s ∈ ["DUP", "DB", "DW", "DD", "EQU", "ORG"] ∧
        classify s = .pseudoInstruction ∧ classify t = .symbol) ∨
      (t ∈ ["DUP", "DB", "DW", "DD", "EQU", "ORG"] ∧
        classify t = .pseudoInstruction ∧ classify s = .symbol) := by
  have hwords : ∀ w ∈ pseudoWords, w ∈ ["DUP", "DB", "DW", "DD", "EQU", "ORG"] := by decide
  have hsame := test_eq_of_sameLetters h
  have hany : (∃ rule ∈ nameTables.map nameRule ++ constantRules, rule.2 s) ↔
      ∃ rule ∈ nameTables.map nameRule ++ constantRules, rule.2 t :=
    exists_congr fun rule => and_congr_right fun hrule => by rw [hsame rule hrule]
  simp only [classify, rules_eq, classifyBy_append _ [wordRule], hany, classifyBy_congr hsame,
    classifyBy_wordRule]
  by_cases hfront : ∃ rule ∈ nameTables.map nameRule ++ constantRules, rule.2 t
  · simp only [if_pos hfront, true_or]
  · simp only [if_neg hfront]
    by_cases hs : s ∈ pseudoWords <;> by_cases ht : t ∈ pseudoWords
    · exact .inl (by rw [if_pos hs, if_pos ht])
    · exact .inr (.inl ⟨hwords s hs, if_pos hs, if_neg ht⟩)
    · exact .inr (.inr ⟨hwords t ht, if_pos ht, if_neg hs⟩)
    · exact .inl (by rw [if_neg hs, if_neg ht])

theorem classify_of_sameLetters_dup :
    SameLetters "dUp" "DUP" ∧ classify "DUP" = .pseudoInstruction ∧ classify "dUp" = .symbol := by
  have h : SameLetters "dUp" "DUP" := by decide
  rcases classify_of_sameLetters h with heq | ⟨hmem, -⟩ | ⟨-, hword, hsymbol⟩
  · exact absurd heq (by decide)
  · exact absurd hmem (by decide)
  · exact ⟨h, hword, hsymbol⟩

end Lex8086
