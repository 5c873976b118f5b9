import Lex8086.Proofs.Category
import Lex8086.Proofs.Constant

namespace Lex8086

/-- `AH`, `BH`, `CH` and `DH` in every letter case. -/
def hexRegisters : List String :=
  ["AH", "Ah", "aH", "ah", "BH", "Bh", "bH", "bh", "CH", "Ch", "cH", "ch", "DH", "Dh", "dH", "dh"]

def nameTables : List (Category × List String) :=
  [(.instruction, instructions), (.register, registers), (.typeSpecifier, typeSpecifiers)]

def nameRule (table : Category × List String) : Rule :=
  (table.1, fun s => table.2.contains (Text.upperCase s))

def constantRules : List Rule :=
  [(.hexConstant, isHexConstant), (.binConstant, isBinConstant), (.decConstant, isDecConstant),
   (.strConstant, isStrConstant)]

def wordRule : Rule := (.pseudoInstruction, pseudoWords.contains)

theorem rules_eq : rules = nameTables.map nameRule ++ constantRules ++ [wordRule] := rfl

/-- One of the two constants has a character that the other cannot have. -/
theorem constantRules_pairwise (s : String) :
    constantRules.Pairwise fun a b => a.2 s → ¬b.2 s := by
  have hhex (h : isHexConstant s) : ¬isBinConstant s ∧ ¬isDecConstant s := by
    obtain ⟨⟨c, hc, hmark⟩, -⟩ := chars_of_isHexConstant h
    obtain ⟨hnotBin, hnotDec⟩ := not_of_isHexMark hmark
    exact ⟨fun hbin => hnotBin ((chars_of_isBinConstant hbin).2 c hc),
      fun hdec => hnotDec ((isDecConstant_iff.mp hdec).2 c hc)⟩
  have hbin (h : isBinConstant s) : ¬isDecConstant s := by
    obtain ⟨⟨c, hc, hmark⟩, -⟩ := chars_of_isBinConstant h
    exact fun hdec => not_of_isBinMark hmark ((isDecConstant_iff.mp hdec).2 c hc)
  have hstr (h : isStrConstant s) : ¬isHexConstant s ∧ ¬isBinConstant s ∧ ¬isDecConstant s := by
    obtain ⟨q, inside, hq, hs⟩ := isStrConstant_iff.mp h
    exact not_number_of_quote_mem hq (by simp [hs])
  simp only [constantRules, List.pairwise_cons, List.forall_mem_cons]
  refine ⟨⟨fun h => (hhex h).1, fun h => (hhex h).2, fun h h' => (hstr h').1 h, by simp⟩, ?_⟩
  exact ⟨⟨hbin, fun h h' => (hstr h').2.1 h, by simp⟩, ⟨fun h h' => (hstr h').2.2 h, by simp⟩,
    by simp⟩

theorem upperChar_of_isDigit {c : Char} (h : c.isDigit) : Text.upperChar c = [c] := by
  have hlt := toNat_lt_of_isDigit h
  have hupper : c.toUpper = c :=
    Text.of_forall_ascii (p := fun c => c.isDigit → c.toUpper = c) (by decide) hlt h
  rw [Text.upperChar_of_lt hlt, hupper]

theorem not_name_of_head {s : String} {c : Char} (hs : s.toList.head? = some c)
    (hc : c.isDigit ∨ isQuote c) : ∀ table ∈ nameTables, ¬(nameRule table).2 s := by
  intro table htable hname
  have hupper : Text.upperChar c = [c] := hc.elim upperChar_of_isDigit upperChar_of_isQuote
  have hall : ∀ table ∈ nameTables, ∀ w ∈ table.2,
      w.toList.head?.any (fun c => c.isDigit || isQuote c) = false := by decide
  have hhead := hall table htable _ (List.contains_iff_mem.mp hname)
  rw [head?_upperCase hs hupper, Option.any_some, Bool.or_eq_false_iff] at hhead
  rcases hc with hc | hc
  · exact absurd hc (by simp [hhead.1])
  · exact absurd hc (by simp [hhead.2])

theorem mem_hexRegisters_of_digit {d c : Char} (hd : isHexDigit d) (hc : c = 'h' ∨ c = 'H')
    (h : Text.upperCase (String.ofList [d, c]) ∈ registers) :
    String.ofList [d, c] ∈ hexRegisters := by
  have hall : ∀ n < 0x80, isHexDigit (Char.ofNat n) → ∀ last ∈ ["h", "H"],
      Text.upperCase (String.ofList (Char.ofNat n :: last.toList)) ∈ registers →
        String.ofList (Char.ofNat n :: last.toList) ∈ hexRegisters := by decide +kernel
  have hdigit := hall d.toNat (toNat_lt_of_isHexDigit hd)
  rw [Char.ofNat_toNat] at hdigit
  rcases hc with rfl | rfl
  · exact hdigit hd "h" (by simp) h
  · exact hdigit hd "H" (by simp) h

theorem mem_hexRegisters_of_name {s : String} {table : Category × List String}
    (htable : table ∈ nameTables) (hname : (nameRule table).2 s) (hhex : isHexConstant s) :
    table.1 = .register ∧ s ∈ hexRegisters := by
  rcases isHexConstant_iff.mp hhex with ⟨x, ds, -, -, hs⟩ | ⟨ds, c, hds, hc, hs⟩
  · exact absurd hname (not_name_of_head (c := '0') (by rw [hs]; rfl) (.inl rfl) table htable)
  · have hmem : Text.upperCase s ∈ table.2 := List.contains_iff_mem.mp hname
    have hascii : ∀ d ∈ s.toList, d.toNat < 0x80 := fun d hd =>
      ((chars_of_isHexConstant hhex).2 d hd).elim toNat_lt_of_isHexDigit toNat_lt_of_isHexMark
    have hupper : (Text.upperCase s).toList = ds.map Char.toUpper ++ ['H'] := by
      rw [Text.toList_upperCase_of_ascii hascii, hs]
      rcases hc with rfl | rfl <;> simp
    -- Few names end in an `H`, and all of them are registers of two letters.
    have hall : ∀ table ∈ nameTables, ∀ w ∈ table.2, w.toList.getLast? = some 'H' →
        table = (.register, registers) ∧ w.toList.length = 2 := by decide
    obtain ⟨rfl, hlength⟩ := hall table htable _ hmem (by simp [hupper])
    obtain ⟨d, rfl⟩ : ∃ d, ds = [d] := by
      rw [← List.length_eq_one_iff]
      simpa [hupper] using hlength
    have heq : s = String.ofList [d, c] := by rw [← String.ofList_toList (s := s), hs]; rfl
    subst heq
    exact ⟨rfl, mem_hexRegisters_of_digit (hds.2 d (by simp)) hc hmem⟩

theorem exists_head_of_constant {s : String} {rule : Rule} (hrule : rule ∈ constantRules)
    (h : rule.2 s) : rule = (.hexConstant, isHexConstant) ∨
      ∃ c, s.toList.head? = some c ∧ (c.isDigit ∨ isQuote c) := by
  simp only [constantRules, List.mem_cons, List.not_mem_nil, or_false] at hrule
  rcases hrule with rfl | rfl | rfl | rfl
  · exact .inl rfl
  · obtain ⟨ds, c, ⟨hne, hds⟩, -, hs⟩ := isBinConstant_iff.mp h
    obtain ⟨d, ds, rfl⟩ := List.exists_cons_of_ne_nil hne
    exact .inr ⟨d, by rw [hs]; rfl, .inl (isDigit_of_isBinDigit (hds d List.mem_cons_self))⟩
  · obtain ⟨hne, hds⟩ := isDecConstant_iff.mp h
    obtain ⟨d, ds, hs⟩ := List.exists_cons_of_ne_nil hne
    exact .inr ⟨d, by rw [hs]; rfl, .inl (hds d (by simp [hs]))⟩
  · obtain ⟨q, inside, hq, hs⟩ := isStrConstant_iff.mp h
    exact .inr ⟨q, by rw [hs]; rfl, .inr hq⟩

theorem nameRules_constantRules {s : String} : ∀ a ∈ nameTables.map nameRule, ∀ b ∈ constantRules,
    a.2 s → b.2 s → a.1 = .register ∧ b.1 = .hexConstant ∧ s ∈ hexRegisters := by
  simp only [List.forall_mem_map]
  intro table htable rule hrule hname hconstant
  rcases exists_head_of_constant hrule hconstant with rfl | ⟨c, hc, hstart⟩
  · obtain ⟨hregister, hmem⟩ := mem_hexRegisters_of_name htable hname hconstant
    exact ⟨hregister, rfl, hmem⟩
  · exact absurd hname (not_name_of_head hc hstart table htable)

theorem nameRules_pairwise (s : String) :
    (nameTables.map nameRule).Pairwise fun a b => a.2 s → ¬b.2 s := by
  have hall : nameTables.Pairwise fun a b => ∀ w ∈ a.2, w ∉ b.2 := by decide
  rw [List.pairwise_map]
  refine hall.imp fun hdisjoint ha hb => ?_
  simp only [nameRule, List.contains_iff_mem] at ha hb
  exact hdisjoint _ ha hb

theorem not_of_mem_pseudoWords {s : String} (hs : s ∈ pseudoWords) :
    ∀ rule ∈ nameTables.map nameRule ++ constantRules, ¬rule.2 s := by
  have hall : ∀ w ∈ pseudoWords, ∀ rule ∈ nameTables.map nameRule ++ constantRules, ¬rule.2 w := by
    decide
  exact hall s hs

theorem passes_of_mem_hexRegisters {s : String} (hs : s ∈ hexRegisters) :
    ∀ rule ∈ rules, rule.1 = .register ∨ rule.1 = .hexConstant → rule.2 s := by
  have hall : ∀ s ∈ hexRegisters, ∀ rule ∈ rules,
      rule.1 = .register ∨ rule.1 = .hexConstant → rule.2 s := by decide
  exact hall s hs

/-- Two tests hold together only for the register and the hexadecimal constant, and there just
on the sixteen texts. -/
theorem rules_pairwise (s : String) : rules.Pairwise fun a b =>
    (a.2 s ∧ b.2 s ↔ a.1 = .register ∧ b.1 = .hexConstant ∧ s ∈ hexRegisters) := by
  have hboth : rules.Pairwise fun a b =>
      a.2 s → b.2 s → a.1 = .register ∧ b.1 = .hexConstant ∧ s ∈ hexRegisters := by
    rw [rules_eq, List.pairwise_append, List.pairwise_append]
    refine ⟨⟨?_, ?_, nameRules_constantRules⟩, List.pairwise_singleton _ _, ?_⟩
    · exact (nameRules_pairwise s).imp fun hnot ha hb => absurd hb (hnot ha)
    · exact (constantRules_pairwise s).imp fun hnot ha hb => absurd hb (hnot ha)
    · intro a ha b hb hpa hpb
      obtain rfl := List.mem_singleton.mp hb
      exact absurd hpa (not_of_mem_pseudoWords (List.contains_iff_mem.mp hpb) a ha)
  refine List.Pairwise.imp_of_mem (fun ha hb h => ?_) hboth
  constructor
  · rintro ⟨hpa, hpb⟩
    exact h hpa hpb
  · rintro ⟨hregister, hhex, hs⟩
    exact ⟨passes_of_mem_hexRegisters hs _ ha (.inl hregister),
      passes_of_mem_hexRegisters hs _ hb (.inr hhex)⟩

theorem classifyBy_of_none {order : List Rule} {s : String} (h : ∀ rule ∈ order, ¬rule.2 s) :
    classifyBy order s = .symbol := by
  rw [classifyBy, List.find?_eq_none.mpr h]

theorem classifyBy_of_agree {order : List Rule} {rule : Rule} {s : String} (hmem : rule ∈ order)
    (hs : rule.2 s) (hagree : ∀ other ∈ order, other.2 s → other.1 = rule.1) :
    classifyBy order s = rule.1 := by
  rw [classifyBy]
  split
  · next other hfind =>
    have hother : other.2 s := by simpa using List.find?_some hfind
    exact hagree other (List.mem_of_find?_eq_some hfind) hother
  · next hfind => exact absurd hs (List.find?_eq_none.mp hfind rule hmem)

theorem classifyBy_perm {order order' : List Rule} {s : String} (hperm : order.Perm order')
    (hagree : ∀ a ∈ order', ∀ b ∈ order', a.2 s → b.2 s → a.1 = b.1) :
    classifyBy order s = classifyBy order' s := by
  by_cases hsome : ∃ rule ∈ order', rule.2 s
  · obtain ⟨rule, hmem, hs⟩ := hsome
    have hagree' : ∀ other ∈ order', other.2 s → other.1 = rule.1 :=
      fun other hother h => hagree other hother rule hmem h hs
    rw [classifyBy_of_agree hmem hs hagree',
      classifyBy_of_agree (hperm.mem_iff.mpr hmem) hs
        fun other hother => hagree' other (hperm.mem_iff.mp hother)]
  · have hnone : ∀ rule ∈ order', ¬rule.2 s := fun rule hmem hs => hsome ⟨rule, hmem, hs⟩
    rw [classifyBy_of_none hnone,
      classifyBy_of_none fun rule hmem => hnone rule (hperm.mem_iff.mp hmem)]

theorem classifyBy_append (front back : List Rule) (s : String) :
    classifyBy (front ++ back) s =
      if ∃ rule ∈ front, rule.2 s then classifyBy front s else classifyBy back s := by
  simp only [classifyBy, List.find?_append]
  split_ifs with hsome
  · obtain ⟨rule, hfind⟩ := Option.isSome_iff_exists.mp (List.find?_isSome.mpr hsome)
    rw [hfind, Option.some_or]
  · have hnone : front.find? (fun rule => rule.2 s) = none :=
      List.find?_eq_none.mpr fun rule hmem hs => hsome ⟨rule, hmem, hs⟩
    rw [hnone, Option.none_or]

theorem classify_eq_symbol_iff {s : String} :
    classify s = .symbol ↔ ∀ rule ∈ rules, ¬rule.2 s := by
  refine ⟨fun h rule hmem hs => ?_, classifyBy_of_none⟩
  have hall : ∀ rule ∈ rules, rule.1 ≠ .symbol := by decide
  rw [classify, classifyBy] at h
  split at h
  · next found hfind => exact hall found (List.mem_of_find?_eq_some hfind) h
  · next hfind => exact List.find?_eq_none.mp hfind rule hmem hs

theorem classify_of_mem_hexRegisters {s : String} (hs : s ∈ hexRegisters) :
    classify s = .register := by
  have hall : ∀ s ∈ hexRegisters, classify s = .register := by decide
  exact hall s hs

theorem agree_of_pairwise {order : List Rule} {s : String}
    (h : order.Pairwise fun a b => a.2 s → ¬b.2 s) :
    ∀ a ∈ order, ∀ b ∈ order, a.2 s → b.2 s → a.1 = b.1 := by
  refine List.Pairwise.forall_of_forall_of_flip (fun _ _ _ _ => rfl) ?_ ?_
  · exact h.imp fun hnot ha hb => absurd hb (hnot ha)
  · exact h.imp fun hnot hb ha => absurd hb (hnot ha)

theorem agree_of_notMem_hexRegisters {s : String} (hs : s ∉ hexRegisters) :
    ∀ a ∈ rules, ∀ b ∈ rules, a.2 s → b.2 s → a.1 = b.1 :=
  agree_of_pairwise ((rules_pairwise s).imp fun hboth ha hb => hs (hboth.mp ⟨ha, hb⟩).2.2)

/-- The tables share no word with each other, and no other rule gives their categories. -/
theorem classify_eq_iff_nameRule {table : Category × List String} (htable : table ∈ nameTables)
    (s : String) : classify s = table.1 ↔ (nameRule table).2 s := by
  constructor
  · intro h
    have hnot : ∀ table ∈ nameTables, table.1 ≠ .symbol ∧
        table.1 ∉ (constantRules ++ [wordRule]).map Prod.fst := by decide
    obtain ⟨hne, hother⟩ := hnot table htable
    obtain ⟨rule, hrule, hcat, hs⟩ := exists_rule_of_classify h hne
    rw [rules_eq, List.append_assoc] at hrule
    rcases List.mem_append.mp hrule with hrule | hrule
    · obtain ⟨found, hfound, rfl⟩ := List.mem_map.mp hrule
      have hinj : ∀ a ∈ nameTables, ∀ b ∈ nameTables, a.1 = b.1 → a = b := by decide
      rwa [← hinj found hfound table htable hcat]
    · exact absurd (List.mem_map.mpr ⟨rule, hrule, hcat⟩) hother
  · intro h
    have hmem : nameRule table ∈ nameTables.map nameRule := List.mem_map_of_mem htable
    rw [classify, rules_eq, List.append_assoc, classifyBy_append, if_pos ⟨_, hmem, h⟩]
    exact classifyBy_of_agree hmem h fun other hother hs =>
      agree_of_pairwise (nameRules_pairwise s) other hother _ hmem hs h

/-- At most one test holds, except that the sixteen texts are registers and look like hexadecimal
constants. There the register comes first; every other text has one category in any order of the
rules, and is a symbol when it passes none of them. -/
theorem order_matters_only_on_hexRegisters (s : String) :
    (rules.Pairwise fun a b =>
      (a.2 s ∧ b.2 s ↔ a.1 = .register ∧ b.1 = .hexConstant ∧ s ∈ hexRegisters)) ∧
      (s ∈ hexRegisters → classify s = .register) ∧
      (s ∉ hexRegisters → ∀ order : List Rule, order.Perm rules →
        classifyBy order s = classify s ∧
          (classifyBy order s = .symbol ↔ ∀ rule ∈ rules, ¬rule.2 s)) := by
  refine ⟨rules_pairwise s, classify_of_mem_hexRegisters, fun hs order hperm => ?_⟩
  have heq : classifyBy order s = classify s :=
    classifyBy_perm hperm (agree_of_notMem_hexRegisters hs)
  exact ⟨heq, by rw [heq, classify_eq_symbol_iff]⟩

/-- `aH` is a register because of the order; `1aH` is a constant in any order. -/
theorem order_matters_only_on_hexRegisters_digit_before :
    classify "aH" = .register ∧ classifyBy rules.reverse "aH" = .hexConstant ∧
      classifyBy rules.reverse "1aH" = classify "1aH" ∧ classify "1aH" = .hexConstant := by
  have hregister := (order_matters_only_on_hexRegisters "aH").2.1 (by decide)
  have hsame := (order_matters_only_on_hexRegisters "1aH").2.2 (by decide) rules.reverse
    (List.reverse_perm rules)
  exact ⟨hregister, by decide, hsame.1, by decide⟩

end Lex8086
