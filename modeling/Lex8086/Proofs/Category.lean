import Lex8086.Classify
import Lex8086.Proofs.Constant
import Lex8086.Proofs.Ascii

namespace Lex8086

theorem exists_rule_of_classify {s : String} {category : Category} (h : classify s = category)
    (hne : category ≠ .symbol) : ∃ rule ∈ rules, rule.1 = category ∧ rule.2 s := by
  rw [classify, classifyBy] at h
  split at h
  · next rule hr => exact ⟨rule, List.mem_of_find?_eq_some hr, h, by simpa using List.find?_some hr⟩
  · exact absurd h.symm hne

theorem classify_ne_compoundOperator (s : String) : classify s ≠ .compoundOperator := by
  intro h
  simpa [rules] using exists_rule_of_classify h (by decide)

theorem space_mem_of_classify_eq_typeSpecifier {s : String} (h : classify s = .typeSpecifier) :
    ' ' ∈ s.toList := by
  have hupper : Text.upperCase s ∈ typeSpecifiers := by
    simpa [rules] using exists_rule_of_classify h (by decide)
  have hall : ∀ t ∈ typeSpecifiers, ' ' ∈ t.toList := by decide
  exact Text.space_mem_of_space_mem_upperCase (hall _ hupper)

theorem isStrConstant_of_classify {s : String} (h : classify s = .strConstant) :
    isStrConstant s := by
  simpa [rules] using exists_rule_of_classify h (by decide)

theorem not_contains_of_head {names : List String} {q : Char} {s : String}
    (hs : s.toList.head? = some q) (h : ∀ t ∈ names, t.toList.head? ≠ some q) :
    names.contains s = false := by
  rw [List.contains_eq_any_beq, List.any_eq_false]
  intro t ht heq
  have hts : s = t := by simpa using heq
  exact h t ht (hts ▸ hs)

theorem upperChar_of_isQuote {q : Char} (h : isQuote q) : Text.upperChar q = [q] := by
  rcases isQuote_iff.mp h with rfl | rfl <;> rfl

theorem head?_upperCase {s : String} {c : Char} (hs : s.toList.head? = some c)
    (hc : Text.upperChar c = [c]) : (Text.upperCase s).toList.head? = some c := by
  obtain ⟨cs, hcs⟩ := List.head?_eq_some_iff.mp hs
  rw [Text.toList_upperCase, hcs, List.flatMap_cons, hc]
  rfl

/-- Behind a quote at the front, only the last character counts. -/
theorem classify_of_isQuote {q : Char} {cs : List Char} (h : isQuote q) :
    classify (String.ofList (q :: cs)) =
      if cs.getLast? = some q then .strConstant else .symbol := by
  have hnames : ∀ t ∈ instructions ++ registers ++ typeSpecifiers ++ pseudoWords,
      t.toList.head? ≠ some q := by
    rcases isQuote_iff.mp h with rfl | rfl <;> decide
  simp only [List.mem_append, or_imp, forall_and] at hnames
  obtain ⟨⟨⟨hi, hr⟩, ht⟩, hp⟩ := hnames
  -- All tests but the one for string constants fail at the quote.
  obtain ⟨hhex, hbin, hdec⟩ := not_number_of_quote_mem (s := String.ofList (q :: cs)) h (by simp)
  rw [Bool.not_eq_true] at hhex hbin hdec
  have hstr : isStrConstant (String.ofList (q :: cs)) = (cs.getLast? == some q) := by
    simp [isStrConstant, h]
  have hword : pseudoWords.contains (String.ofList (q :: cs)) = false :=
    not_contains_of_head (by simp) hp
  have hupper : (Text.upperCase (String.ofList (q :: cs))).toList.head? = some q :=
    head?_upperCase (by simp) (upperChar_of_isQuote h)
  simp only [classify, classifyBy, rules, List.find?_cons, not_contains_of_head hupper hi,
    not_contains_of_head hupper hr, not_contains_of_head hupper ht,
    hhex, hbin, hdec, hstr, hword, List.find?_nil]
  by_cases hlast : cs.getLast? = some q
  · simp [hlast]
  · rw [beq_eq_false_iff_ne.mpr hlast, if_neg hlast]

end Lex8086
