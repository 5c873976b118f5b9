import Lex8086.Proofs.TokenKind

namespace Lex8086

/-- The category that goes with a value. -/
def categoryOf (v : String) : Category :=
  if v ∈ [",", ":", "[", "]"] then .separator
  else if v ∈ phrases then .pseudoInstruction
  else classify v

namespace Token

def HasQuote (t : Token) : Prop := ∃ q ∈ t.value.toList, isQuote q

structure Shaped (t : Token) : Prop where
  isClean_value : IsClean t.value.toList
  category_eq : t.category = categoryOf t.value
  strConstant_iff : t.category = .strConstant ↔
    ∃ q inside, isQuote q ∧ q ∉ inside ∧ t.value.toList = q :: inside ++ [q]
  open_quote : t.HasQuote → t.category ≠ .strConstant →
    (∃ q inside, isQuote q ∧ q ∉ inside ∧ t.value.toList = q :: inside) ∧ t.category = .symbol
  no_whiteSpace : ¬t.HasQuote → t.value ∉ phrases →
    ∀ c ∈ t.value.toList, Text.isWhiteSpace c = false
  no_separator : ¬t.HasQuote → t.value ∉ phrases → t.category ≠ .separator →
    ∀ c ∈ t.value.toList, isSeparator c = false
  ne_typeSpecifier : t.category ≠ .typeSpecifier
  ne_compoundOperator : t.category ≠ .compoundOperator

theorem not_hasQuote_of_isSeparator {t : Token} (h : t.IsSeparator) : ¬t.HasQuote := by
  rintro ⟨q, hq, hquote⟩
  obtain ⟨c, hc, hv, -⟩ := h
  obtain rfl : q = c := by simpa [hv] using hq
  simp [(of_isSeparator hc).2.1] at hquote

theorem not_hasQuote_of_mem_phrases {t : Token} (h : t.value ∈ phrases) : ¬t.HasQuote := by
  rintro ⟨q, hq, hquote⟩
  have hall : ∀ p ∈ phrases, p.toList.all fun c => !isQuote c := by decide
  have hfalse := List.all_eq_true.mp (hall t.value h) q hq
  simp [hquote] at hfalse

theorem not_hasQuote_of_isWord {t : Token} (h : t.IsWord) : ¬t.HasQuote := by
  rintro ⟨q, hq, hquote⟩
  simp [(isWordChar_iff.mp (h.2.1 q hq)).2.2] at hquote

theorem IsQuoted.hasQuote {t : Token} (h : t.IsQuoted) : t.HasQuote := by
  obtain ⟨q, inside, hq, -, hv⟩ := h.value_eq
  exact ⟨q, by simp [hv], hq⟩

theorem IsUnclosed.hasQuote {t : Token} (h : t.IsUnclosed) : t.HasQuote := by
  obtain ⟨q, inside, hq, -, hv⟩ := h.value_eq
  exact ⟨q, by simp [hv], hq⟩

theorem notMem_phrases_of_isWord {t : Token} (h : t.IsWord) : t.value ∉ phrases := by
  intro hp
  exact absurd (h.2.1 ' ' (space_mem_of_mem_phrases hp)) (by decide)

theorem Regular.isQuoted_or_isUnclosed {t : Token} (h : t.Regular) (hquote : t.HasQuote) :
    t.IsQuoted ∨ t.IsUnclosed := by
  cases h with
  | separator h => exact absurd hquote (not_hasQuote_of_isSeparator h)
  | phrase h => exact absurd hquote (not_hasQuote_of_mem_phrases h.1)
  | quoted h => exact .inl h
  | unclosed h => exact .inr h
  | word h => exact absurd hquote (not_hasQuote_of_isWord h)

theorem categoryOf_eq_classify {v : String} (hsep : ∀ c ∈ v.toList.head?, isSeparator c = false)
    (hphrase : v ∉ phrases) : categoryOf v = classify v := by
  have hmem : v ∉ [",", ":", "[", "]"] := by
    intro h
    have hall : ∀ s ∈ [",", ":", "[", "]"], s.toList.head?.any isSeparator := by decide
    obtain ⟨c, hc, hcsep⟩ := (Option.any_eq_true _ _).mp (hall v h)
    simp [hsep c hc] at hcsep
  rw [categoryOf, if_neg hmem, if_neg hphrase]

theorem categoryOf_of_isQuoted {t : Token} (h : t.IsQuoted) :
    categoryOf t.value = .strConstant := by
  have hphrase : t.value ∉ phrases := fun hp => not_hasQuote_of_mem_phrases hp h.hasQuote
  obtain ⟨q, inside, hq, -, hv⟩ := h.value_eq
  rw [categoryOf_eq_classify (by simp [hv, (of_isQuote hq).2.1]) hphrase,
    ← String.ofList_toList (s := t.value), hv, List.cons_append, classify_of_isQuote hq]
  simp

theorem categoryOf_of_isUnclosed {t : Token} (h : t.IsUnclosed) :
    categoryOf t.value = .symbol := by
  have hphrase : t.value ∉ phrases := fun hp => not_hasQuote_of_mem_phrases hp h.hasQuote
  obtain ⟨q, inside, hq, hin, hv⟩ := h.value_eq
  have hlast : inside.getLast? ≠ some q := fun hl => hin (List.mem_of_mem_getLast? hl)
  rw [categoryOf_eq_classify (by simp [hv, (of_isQuote hq).2.1]) hphrase,
    ← String.ofList_toList (s := t.value), hv, classify_of_isQuote hq, if_neg hlast]

theorem categoryOf_of_isWord {t : Token} (h : t.IsWord) : categoryOf t.value = classify t.value :=
  categoryOf_eq_classify
    (fun c hc => (isWordChar_iff.mp (h.2.1 c (List.mem_of_mem_head? hc))).2.1)
    (notMem_phrases_of_isWord h)

theorem categoryOf_ne_compoundOperator (v : String) : categoryOf v ≠ .compoundOperator := by
  unfold categoryOf
  split
  · decide
  · split
    · decide
    · exact classify_ne_compoundOperator v

theorem Regular.category_eq {t : Token} (h : t.Regular) : t.category = categoryOf t.value := by
  cases h with
  | separator h =>
    obtain ⟨c, hc, hv, hcat⟩ := h
    rw [hcat, hv]
    rcases isSeparator_iff.mp hc with rfl | rfl | rfl | rfl <;> rfl
  | phrase h =>
    have hall : ∀ p ∈ phrases, categoryOf p = .pseudoInstruction := by decide
    rw [h.2, hall t.value h.1]
  | quoted h => rw [categoryOf_of_isQuoted h, h.category_eq]
  | unclosed h => rw [categoryOf_of_isUnclosed h, h.category_eq]
  | word h => rw [categoryOf_of_isWord h, h.2.2.2]

theorem isQuoted_of_category_eq {t : Token} (h : t.Regular) (hcat : t.category = .strConstant) :
    t.IsQuoted := by
  cases h with
  | separator h => simp [h.category_eq] at hcat
  | phrase h => simp [h.2] at hcat
  | quoted h => exact h
  | unclosed h => simp [h.category_eq] at hcat
  | word h =>
    -- A string constant starts with a quote, and a word has none.
    have hstr : isStrConstant t.value := isStrConstant_of_classify (by rw [← h.2.2.2, hcat])
    unfold isStrConstant at hstr
    split at hstr
    · cases hstr
    · next c rest hv =>
      have hquote : isQuote c := (Bool.and_eq_true_iff.mp hstr).1
      exact absurd ⟨c, by simp [hv], hquote⟩ (not_hasQuote_of_isWord h)

theorem Regular.shaped {t : Token} (h : t.Regular) : t.Shaped where
  isClean_value := h.isClean_value
  category_eq := h.category_eq
  strConstant_iff := by
    constructor
    · intro hcat
      exact (isQuoted_of_category_eq h hcat).value_eq
    · rintro ⟨q, inside, hq, hin, hv⟩
      rcases h.isQuoted_or_isUnclosed ⟨q, by simp [hv], hq⟩ with h | h
      · exact h.category_eq
      · obtain ⟨r, inner, -, hr, hw⟩ := h.value_eq
        obtain ⟨rfl, rfl⟩ := List.cons.inj (hv.symm.trans hw)
        exact absurd (List.mem_append_right _ (List.mem_singleton_self q)) hr
  open_quote hquote hcat := by
    rcases h.isQuoted_or_isUnclosed hquote with h | h
    · exact absurd h.category_eq hcat
    · exact ⟨h.value_eq, h.category_eq⟩
  no_whiteSpace hquote hphrase c hc := by
    cases h with
    | separator h =>
      obtain ⟨d, hd, hv, -⟩ := h
      obtain rfl : c = d := by simpa [hv] using hc
      exact (of_isSeparator hd).1
    | phrase h => exact absurd h.1 hphrase
    | quoted h => exact absurd h.hasQuote hquote
    | unclosed h => exact absurd h.hasQuote hquote
    | word h => exact (isWordChar_iff.mp (h.2.1 c hc)).1
  no_separator hquote hphrase hcat c hc := by
    cases h with
    | separator h => exact absurd h.category_eq hcat
    | phrase h => exact absurd h.1 hphrase
    | quoted h => exact absurd h.hasQuote hquote
    | unclosed h => exact absurd h.hasQuote hquote
    | word h => exact (isWordChar_iff.mp (h.2.1 c hc)).2.1
  ne_typeSpecifier hcat := by
    cases h with
    | separator h => simp [h.category_eq] at hcat
    | phrase h => simp [h.2] at hcat
    | quoted h => simp [h.category_eq] at hcat
    | unclosed h => simp [h.category_eq] at hcat
    | word h =>
      rw [h.2.2.2] at hcat
      exact absurd (h.2.1 ' ' (space_mem_of_classify_eq_typeSpecifier hcat)) (by decide)
  ne_compoundOperator := by
    rw [h.category_eq]
    exact categoryOf_ne_compoundOperator t.value

end Token

/-- Every token of a source is shaped, an open quote ends its line, and tokens with one value have
one category in all sources and places. -/
theorem tokenize_shaped (source : String) :
    (∀ t ∈ tokenize source, t.Shaped) ∧
      ((tokenize source).Pairwise fun t u =>
        t.HasQuote → t.category ≠ .strConstant → u.line ≠ t.line) ∧
      ∀ other, ∀ t ∈ tokenize source, ∀ u ∈ tokenize other,
        t.value = u.value → t.category = u.category := by
  refine ⟨fun t ht => (regular_of_mem_tokenize ht).shaped, ?_, ?_⟩
  · apply (pairwise_line_ne_of_isUnclosed source).imp_of_mem
    intro t u ht _ hne hquote hcat
    rcases (regular_of_mem_tokenize ht).isQuoted_or_isUnclosed hquote with h | h
    · exact absurd h.category_eq hcat
    · exact hne h
  · intro other t ht u hu hvalue
    rw [(regular_of_mem_tokenize ht).category_eq, (regular_of_mem_tokenize hu).category_eq, hvalue]

/-- A lone quote, and the same quote alone in another source. -/
theorem tokenize_shaped_lone_quote :
    ⟨"'", .symbol, 1⟩ ∈ tokenize "DB '" ∧ Token.Shaped ⟨"'", .symbol, 1⟩ := by
  have hcut : lineTokens 1 "DB '".toList = _ :=
    lineTokens_of_fit 1 [.word ['D', 'B'], .blank ' ', .unclosed '\'' []] (by decide) (by decide)
  have hlines : cleanLines "DB '" = [⟨1, "DB '"⟩] := by decide
  have hmem : ⟨"'", .symbol, 1⟩ ∈ tokenize "DB '" := by
    rw [tokenize_eq_flatMap_lineTokens, hlines, List.flatMap_singleton, hcut]
    decide
  exact ⟨hmem, (tokenize_shaped "DB '").1 _ hmem⟩

end Lex8086
