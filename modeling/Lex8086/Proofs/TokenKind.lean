import Lex8086.Proofs.LongestMatch

namespace Lex8086

namespace Token

def IsSeparator (t : Token) : Prop :=
  ∃ c, isSeparator c ∧ t.value = String.singleton c ∧ t.category = .separator

def IsPhrase (t : Token) : Prop := t.value ∈ phrases ∧ t.category = .pseudoInstruction

/-- A text between two quotes of one kind. -/
def IsQuoted (t : Token) : Prop :=
  ∃ q inside, isQuote q ∧ q ∉ inside ∧ ';' ∉ inside ∧ '\n' ∉ inside ∧
    t.value.toList = q :: inside ++ [q] ∧ t.category = .strConstant

/-- An open quote with what is behind it. -/
def IsUnclosed (t : Token) : Prop :=
  ∃ q inside, isQuote q ∧ q ∉ inside ∧ ';' ∉ inside ∧ '\n' ∉ inside ∧
    Text.EndsInk (q :: inside) ∧ t.value.toList = q :: inside ∧ t.category = .symbol

/-- A text without white space, separators and quotes. -/
def IsWord (t : Token) : Prop :=
  t.value ≠ "" ∧ (∀ c ∈ t.value.toList, isWordChar c) ∧ ';' ∉ t.value.toList ∧
    t.category = classify t.value

theorem IsSeparator.category_eq {t : Token} (h : t.IsSeparator) : t.category = .separator := by
  obtain ⟨-, -, -, hcat⟩ := h
  exact hcat

theorem IsQuoted.category_eq {t : Token} (h : t.IsQuoted) : t.category = .strConstant := by
  obtain ⟨-, -, -, -, -, -, -, hcat⟩ := h
  exact hcat

theorem IsQuoted.value_eq {t : Token} (h : t.IsQuoted) :
    ∃ q inside, isQuote q ∧ q ∉ inside ∧ t.value.toList = q :: inside ++ [q] := by
  obtain ⟨q, inside, hq, hin, -, -, hv, -⟩ := h
  exact ⟨q, inside, hq, hin, hv⟩

theorem IsUnclosed.category_eq {t : Token} (h : t.IsUnclosed) : t.category = .symbol := by
  obtain ⟨-, -, -, -, -, -, -, -, hcat⟩ := h
  exact hcat

theorem IsUnclosed.value_eq {t : Token} (h : t.IsUnclosed) :
    ∃ q inside, isQuote q ∧ q ∉ inside ∧ t.value.toList = q :: inside := by
  obtain ⟨q, inside, hq, hin, -, -, -, hv, -⟩ := h
  exact ⟨q, inside, hq, hin, hv⟩

inductive Regular (t : Token) : Prop
  | separator (h : t.IsSeparator)
  | phrase (h : t.IsPhrase)
  | quoted (h : t.IsQuoted)
  | unclosed (h : t.IsUnclosed)
  | word (h : t.IsWord)

end Token

theorem isClean_of_mem_phrases {p : String} (h : p ∈ phrases) : IsClean p.toList := by
  have hall : ∀ p ∈ phrases, IsClean p.toList := by decide
  exact hall p h

theorem isClean_of_forall_ink {s : List Char} (hne : s ≠ [])
    (hink : ∀ c ∈ s, Text.isWhiteSpace c = false) (hsemi : ';' ∉ s) : IsClean s where
  ne_nil := hne
  startsInk c hc := hink c (List.mem_of_mem_head? hc)
  endsInk c hc := hink c (List.mem_of_mem_getLast? hc)
  no_semicolon := hsemi
  no_newline h := absurd (hink _ h) (by decide)

theorem ne_of_isQuote {q : Char} (h : isQuote q) : q ≠ ';' ∧ q ≠ '\n' := by
  rcases isQuote_iff.mp h with rfl | rfl <;> decide

theorem ne_of_isSeparator {c : Char} (h : isSeparator c) : c ≠ ';' ∧ c ≠ '\n' := by
  rcases isSeparator_iff.mp h with rfl | rfl | rfl | rfl <;> decide

theorem isClean_of_isQuote {q : Char} {s : List Char} (hq : isQuote q) (hsemi : ';' ∉ s)
    (hline : '\n' ∉ s) (hink : Text.EndsInk (q :: s)) : IsClean (q :: s) where
  ne_nil := by simp
  startsInk := Text.startsInk_cons.mpr (of_isQuote hq).1
  endsInk := hink
  no_semicolon := by simp [hsemi, (ne_of_isQuote hq).1.symm]
  no_newline := by simp [hline, (ne_of_isQuote hq).2.symm]

theorem Token.Regular.isClean_value {t : Token} (h : t.Regular) : IsClean t.value.toList := by
  cases h with
  | separator h =>
    obtain ⟨c, hc, hv, -⟩ := h
    rw [hv, String.toList_singleton]
    exact isClean_of_forall_ink (by simp) (by simpa using (of_isSeparator hc).1)
      (by simpa using (ne_of_isSeparator hc).1.symm)
  | phrase h => exact isClean_of_mem_phrases h.1
  | quoted h =>
    obtain ⟨q, inside, hq, -, hsemi, hline, hv, -⟩ := h
    rw [hv]
    refine isClean_of_isQuote hq (by simp [hsemi, (ne_of_isQuote hq).1.symm])
      (by simp [hline, (ne_of_isQuote hq).2.symm]) ?_
    change Text.EndsInk ((q :: inside) ++ [q])
    rw [Text.endsInk_append (by simp)]
    simpa [Text.EndsInk] using (of_isQuote hq).1
  | unclosed h =>
    obtain ⟨q, inside, hq, -, hsemi, hline, hink, hv, -⟩ := h
    rw [hv]
    exact isClean_of_isQuote hq hsemi hline hink
  | word h =>
    obtain ⟨hne, hchars, hsemi, -⟩ := h
    have hnil : t.value.toList ≠ [] := fun hn => hne (String.toList_eq_nil_iff.mp hn)
    exact isClean_of_forall_ink hnil (fun c hc => (isWordChar_iff.mp (hchars c hc)).1) hsemi

theorem regular_of_token? {line : Nat} {s : List Char} {before after : List Segment}
    {g : Segment} {t : Token} (hs : IsClean s) (hcut : segments s = before ++ g :: after)
    (ht : g.token? line = some t) : t.Regular := by
  obtain ⟨hvalue, hcat, -⟩ := Segment.eq_of_token? ht
  obtain ⟨hfit, htext⟩ := segments_eq_iff.mp hcut
  have hg := fitsBefore_of_fit_append hfit
  rw [List.flatMap_append, List.flatMap_cons] at htext
  have hsub : ∀ c ∈ g.text, c ∈ s := by
    intro c hc
    simp [← htext, hc]
  have hsemi : ';' ∉ g.text := fun hc => hs.no_semicolon (hsub _ hc)
  have hline : '\n' ∉ g.text := fun hc => hs.no_newline (hsub _ hc)
  have hword : t.value = String.ofList g.text := by rw [← hvalue, String.ofList_toList]
  cases g with
  | blank c => cases ht
  | phrase p =>
    obtain rfl : t.value = p := by simpa [Segment.text] using hword
    exact .phrase ⟨hg, (Option.some.inj hcat).symm⟩
  | separator c => exact .separator ⟨c, hg, hword, (Option.some.inj hcat).symm⟩
  | quoted q inside =>
    simp only [Segment.text, List.mem_append, List.mem_cons, not_or] at hsemi hline
    exact .quoted ⟨q, inside, hg.1, hg.2, hsemi.1.2, hline.1.2, hvalue,
      (Option.some.inj hcat).symm⟩
  | unclosed q inside =>
    obtain ⟨hq, hin, hnil⟩ := hg
    -- An open quote takes all that is left, so it ends as the line does.
    rw [hnil, List.append_nil] at htext
    have hink : Text.EndsInk (q :: inside) := hs.endsInk.of_suffix ⟨_, htext⟩
    simp only [Segment.text, List.mem_cons, not_or] at hsemi hline
    exact .unclosed ⟨q, inside, hq, hin, hsemi.2, hline.2, hink, hvalue,
      (Option.some.inj hcat).symm⟩
  | word w =>
    obtain ⟨hne, hw, -⟩ := hg
    have hcat : t.category = classify (String.ofList w) := (Option.some.inj hcat).symm
    refine .word ⟨?_, ?_, ?_, ?_⟩
    · rintro hempty
      rw [hempty] at hvalue
      exact hne hvalue.symm
    · rw [hvalue]
      exact hw.1
    · rwa [hvalue]
    · rw [hcat, hword]
      rfl

theorem exists_segment_of_mem_tokenize {source : String} {t : Token} (h : t ∈ tokenize source) :
    ∃ line ∈ cleanLines source, ∃ before g after,
      segments line.text.toList = before ++ g :: after ∧ g.token? line.number = some t := by
  rw [tokenize_eq_flatMap_lineTokens] at h
  obtain ⟨line, hline, ht⟩ := List.mem_flatMap.mp h
  obtain ⟨g, hg, htoken⟩ := mem_lineTokens.mp ht
  obtain ⟨before, after, hcut⟩ := List.append_of_mem hg
  exact ⟨line, hline, before, g, after, hcut, htoken⟩

theorem regular_of_mem_tokenize {source : String} {t : Token} (h : t ∈ tokenize source) :
    t.Regular := by
  obtain ⟨line, hline, before, g, after, hcut, ht⟩ := exists_segment_of_mem_tokenize h
  exact regular_of_token? (isClean_of_mem_cleanLines hline) hcut ht

theorem eq_unclosed_of_isUnclosed {line : Nat} {g : Segment} {rest : List Char} {t : Token}
    (hg : g.FitsBefore rest) (ht : g.token? line = some t) (h : t.IsUnclosed) :
    ∃ q inside, g = .unclosed q inside := by
  obtain ⟨q, inside, hq, hin, hvalue⟩ := h.value_eq
  rw [(Segment.eq_of_token? ht).1] at hvalue
  cases g with
  | blank c => cases ht
  | phrase p =>
    obtain ⟨cs, hp⟩ := toList_eq_cons_of_mem_phrases hg
    rw [Segment.text, hp] at hvalue
    exact absurd (List.cons.inj hvalue).1.symm (of_isQuote hq).2.2
  | separator c =>
    obtain rfl : c = q := (List.cons.inj hvalue).1
    simp [(of_isSeparator hg).2.1] at hq
  | quoted r inner =>
    obtain ⟨rfl, rfl⟩ := List.cons.inj hvalue
    exact absurd (List.mem_append_right _ (List.mem_singleton_self r)) hin
  | unclosed r inner => exact ⟨r, inner, rfl⟩
  | word w =>
    obtain rfl : w = q :: inside := hvalue
    have hchar := isWordChar_iff.mp (hg.2.1.1 q (by simp))
    simp [hchar.2.2] at hq

theorem eq_nil_of_flatMap_text_eq_nil {gs : List Segment} (h : Fit gs)
    (hs : gs.flatMap Segment.text = []) : gs = [] := by
  rw [← segments_flatMap_text h, hs, segments_nil]

/-- Nothing is read behind an open quote on its line. -/
theorem pairwise_not_isUnclosed {line : Nat} {gs : List Segment} (h : Fit gs) :
    (gs.filterMap (Segment.token? line)).Pairwise fun t _ => ¬t.IsUnclosed := by
  induction gs with
  | nil => simp
  | cons g gs ih =>
    obtain ⟨hg, hgs⟩ := h
    rw [List.filterMap_cons]
    cases ht : g.token? line with
    | none => exact ih hgs
    | some t =>
      refine List.pairwise_cons.mpr ⟨?_, ih hgs⟩
      intro u hu hopen
      obtain ⟨q, inside, rfl⟩ := eq_unclosed_of_isUnclosed hg ht hopen
      rw [eq_nil_of_flatMap_text_eq_nil hgs hg.2.2] at hu
      simp at hu

theorem pairwise_line_ne_of_isUnclosed (source : String) :
    (tokenize source).Pairwise fun t u => t.IsUnclosed → u.line ≠ t.line := by
  apply pairwise_tokenize
  · intro line _
    exact (pairwise_not_isUnclosed (fit_segments _)).imp fun h hopen => absurd hopen h
  · intro t u hlt _
    exact hlt.ne'

end Lex8086
