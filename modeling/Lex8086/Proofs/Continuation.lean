import Lex8086.Proofs.Layout

namespace Lex8086

open Segment

/-- `rest` breaks off within a space and the second word of a phrase, and `more` brings the end. -/
def BreaksOff (rest more : List Char) : Prop :=
  ∃ l ∈ phraseTails, ∃ v c u, rest = ' ' :: v ∧ l.toList = v ++ c :: u ∧ c :: u <+: more

theorem Plain.append_or {w rest : List Char} (h : Plain w rest) (hstop : Stops rest)
    (hne : rest ≠ []) (more : List Char) : Plain w (rest ++ more) ∨ BreaksOff rest more := by
  rw [or_iff_not_imp_left, plain_iff_not_straddles h.1 (hstop.append hne more), not_not]
  rintro ⟨hhead, l, hl, after, hafter⟩
  have hbefore : ¬(' ' :: l.toList <+: rest) := fun hfront =>
    (plain_iff_not_straddles h.1 hstop).mp h ⟨hhead, l, hl, hfront⟩
  obtain ⟨d, ds, rfl⟩ := List.exists_cons_of_ne_nil hne
  rcases List.append_eq_append_iff.mp hafter with ⟨v, hv, -⟩ | ⟨u, hu, hmore⟩
  · exact absurd ⟨v, hv.symm⟩ hbefore
  · obtain ⟨rfl, hcut⟩ := List.cons.inj hu
    cases u with
    | nil => exact absurd ⟨[], by simpa using hu⟩ hbefore
    | cons c u => exact ⟨l, hl, ds, c, u, rfl, hcut, after, hmore.symm⟩

theorem Segment.FitsBefore.append_or {g : Segment} {rest : List Char} (h : g.FitsBefore rest)
    (more : List Char) : g.FitsBefore (rest ++ more) ∨ rest = [] ∨ BreaksOff rest more := by
  cases g with
  | blank c => exact .inl h
  | phrase p => exact .inl h
  | separator c => exact .inl h
  | quoted q inside => exact .inl h
  | unclosed q inside => exact .inr (.inl h.2.2)
  | word w =>
    obtain ⟨hne, hw, hstop⟩ := h
    by_cases hnil : rest = []
    · exact .inr (.inl hnil)
    · rcases hw.append_or hstop hnil more with hw | hbreak
      · exact .inl ⟨hne, hw, hstop.append hnil more⟩
      · exact .inr (.inr hbreak)

theorem length_lineTokens_le_of_breaksOff (line : Nat) {rest more : List Char}
    (h : BreaksOff rest more) : (lineTokens line rest).length ≤ 1 := by
  obtain ⟨l, hl, v, c, u, rfl, hcut, -⟩ := h
  obtain ⟨-, -, -, hchars⟩ := exists_cons_of_mem_phraseTails hl
  have hblank : lineTokens line (' ' :: v) = lineTokens line v :=
    lineTokens_text_append line (g := .blank ' ') (by decide : Text.isWhiteSpace ' ' = true)
  rw [hblank]
  by_cases hne : v = []
  · rw [hne, lineTokens_nil]
    exact Nat.zero_le _
  · have hfit : (Segment.word v).FitsBefore [] :=
      ⟨hne, plain_nil_right fun d hd => (hchars d (by simp [hcut, hd])).1, stops_nil⟩
    have hword := lineTokens_text_append line hfit
    rw [Segment.text, List.append_nil, lineTokens_nil, List.append_nil] at hword
    rw [hword]
    exact Option.length_toList_le

theorem rdrop_append_isPrefix {α : Type} (s t : List α) (n : Nat) :
    (s ++ t).rdrop n <+: s ++ t.rdrop n := by
  rcases Nat.le_total n t.length with h | h
  · simp [List.rdrop_append_of_le_length n h]
  · obtain ⟨k, rfl⟩ := Nat.exists_eq_add_of_le h
    rw [List.rdrop_append_length_add]
    exact (List.take_prefix _ s).trans (List.prefix_append _ _)

/-- On one line, more text changes two tokens at most. -/
theorem rdrop_lineTokens_isPrefix (line : Nat) (s more : List Char) :
    (lineTokens line s).rdrop 2 <+: lineTokens line (s ++ more) := by
  induction s using segments.induct with
  | case1 =>
    rw [lineTokens_nil, List.rdrop_nil]
    exact List.nil_prefix
  | case2 c cs ih =>
    obtain ⟨rest, hs, hfit⟩ := first_fitsBefore c cs
    rw [hs, List.drop_left] at ih
    rw [hs, lineTokens_text_append line hfit]
    generalize first c cs = g at hfit ⊢
    -- Where the segment does not fit any more, one token at most is behind it.
    have hshort : (lineTokens line rest).length ≤ 1 →
        ((g.token? line).toList ++ lineTokens line rest).rdrop 2 = [] := by
      intro hle
      have htoken : (g.token? line).toList.length ≤ 1 := Option.length_toList_le
      rw [List.rdrop, List.take_eq_nil_iff, List.length_append]
      omega
    rcases hfit.append_or more with hfit | rfl | hbreak
    · rw [List.append_assoc, lineTokens_text_append line hfit]
      exact (rdrop_append_isPrefix _ _ 2).trans ((List.prefix_append_right_inj _).mpr ih)
    · rw [hshort (by simp)]
      exact List.nil_prefix
    · rw [hshort (length_lineTokens_le_of_breaksOff line hbreak)]
      exact List.nil_prefix

/-- Text added behind a source leaves all its tokens but the last two as they are. -/
theorem rdrop_tokenize_isPrefix (a b : String) : (tokenize a).rdrop 2 <+: tokenize (a ++ b) := by
  rw [tokenize_eq_tokensFrom, tokenize_eq_tokensFrom, String.toList_append, tokensFrom, tokensFrom]
  rcases cleanTexts_append a.toList b.toList with ⟨after, hafter⟩ |
    ⟨before, t, more, after, ha, hab⟩
  · rw [← hafter, List.zipIdx_append, List.flatMap_append]
    exact (List.take_prefix _ _).trans (List.prefix_append _ _)
  · rw [ha, hab, List.zipIdx_append, List.zipIdx_append, List.flatMap_append, List.flatMap_append,
      List.zipIdx_singleton, List.flatMap_singleton, List.zipIdx_cons, List.flatMap_cons]
    apply (rdrop_append_isPrefix _ _ 2).trans
    rw [List.prefix_append_right_inj]
    exact (rdrop_lineTokens_isPrefix _ t more).trans (List.prefix_append _ _)

end Lex8086
