import Lex8086.CleanLine
import Lex8086.Proofs.Trim

namespace Lex8086

/-- Texts that cleaning leaves as they are. -/
structure IsClean (t : List Char) : Prop where
  ne_nil : t ≠ []
  startsInk : Text.StartsInk t
  endsInk : Text.EndsInk t
  no_semicolon : ';' ∉ t
  no_newline : '\n' ∉ t

theorem isClean_iff {t : List Char} : IsClean t ↔
    t ≠ [] ∧ Text.StartsInk t ∧ Text.EndsInk t ∧ ';' ∉ t ∧ '\n' ∉ t := by
  constructor
  · rintro ⟨hne, hs, he, hsemi, hline⟩
    exact ⟨hne, hs, he, hsemi, hline⟩
  · rintro ⟨hne, hs, he, hsemi, hline⟩
    exact ⟨hne, hs, he, hsemi, hline⟩

instance (t : List Char) : Decidable (IsClean t) := decidable_of_iff _ isClean_iff.symm

theorem semicolon_notMem_of_isBlank {gap : List Char} (h : Text.IsBlank gap) : ';' ∉ gap :=
  fun hmem => absurd (h _ hmem) (by decide)

theorem IsClean.append {s gap t : List Char} (hs : IsClean s) (hgap : Text.IsBlank gap)
    (hline : '\n' ∉ gap) (ht : IsClean t) : IsClean (s ++ gap ++ t) where
  ne_nil := by simp [hs.ne_nil]
  startsInk := by
    rw [List.append_assoc, Text.startsInk_append hs.ne_nil]
    exact hs.startsInk
  endsInk := (Text.endsInk_append ht.ne_nil).mpr ht.endsInk
  no_semicolon := by
    simp [hs.no_semicolon, semicolon_notMem_of_isBlank hgap, ht.no_semicolon]
  no_newline := by simp [hs.no_newline, hline, ht.no_newline]

theorem not_mem_of_mem_splitOn {a : Char} {s : List Char} :
    ∀ piece ∈ s.splitOn a, a ∉ piece := by
  induction s with
  | nil => simp
  | cons c s ih =>
    intro piece hp
    rw [List.splitOn_cons_eq_if_modifyHead] at hp
    split at hp
    · rcases List.mem_cons.mp hp with rfl | hp
      · simp
      · exact ih piece hp
    · next hc =>
      obtain ⟨first, rest, hs⟩ := List.exists_cons_of_ne_nil (List.splitOn_ne_nil a s)
      rw [hs, List.modifyHead_cons] at hp
      rcases List.mem_cons.mp hp with rfl | hp
      · have hne : a ≠ c := fun h => hc (by simp [h])
        simpa [hne] using ih first (by simp [hs])
      · exact ih piece (by simp [hs, hp])

def pieces (source : String) : List (List Char) := source.toList.splitOn '\n'

def ofPieces (ps : List (List Char)) : String := String.ofList (['\n'].intercalate ps)

theorem newline_notMem_of_mem_pieces {source : String} {p : List Char} (h : p ∈ pieces source) :
    '\n' ∉ p :=
  not_mem_of_mem_splitOn p h

theorem pieces_ofPieces {ps : List (List Char)} (hne : ps ≠ []) (h : ∀ p ∈ ps, '\n' ∉ p) :
    pieces (ofPieces ps) = ps := by
  rw [pieces, ofPieces, String.toList_ofList, List.splitOn_intercalate '\n' h hne]

def cleanPiece (p : List Char) : List Char := Text.trim (dropComment p)

theorem cleanTexts_eq_filter_pieces (source : String) :
    cleanTexts source = ((pieces source).map cleanPiece).filter (· ≠ []) := rfl

theorem cleanTexts_ofPieces {ps : List (List Char)} (hne : ps ≠ []) (h : ∀ p ∈ ps, '\n' ∉ p) :
    cleanTexts (ofPieces ps) = (ps.map cleanPiece).filter (· ≠ []) := by
  rw [cleanTexts_eq_filter_pieces, pieces_ofPieces hne h]

theorem dropComment_append_of_notMem {s : List Char} (h : ';' ∉ s) (t : List Char) :
    dropComment (s ++ t) = s ++ dropComment t := by
  apply List.takeWhile_append_of_pos
  intro c hc
  have hne : c ≠ ';' := fun he => h (he ▸ hc)
  simpa using hne

theorem dropComment_eq_self {s : List Char} (h : ';' ∉ s) : dropComment s = s := by
  have hnil : dropComment [] = [] := rfl
  simpa [hnil] using dropComment_append_of_notMem h []

theorem dropComment_append_semicolon {code : List Char} (h : ';' ∉ code) (text : List Char) :
    dropComment (code ++ ';' :: text) = code := by
  rw [dropComment_append_of_notMem h]
  exact List.append_nil code

theorem dropComment_append_of_mem {s : List Char} (h : ';' ∈ s) (t : List Char) :
    dropComment (s ++ t) = dropComment s := by
  obtain ⟨code, text, rfl, hcode⟩ := List.eq_append_cons_of_mem h
  rw [List.append_assoc, List.cons_append, dropComment_append_semicolon hcode,
    dropComment_append_semicolon hcode]

theorem IsClean.cleanPiece_eq_self {t : List Char} (h : IsClean t) : cleanPiece t = t := by
  rw [cleanPiece, dropComment_eq_self h.no_semicolon, Text.trim_eq_self h.startsInk h.endsInk]

theorem isClean_of_mem_cleanTexts {source : String} {t : List Char}
    (h : t ∈ cleanTexts source) : IsClean t := by
  obtain ⟨hmem, hne⟩ := List.mem_filter.mp h
  obtain ⟨piece, hpiece, rfl⟩ := List.mem_map.mp hmem
  have hsub : ∀ c ∈ Text.trim (dropComment piece), c ∈ dropComment piece :=
    fun c hc => Text.mem_of_mem_trim hc
  refine ⟨by simpa using hne, Text.startsInk_trim _, Text.endsInk_trim _, ?_, ?_⟩
  · intro hc
    simpa using List.mem_takeWhile_imp (hsub _ hc)
  · intro hc
    have hin : '\n' ∈ piece := (List.takeWhile_prefix _).subset (hsub _ hc)
    exact not_mem_of_mem_splitOn piece hpiece hin

theorem cleanTexts_append_newline (a b : List Char) :
    cleanTexts (String.ofList (a ++ '\n' :: b)) =
      cleanTexts (String.ofList a) ++ cleanTexts (String.ofList b) := by
  simp [cleanTexts, List.splitOn_append_cons_self]

theorem cleanTexts_of_notMem_newline {s : List Char} (h : '\n' ∉ s) :
    cleanTexts (String.ofList s) = [Text.trim (dropComment s)].filter (· ≠ []) := by
  simp [cleanTexts, List.splitOn_eq_singleton h]

theorem cleanTexts_of_isClean {t : List Char} (h : IsClean t) :
    cleanTexts (String.ofList t) = [t] := by
  have ht : Text.trim (dropComment t) = t := h.cleanPiece_eq_self
  simp [cleanTexts_of_notMem_newline h.no_newline, ht, h.ne_nil]

theorem exists_last_row (a : List Char) :
    ∃ before row, '\n' ∉ row ∧ ∀ b, cleanTexts (String.ofList (a ++ b)) =
      before ++ cleanTexts (String.ofList (row ++ b)) := by
  by_cases h : '\n' ∈ a
  · obtain ⟨row, rows, hsplit, hrow⟩ := List.eq_append_cons_of_mem (List.mem_reverse.mpr h)
    have ha : a = rows.reverse ++ '\n' :: row.reverse := by
      rw [← List.reverse_reverse a, hsplit]
      simp
    refine ⟨cleanTexts (String.ofList rows.reverse), row.reverse, by simpa using hrow, ?_⟩
    intro b
    rw [ha, List.append_assoc, List.cons_append, cleanTexts_append_newline]
  · exact ⟨[], a, h, fun b => rfl⟩

theorem exists_first_row (b : List Char) :
    ∃ row after, '\n' ∉ row ∧ ∀ a, cleanTexts (String.ofList (a ++ b)) =
      cleanTexts (String.ofList (a ++ row)) ++ after := by
  by_cases h : '\n' ∈ b
  · obtain ⟨row, rows, rfl, hrow⟩ := List.eq_append_cons_of_mem h
    refine ⟨row, cleanTexts (String.ofList rows), hrow, ?_⟩
    intro a
    rw [← List.append_assoc, cleanTexts_append_newline]
  · exact ⟨b, [], h, fun a => (List.append_nil _).symm⟩

theorem dropComment_isPrefix_append (s t : List Char) : dropComment s <+: dropComment (s ++ t) := by
  rw [dropComment, dropComment, List.takeWhile_append]
  split
  · exact (List.takeWhile_prefix _).trans (List.prefix_append _ _)
  · exact List.prefix_rfl

/-- Text behind a source adds clean lines to it, or it goes on with the last one first. -/
theorem cleanTexts_append (a b : List Char) :
    cleanTexts (String.ofList a) <+: cleanTexts (String.ofList (a ++ b)) ∨
      ∃ before t more after, cleanTexts (String.ofList a) = before ++ [t] ∧
        cleanTexts (String.ofList (a ++ b)) = before ++ (t ++ more) :: after := by
  obtain ⟨before, row, hrow, hlast⟩ := exists_last_row a
  obtain ⟨next, after, hnext, hfirst⟩ := exists_first_row b
  have ha : cleanTexts (String.ofList a) =
      before ++ [Text.trim (dropComment row)].filter (· ≠ []) := by
    rw [← cleanTexts_of_notMem_newline hrow]
    simpa using hlast []
  have hab : cleanTexts (String.ofList (a ++ b)) =
      before ++ ([Text.trim (dropComment (row ++ next))].filter (· ≠ []) ++ after) := by
    rw [hlast b, hfirst row, cleanTexts_of_notMem_newline (by simp [hrow, hnext])]
  -- The last row of `a` and the first of `b` are one line, new if there was nothing on it yet.
  by_cases hblank : Text.trim (dropComment row) = []
  · refine .inl ⟨[Text.trim (dropComment (row ++ next))].filter (· ≠ []) ++ after, ?_⟩
    rw [ha, hab, hblank]
    simp
  · obtain ⟨comment, hcomment⟩ := dropComment_isPrefix_append row next
    obtain ⟨more, hmore⟩ := Text.trim_isPrefix_trim_append hblank comment
    rw [hcomment] at hmore
    refine .inr ⟨before, Text.trim (dropComment row), more, after, ?_, ?_⟩
    · rw [ha]
      simp [hblank]
    · rw [hab, ← hmore]
      simp [hblank]

@[simp] theorem cleanTexts_empty : cleanTexts "" = [] := by
  simp [cleanTexts, dropComment, Text.trim, Text.trimStart, Text.trimEnd]

@[simp] theorem length_cleanLines (source : String) :
    (cleanLines source).length = (cleanTexts source).length := by
  simp [cleanLines]

theorem map_number_cleanLines (source : String) :
    (cleanLines source).map CleanLine.number = List.range' 1 (cleanLines source).length := by
  rw [length_cleanLines, cleanLines, List.map_map]
  exact List.zipIdx_map_snd 1 (cleanTexts source)

theorem pairwise_number_cleanLines (source : String) :
    (cleanLines source).Pairwise fun a b => a.number < b.number := by
  have h : (List.range' 1 (cleanLines source).length).Pairwise (· < ·) := List.pairwise_lt_range'
  rwa [← map_number_cleanLines, List.pairwise_map] at h

theorem isClean_of_mem_cleanLines {source : String} {line : CleanLine}
    (h : line ∈ cleanLines source) : IsClean line.text.toList := by
  obtain ⟨⟨t, k⟩, ht, rfl⟩ := List.mem_map.mp h
  rw [String.toList_ofList]
  exact isClean_of_mem_cleanTexts (List.fst_mem_of_mem_zipIdx ht)

end Lex8086
