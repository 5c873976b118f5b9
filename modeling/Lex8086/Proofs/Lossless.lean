import Lex8086.Proofs.LongestMatch
import Lex8086.Proofs.Written

namespace Lex8086

open Segment

theorem exists_written_of_fit (line : Nat) {gs : List Segment} (h : Fit gs) :
    ∃ lead body trail, gs.flatMap text = lead ++ body ++ trail ∧
      Text.IsBlank lead ∧ Text.IsBlank trail ∧
      Written BlankGap (gs.filterMap (token? line)) body := by
  induction gs with
  | nil => exact ⟨[], [], [], rfl, by simp, by simp, .nil⟩
  | cons g gs ih =>
    obtain ⟨hg, hgs⟩ := h
    obtain ⟨lead, body, trail, hs, hlead, htrail, hbody⟩ := ih hgs
    rw [List.flatMap_cons, hs, List.filterMap_cons]
    cases ht : g.token? line with
    | none =>
      obtain ⟨c, rfl⟩ := eq_blank_of_token?_eq_none ht
      have hblank : Text.IsBlank (text (blank c)) := Text.isBlank_cons.mpr ⟨hg, Text.isBlank_nil⟩
      exact ⟨[c] ++ lead, body, trail, by simp [text], Text.isBlank_append.mpr ⟨hblank, hlead⟩,
        htrail, hbody⟩
    | some t =>
      have hvalue := (eq_of_token? ht).1
      cases hts : gs.filterMap (token? line) with
      -- Behind the last token all blanks are trailing, before another one they are its gap.
      | nil =>
        rw [hts] at hbody
        obtain rfl := hbody.eq_nil
        exact ⟨[], g.text, lead ++ trail, by simp, by simp, Text.isBlank_append.mpr ⟨hlead, htrail⟩,
          hvalue ▸ .single t⟩
      | cons u ts =>
        rw [hts] at hbody
        exact ⟨[], g.text ++ lead ++ body, trail, by simp, by simp, htrail,
          hvalue ▸ .cons hlead hbody⟩

theorem written_lineTokens (line : Nat) {t : List Char} (h : IsClean t) :
    lineTokens line t ≠ [] ∧ Written BlankGap (lineTokens line t) t := by
  obtain ⟨lead, body, trail, hs, hlead, htrail, hbody⟩ :=
    exists_written_of_fit line (fit_segments t)
  rw [flatMap_text_segments] at hs
  -- A clean text has no white space at its ends, so nothing is left over there.
  have hstart := h.startsInk
  have hend := h.endsInk
  rw [hs, List.append_assoc] at hstart
  rw [hs] at hend
  obtain rfl := Text.eq_nil_of_isBlank_of_startsInk hlead hstart
  obtain rfl := Text.eq_nil_of_isBlank_of_endsInk htrail hend
  obtain rfl : t = body := by simpa using hs
  refine ⟨fun hnil => h.ne_nil ?_, hbody⟩
  rw [lineTokens] at hnil
  rw [hnil] at hbody
  exact hbody.eq_nil

theorem filter_line_tokenize {source : String} {line : CleanLine} (h : line ∈ cleanLines source) :
    (tokenize source).filter (·.line = line.number) =
      lineTokens line.number line.text.toList := by
  obtain ⟨before, after, hsplit⟩ := List.append_of_mem h
  have hpair := pairwise_number_cleanLines source
  rw [hsplit, List.pairwise_append, List.pairwise_cons] at hpair
  obtain ⟨-, ⟨hafter, -⟩, hbefore⟩ := hpair
  have hother : ∀ lines : List CleanLine, (∀ l ∈ lines, l.number ≠ line.number) →
      (lines.flatMap fun l => lineTokens l.number l.text.toList).filter
        (·.line = line.number) = [] := by
    intro lines hlines
    rw [List.filter_eq_nil_iff]
    intro t ht
    obtain ⟨l, hl, htl⟩ := List.mem_flatMap.mp ht
    rw [line_of_mem_lineTokens htl]
    simpa using hlines l hl
  have hself : (lineTokens line.number line.text.toList).filter (·.line = line.number) =
      lineTokens line.number line.text.toList := by
    rw [List.filter_eq_self]
    intro t ht
    simpa using line_of_mem_lineTokens ht
  rw [tokenize_eq_flatMap_lineTokens, hsplit, List.flatMap_append, List.flatMap_cons,
    List.filter_append, List.filter_append, hself, hother before, hother after]
  · simp
  · exact fun l hl => (hafter l hl).ne'
  · exact fun l hl => (hbefore l hl line (by simp)).ne

theorem pairwise_line_tokenize (source : String) :
    (tokenize source).Pairwise fun t u => t.line ≤ u.line := by
  apply pairwise_tokenize
  · intro line _
    apply List.pairwise_of_forall_mem_list
    intro t ht u hu
    rw [line_of_mem_lineTokens ht, line_of_mem_lineTokens hu]
  · intro t u hlt
    exact hlt.le

theorem mem_map_line_tokenize {source : String} {k : Nat} :
    k ∈ (tokenize source).map Token.line ↔ 1 ≤ k ∧ k ≤ (cleanLines source).length := by
  have hnumbers : k ∈ (tokenize source).map Token.line ↔
      k ∈ (cleanLines source).map CleanLine.number := by
    rw [tokenize_eq_flatMap_lineTokens]
    constructor
    · intro hk
      obtain ⟨t, ht, rfl⟩ := List.mem_map.mp hk
      obtain ⟨line, hline, htl⟩ := List.mem_flatMap.mp ht
      exact List.mem_map.mpr ⟨line, hline, (line_of_mem_lineTokens htl).symm⟩
    · intro hk
      obtain ⟨line, hline, rfl⟩ := List.mem_map.mp hk
      have hne := (written_lineTokens line.number (isClean_of_mem_cleanLines hline)).1
      obtain ⟨t, ht⟩ := List.exists_mem_of_ne_nil _ hne
      exact List.mem_map.mpr
        ⟨t, List.mem_flatMap.mpr ⟨line, hline, ht⟩, line_of_mem_lineTokens ht⟩
  rw [hnumbers, map_number_cleanLines, List.mem_range'_1]
  omega

/-- A clean line is its tokens with white space between neighbours, and the lines of the tokens are
1, 2, 3 and so on up to the last clean line, in this order. -/
theorem cleanLines_written_in_tokens (source : String) :
    (∀ line ∈ cleanLines source,
      (tokenize source).filter (·.line = line.number) ≠ [] ∧
        Written BlankGap ((tokenize source).filter (·.line = line.number)) line.text.toList) ∧
      ((tokenize source).Pairwise fun t u => t.line ≤ u.line) ∧
      ∀ k, k ∈ (tokenize source).map Token.line ↔ 1 ≤ k ∧ k ≤ (cleanLines source).length := by
  refine ⟨?_, pairwise_line_tokenize source, fun k => mem_map_line_tokenize⟩
  intro line h
  rw [filter_line_tokenize h]
  exact written_lineTokens line.number (isClean_of_mem_cleanLines h)

/-- A line with a comment, a tab and a quoted space. -/
theorem cleanLines_written_in_tokens_quoted_space :
    ⟨1, "POP\tAX,'a b'"⟩ ∈ cleanLines " POP\tAX,'a b' ; c\n" ∧
      Written BlankGap
        [⟨"POP", .instruction, 1⟩, ⟨"AX", .register, 1⟩, ⟨",", .separator, 1⟩,
         ⟨"'a b'", .strConstant, 1⟩]
        "POP\tAX,'a b'".toList := by
  have hline : ⟨1, "POP\tAX,'a b'"⟩ ∈ cleanLines " POP\tAX,'a b' ; c\n" := by decide
  have hcut : lineTokens 1 "POP\tAX,'a b'".toList = _ := lineTokens_of_fit 1
    [.word ['P', 'O', 'P'], .blank '\t', .word ['A', 'X'], .separator ',',
     .quoted '\'' ['a', ' ', 'b']] (by decide) (by decide)
  have hwritten := ((cleanLines_written_in_tokens " POP\tAX,'a b' ; c\n").1 _ hline).2
  rw [filter_line_tokenize hline, hcut] at hwritten
  exact ⟨hline, hwritten⟩

end Lex8086
