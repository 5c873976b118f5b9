import Lex8086.Proofs.Layout

namespace Lex8086

def Token.down (k : Nat) (t : Token) : Token := { t with line := t.line + k }

/-- The line of the last token, or 0 where there is none. -/
def lastLine (ts : List Token) : Nat := ts.getLast?.elim 0 Token.line

/-- Every clean line has a token, so the last token stands on the last clean line. -/
theorem lastLine_tokenize (source : String) :
    lastLine (tokenize source) = (cleanLines source).length := by
  have hlines : ∀ k, k ∈ (tokenize source).map Token.line ↔
      1 ≤ k ∧ k ≤ (cleanLines source).length := fun k => mem_map_line_tokenize
  have hpair := pairwise_line_tokenize source
  rcases List.eq_nil_or_concat' (tokenize source) with hnil | ⟨ts, t, hts⟩
  · rw [hnil] at hlines ⊢
    have hnone := hlines (cleanLines source).length
    simp only [List.map_nil, List.not_mem_nil, false_iff] at hnone
    simp only [lastLine, List.getLast?_nil, Option.elim_none]
    omega
  · rw [hts] at hlines hpair ⊢
    have hle : ∀ v ∈ ts ++ [t], v.line ≤ t.line := by
      intro v hv
      rcases List.mem_append.mp hv with hv | hv
      · exact (List.pairwise_append.mp hpair).2.2 v hv t (by simp)
      · rw [List.mem_singleton.mp hv]
    obtain ⟨hpos, hlast⟩ := (hlines t.line).mp (by simp)
    obtain ⟨v, hv, hline⟩ := List.mem_map.mp
      ((hlines (cleanLines source).length).mpr ⟨by omega, le_rfl⟩)
    have hmax := hle v hv
    simp only [lastLine, List.getLast?_concat, Option.elim_some]
    omega

theorem lineTokens_add (line k : Nat) (s : List Char) :
    lineTokens (line + k) s = (lineTokens line s).map (Token.down k) := by
  rw [lineTokens, lineTokens, List.map_filterMap]
  apply List.filterMap_congr
  intro g _
  rw [Segment.token?, Segment.token?, Option.map_map]
  rfl

theorem tokensFrom_add (line k : Nat) (s : List Char) :
    tokensFrom (line + k) s = (tokensFrom line s).map (Token.down k) := by
  rw [tokensFrom, tokensFrom, Nat.add_comm line k, ← List.map_snd_add_zipIdx_eq_zipIdx,
    List.flatMap_map, List.map_flatMap]
  exact List.flatMap_congr fun p _ => lineTokens_add p.2 k p.1

theorem tokensFrom_append_newline (line : Nat) (a b : List Char) :
    tokensFrom line (a ++ '\n' :: b) =
      tokensFrom line a ++ tokensFrom (line + (cleanTexts (String.ofList a)).length) b := by
  rw [tokensFrom, cleanTexts_append_newline, List.zipIdx_append, List.flatMap_append]
  rfl

/-- A line feed parts a source: the tokens on its two sides are those of the sides alone, the later
ones further down by the lines before, and no token goes across. -/
theorem tokenize_append_newline (a b : String) :
    tokenize (a ++ "\n" ++ b) =
        tokenize a ++ (tokenize b).map (Token.down (lastLine (tokenize a))) ∧
      ∀ t ∈ tokenize (a ++ "\n" ++ b), '\n' ∉ t.value.toList := by
  constructor
  · have htext : (a ++ "\n" ++ b).toList = a.toList ++ '\n' :: b.toList := by simp
    rw [lastLine_tokenize, length_cleanLines, tokenize_eq_tokensFrom, tokenize_eq_tokensFrom a,
      tokenize_eq_tokensFrom b, htext, tokensFrom_append_newline, String.ofList_toList,
      tokensFrom_add]
  · intro t ht
    exact (regular_of_mem_tokenize ht).isClean_value.no_newline

/-- An open quote before the line feed, and behind it a comment and the end of a phrase. -/
theorem tokenize_append_newline_open_quote :
    ⟨"ENDS", .symbol, 2⟩ ∈ tokenize ("'.CODE" ++ "\n" ++ ";\nENDS") ∧
      '\n' ∉ (⟨"ENDS", .symbol, 2⟩ : Token).value.toList := by
  have hfirst : cleanLines "'.CODE" = [⟨1, "'.CODE"⟩] := by decide
  have hsecond : cleanLines ";\nENDS" = [⟨1, "ENDS"⟩] := by decide
  have hquote : lineTokens 1 "'.CODE".toList = _ :=
    lineTokens_of_fit 1 [.unclosed '\'' ".CODE".toList] (by decide) (by decide)
  have hword : lineTokens 1 "ENDS".toList = _ :=
    lineTokens_of_fit 1 [.word "ENDS".toList] (by decide) (by decide)
  have hmem : ⟨"ENDS", .symbol, 2⟩ ∈ tokenize ("'.CODE" ++ "\n" ++ ";\nENDS") := by
    rw [(tokenize_append_newline "'.CODE" ";\nENDS").1, tokenize_eq_flatMap_lineTokens,
      tokenize_eq_flatMap_lineTokens ";\nENDS", hfirst, hsecond, List.flatMap_singleton,
      List.flatMap_singleton, hquote, hword]
    decide
  exact ⟨hmem, (tokenize_append_newline "'.CODE" ";\nENDS").2 _ hmem⟩

end Lex8086
