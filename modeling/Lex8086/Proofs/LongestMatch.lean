import Lex8086.Proofs.Category
import Lex8086.Proofs.CleanLine
import Lex8086.Proofs.Round

namespace Lex8086.Scan

def State.pending (s : State) : List Char := s.word.toList ++ s.rest

/-- The word under way can go on, or it is all that an open quote has left of the line. -/
structure Invariant (s : State) : Prop where
  word : Plain s.word.toList s.rest ∨
    ∃ q inside, s.word.toList = q :: inside ∧ isQuote q ∧ q ∉ inside ∧ s.rest = []
  endsInk : Text.EndsInk s.pending

theorem startsInk_of_plain {w rest : List Char} (h : Plain w rest) : Text.StartsInk w := by
  intro c hc
  exact (isWordChar_iff.mp (h.1 c (List.mem_of_mem_head? hc))).1

theorem endsInk_of_plain {w rest : List Char} (h : Plain w rest) : Text.EndsInk w := by
  intro c hc
  exact (isWordChar_iff.mp (h.1 c (List.mem_of_mem_getLast? hc))).1

theorem head?_ne_of_plain {w rest : List Char} (h : Plain w rest) : w.head? ≠ some '[' := by
  intro hw
  have hc := h.1 '[' (List.mem_of_mem_head? hw)
  revert hc
  decide

theorem head?_ne_of_isQuote {q : Char} (h : isQuote q) (s : List Char) :
    (q :: s).head? ≠ some '[' := by
  rintro ⟨⟩
  exact absurd h (by decide)

theorem flush_eq_emit (line : Nat) {w : String} (hne : w ≠ "") (hs : Text.StartsInk w.toList)
    (he : Text.EndsInk w.toList) (hhead : w.toList.head? ≠ some '[') :
    flush line w = emit line w (classify w) := by
  unfold flush
  rw [Text.trim_eq_self hs he]
  split
  · next h => exact absurd (String.toList_eq_nil_iff.mp h) hne
  · next c cs h =>
    rw [← h, String.ofList_toList, wordCategory, String.ofList_toList]
    simp [hhead]

/-- A word that stops comes out as the segment that it is. -/
theorem tokens_flush_append (line : Nat) {w : String} {rest : List Char}
    (hw : Plain w.toList rest) (hstop : Stops rest) :
    (flush line w).tokens ++ lineTokens line rest = lineTokens line (w.toList ++ rest) := by
  by_cases hne : w = ""
  · rw [hne]
    rfl
  · have hnil : w.toList ≠ [] := mt String.toList_eq_nil_iff.mp hne
    have hfit : (Segment.word w.toList).FitsBefore rest := ⟨hnil, hw, hstop⟩
    have hcut := lineTokens_text_append line hfit
    rw [flush_eq_emit line hne (startsInk_of_plain hw) (endsInk_of_plain hw) (head?_ne_of_plain hw)]
    simpa [Segment.text, Segment.token?, Segment.category?, emit] using hcut.symm

theorem tokens_flush_unclosed (line : Nat) {w : String} {q : Char} {inside : List Char}
    (hw : w.toList = q :: inside) (hq : isQuote q) (hin : q ∉ inside)
    (hink : Text.EndsInk (q :: inside)) :
    (flush line w).tokens = lineTokens line (q :: inside) := by
  have hfit : (Segment.unclosed q inside).FitsBefore [] := ⟨hq, hin, rfl⟩
  have hcut := lineTokens_text_append line hfit
  have hlast : inside.getLast? ≠ some q := fun h => hin (List.mem_of_mem_getLast? h)
  have hword : w = String.ofList (q :: inside) := by rw [← hw, String.ofList_toList]
  have hhead : w.toList.head? ≠ some '[' := by
    rw [hw]
    exact head?_ne_of_isQuote hq inside
  have hflush := flush_eq_emit line (w := w) (by simp [hword]) (by simp [hw, (of_isQuote hq).1])
    (by rwa [hw]) hhead
  rw [Segment.text, List.append_nil, lineTokens_nil, List.append_nil] at hcut
  rw [hflush, hword, classify_of_isQuote hq, if_neg hlast, hcut]
  rfl

/-- A round keeps the invariant and gives out what is no longer pending. -/
theorem invariant_round {line : Nat} {s : State} {c : Char} {cs : List Char} {r : Output × State}
    (h : Round line s c cs r) (hword : Plain s.word.toList (c :: cs))
    (hink : Text.EndsInk (c :: cs)) :
    Invariant r.2 ∧
      r.1.tokens ++ lineTokens line r.2.pending = lineTokens line (s.word.toList ++ c :: cs) := by
  cases h with
  | grow hc =>
    have hpending : State.pending ⟨s.offset + c.utf8Size, s.word.push c, cs⟩ =
        s.word.toList ++ c :: cs := by simp [State.pending]
    refine ⟨⟨.inl ?_, ?_⟩, ?_⟩
    · rw [String.toList_push, plain_append]
      exact ⟨hword, hc⟩
    · rw [hpending]
      exact (Text.endsInk_append (by simp)).mpr hink
    · rw [hpending]
      rfl
  | @cut g rest hstop hs hg =>
    -- The word comes out, then the segment.
    refine ⟨⟨.inl (plain_nil _), hink.of_suffix ⟨_, hs.symm⟩⟩, ?_⟩
    rw [← tokens_flush_append line hword hstop, hs, lineTokens_text_append line hg, ← tokens_given,
      ← List.append_assoc]
    rfl
  | fold hq hin =>
    -- The open quote takes the place of the word, which comes out without a segment behind it.
    have hstop : Stops (c :: cs) := stops_of_not_isWordChar (by simp [isWordChar, hq])
    refine ⟨⟨.inr ⟨c, cs, String.toList_ofList, hq, hin, rfl⟩, ?_⟩, ?_⟩
    · simpa [State.pending] using hink
    · simpa [State.pending] using tokens_flush_append line hword hstop

theorem invariant_step {line : Nat} {s next : State} {out : Output} (h : Invariant s)
    (hstep : step line s = some (out, next)) :
    Invariant next ∧
      out.tokens ++ lineTokens line next.pending = lineTokens line s.pending := by
  obtain ⟨c, cs, hrest, hround⟩ := round_of_step hstep
  -- Text is left, so the word under way is no open quote.
  have hword : Plain s.word.toList (c :: cs) := by
    rcases h.word with hw | ⟨q, inside, -, -, -, hnil⟩
    · rwa [← hrest]
    · simp [hrest] at hnil
  have hpending : s.pending = s.word.toList ++ c :: cs := by rw [State.pending, hrest]
  rw [hpending]
  exact invariant_round hround hword (h.endsInk.of_suffix ⟨_, hpending.symm⟩)

theorem tokens_finish {line : Nat} {s : State} (h : Invariant s) (hrest : s.rest = []) :
    (finish line s).tokens = lineTokens line s.pending := by
  rw [State.pending, hrest, List.append_nil, finish]
  rcases h.word with hw | ⟨q, inside, hw, hq, hin, -⟩
  · rw [hrest] at hw
    simpa using tokens_flush_append line hw stops_nil
  · have hink := h.endsInk
    rw [State.pending, hrest, List.append_nil, hw] at hink
    rw [tokens_flush_unclosed line hw hq hin hink, hw]

/-- From a state that keeps the invariant, a scan gives the tokens of the cut of its text. -/
theorem tokens_run {line : Nat} {s : State} (h : Invariant s) :
    (run line s).tokens = lineTokens line s.pending := by
  induction s using run.induct line with
  | case1 s hstep =>
    have hrest : s.rest = [] := by
      unfold step at hstep
      split at hstep
      · assumption
      · cases hstep
    rw [run_of_none hstep, tokens_finish h hrest]
  | case2 s out next hstep ih =>
    obtain ⟨hnext, htokens⟩ := invariant_step h hstep
    rw [run_of_step hstep, Output.tokens_append, ih hnext, htokens]

theorem invariant_start {text : String} (h : Text.EndsInk text.toList) :
    Invariant (start text) := ⟨.inl (plain_nil _), h⟩

end Lex8086.Scan

namespace Lex8086

theorem tokens_scanLine {source : String} {line : CleanLine} (h : line ∈ cleanLines source) :
    (scanLine line).tokens = lineTokens line.number line.text.toList :=
  Scan.tokens_run (Scan.invariant_start (isClean_of_mem_cleanLines h).endsInk)

theorem tokenize_eq_flatMap_lineTokens (source : String) :
    tokenize source =
      (cleanLines source).flatMap fun line => lineTokens line.number line.text.toList := by
  rw [tokenize, analyze, Output.tokens_append, Output.tokens_concat, List.append_nil,
    List.flatMap_map]
  exact List.flatMap_congr fun line h => tokens_scanLine h

theorem pairwise_tokenize {R : Token → Token → Prop} {source : String}
    (hline : ∀ line ∈ cleanLines source,
      (lineTokens line.number line.text.toList).Pairwise R)
    (hnext : ∀ t u, t.line < u.line → R t u) : (tokenize source).Pairwise R := by
  rw [tokenize_eq_flatMap_lineTokens, List.pairwise_flatMap]
  refine ⟨hline, ?_⟩
  apply (pairwise_number_cleanLines source).imp
  intro a b hlt t ht u hu
  apply hnext
  rwa [line_of_mem_lineTokens ht, line_of_mem_lineTokens hu]

/-- The rules of the longest match, one for each way in which the text ahead can start. -/
structure LongestMatch (read : Nat → List Char → List Token) : Prop where
  nil : ∀ line, read line [] = []
  blank : ∀ line c rest, Text.isWhiteSpace c → read line (c :: rest) = read line rest
  phrase : ∀ line, ∀ p ∈ phrases, ∀ rest,
    read line (p.toList ++ rest) = ⟨p, .pseudoInstruction, line⟩ :: read line rest
  separator : ∀ line c rest, isSeparator c →
    read line (c :: rest) = ⟨String.singleton c, .separator, line⟩ :: read line rest
  quoted : ∀ line q inside rest, isQuote q → q ∉ inside →
    read line (q :: inside ++ q :: rest) =
      ⟨String.ofList (q :: inside ++ [q]), .strConstant, line⟩ :: read line rest
  unclosed : ∀ line q rest, isQuote q → q ∉ rest →
    read line (q :: rest) = [⟨String.ofList (q :: rest), .symbol, line⟩]
  word : ∀ line w rest, w ≠ [] → Plain w rest →
    (∀ v after, v ++ after = w ++ rest → Plain v after → v.length ≤ w.length) →
    read line (w ++ rest) =
      ⟨String.ofList w, classify (String.ofList w), line⟩ :: read line rest

theorem stops_iff_forall_length_le {w rest : List Char} (hw : Plain w rest) :
    Stops rest ↔ ∀ v after, v ++ after = w ++ rest → Plain v after → v.length ≤ w.length := by
  constructor
  · intro hstop v after hs hv
    by_contra hlt
    obtain ⟨t, rfl⟩ : w <+: v :=
      List.prefix_of_prefix_length_le ⟨rest, rfl⟩ ⟨after, hs⟩ (by omega)
    rw [List.append_assoc, List.append_cancel_left_eq] at hs
    cases t with
    | nil => simp at hlt
    | cons c t =>
      rw [← hs] at hstop
      have hc := (plain_append.mp hv).2
      rw [List.cons_append, stops_cons, plain_singleton] at hstop
      obtain ⟨hchar, hphrase, -⟩ := plain_cons.mp hc
      exact hstop ⟨hchar, hphrase⟩
  · intro hmax
    cases rest with
    | nil => exact stops_nil
    | cons c cs =>
      intro hc
      have hle := hmax (w ++ [c]) cs (by simp) (plain_append.mpr ⟨hw, hc⟩)
      rw [List.length_append, List.length_singleton] at hle
      omega

theorem longestMatch_lineTokens : LongestMatch lineTokens where
  nil := lineTokens_nil
  blank line c rest h := lineTokens_text_append line (g := .blank c) h
  phrase line p h rest := by
    have hfit : (Segment.phrase p).FitsBefore rest := h
    have hcut := lineTokens_text_append line hfit
    rwa [Segment.token?_phrase] at hcut
  separator line c rest h := lineTokens_text_append line (g := .separator c) h
  quoted line q inside rest hq hin := by
    have hfit : (Segment.quoted q inside).FitsBefore rest := ⟨hq, hin⟩
    have hcut := lineTokens_text_append line hfit
    rwa [Segment.text, List.append_assoc, List.singleton_append] at hcut
  unclosed line q rest hq hin := by
    have hfit : (Segment.unclosed q rest).FitsBefore [] := ⟨hq, hin, rfl⟩
    have hcut := lineTokens_text_append line hfit
    rwa [List.append_nil, lineTokens_nil] at hcut
  word line w rest hne hw hmax := by
    have hfit : (Segment.word w).FitsBefore rest :=
      ⟨hne, hw, (stops_iff_forall_length_le hw).mpr hmax⟩
    exact lineTokens_text_append line hfit

/-- The rules leave no choice: the cut is the only reading that follows them. -/
theorem eq_lineTokens_of_longestMatch {read : Nat → List Char → List Token}
    (h : LongestMatch read) (line : Nat) (s : List Char) : read line s = lineTokens line s := by
  induction s using segments.induct with
  | case1 => rw [h.nil, lineTokens_nil]
  | case2 c cs ih =>
    obtain ⟨rest, hs, hfit⟩ := Segment.first_fitsBefore c cs
    rw [hs, List.drop_left] at ih
    rw [hs, lineTokens_text_append line hfit, ← ih]
    -- Each kind of segment fits where one of the rules says how to read.
    generalize Segment.first c cs = g at hfit
    cases g with
    | blank d => exact h.blank line d rest hfit
    | phrase p =>
      rw [Segment.token?_phrase]
      exact h.phrase line p hfit rest
    | separator d => exact h.separator line d rest hfit
    | quoted q inside =>
      rw [Segment.text, List.append_assoc]
      exact h.quoted line q inside rest hfit.1 hfit.2
    | unclosed q inside =>
      obtain ⟨hq, hin, rfl⟩ := hfit
      rw [h.nil, List.append_nil]
      exact h.unclosed line q inside hq hin
    | word w =>
      obtain ⟨hne, hw, hstop⟩ := hfit
      exact h.word line w rest hne hw ((stops_iff_forall_length_le hw).mp hstop)

/-- The scan is the longest match: there is one reading by the rules, and a source has the tokens
that this reading finds on its clean lines, in order and under their numbers. -/
theorem tokenize_eq_longest_match :
    (∃ read, LongestMatch read) ∧ ∀ read, LongestMatch read → ∀ source, tokenize source =
      (cleanLines source).flatMap fun line => read line.number line.text.toList := by
  refine ⟨⟨lineTokens, longestMatch_lineTokens⟩, ?_⟩
  intro read h source
  rw [tokenize_eq_flatMap_lineTokens]
  exact List.flatMap_congr fun line _ =>
    (eq_lineTokens_of_longestMatch h line.number line.text.toList).symm

/-- A phrase within a word, and an open quote that is the last thing on its line. -/
theorem tokenize_eq_longest_match_phrase_and_quote :
    LongestMatch lineTokens ∧ tokenize "x.STACK ENDSy\n;\n0Fh'a'[\"c ," =
      [⟨"x", .symbol, 1⟩, ⟨".STACK ENDS", .pseudoInstruction, 1⟩, ⟨"y", .symbol, 1⟩,
       ⟨"0Fh", .hexConstant, 2⟩, ⟨"'a'", .strConstant, 2⟩, ⟨"[", .separator, 2⟩,
       ⟨"\"c ,", .symbol, 2⟩] := by
  refine ⟨longestMatch_lineTokens, ?_⟩
  have hlines : cleanLines "x.STACK ENDSy\n;\n0Fh'a'[\"c ," =
      [⟨1, "x.STACK ENDSy"⟩, ⟨2, "0Fh'a'[\"c ,"⟩] := by decide
  have hfirst : lineTokens 1 "x.STACK ENDSy".toList = _ := lineTokens_of_fit 1
    [.word ['x'], .phrase ".STACK ENDS", .word ['y']] (by decide) (by decide)
  have hsecond : lineTokens 2 "0Fh'a'[\"c ,".toList = _ := lineTokens_of_fit 2
    [.word ['0', 'F', 'h'], .quoted '\'' ['a'], .separator '[', .unclosed '"' ['c', ' ', ',']]
    (by decide) (by decide)
  rw [tokenize_eq_longest_match.2 lineTokens longestMatch_lineTokens, hlines]
  simp only [List.flatMap_cons, List.flatMap_nil, hfirst, hsecond]
  decide

end Lex8086
