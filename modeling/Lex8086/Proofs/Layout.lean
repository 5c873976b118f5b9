import Lex8086.Proofs.Lossless
import Lex8086.Proofs.TokenKind
import Mathlib.Data.List.Chain

namespace Lex8086

/-- On one line there is white space between neighbours, from a line to the next a line end. -/
def Neighbours (t : Token) (gap : List Char) (u : Token) : Prop :=
  (u.line = t.line ∧ Text.IsBlank gap ∧ '\n' ∉ gap) ∨ (u.line = t.line + 1 ∧ gap = ['\n'])

/-- Two words are not glued together, and they do not make a phrase with a single space. -/
def KeepsApart (t : Token) (gap : List Char) (u : Token) : Prop :=
  t.IsWord → u.IsWord → gap ≠ [] ∧
    ¬(gap = [' '] ∧ (∃ h ∈ phraseHeads, h.toList <:+ t.value.toList) ∧
      ∃ l ∈ phraseTails, l.toList <+: u.value.toList)

def SafeNeighbours (t : Token) (gap : List Char) (u : Token) : Prop :=
  Neighbours t gap u ∧ KeepsApart t gap u

/-- Lists of tokens that can be written out as a source. -/
structure WellFormed (ts : List Token) : Prop where
  regular : ∀ t ∈ ts, t.Regular
  unclosed_last : ts.Pairwise fun t u => t.IsUnclosed → u.line ≠ t.line
  line_head : ∀ t ∈ ts.head?, t.line = 1
  line_next : ts.IsChain fun t u => u.line = t.line ∨ u.line = t.line + 1

def tokensFrom (line : Nat) (s : List Char) : List Token :=
  ((cleanTexts (String.ofList s)).zipIdx line).flatMap fun p => lineTokens p.2 p.1

theorem tokenize_eq_tokensFrom (source : String) :
    tokenize source = tokensFrom 1 source.toList := by
  rw [tokenize_eq_flatMap_lineTokens, tokensFrom, cleanLines, List.flatMap_map,
    String.ofList_toList]
  simp only [String.toList_ofList]

@[simp] theorem tokensFrom_nil (line : Nat) : tokensFrom line [] = [] := by simp [tokensFrom]

theorem tokensFrom_newline (line : Nat) (s : List Char) :
    tokensFrom line ('\n' :: s) = tokensFrom line s := by
  have h : cleanTexts (String.ofList ('\n' :: s)) = cleanTexts (String.ofList s) := by
    simpa using cleanTexts_append_newline [] s
  rw [tokensFrom, h, tokensFrom]

theorem tokensFrom_of_isClean (line : Nat) {row : List Char} (h : IsClean row) :
    tokensFrom line row = lineTokens line row := by
  simp [tokensFrom, cleanTexts_of_isClean h]

theorem tokensFrom_append (line : Nat) {row behind : List Char} (h : IsClean row)
    (hbehind : ∀ c ∈ behind.head?, c = '\n') :
    tokensFrom line (row ++ behind) = lineTokens line row ++ tokensFrom (line + 1) behind := by
  cases behind with
  | nil => simp [tokensFrom_of_isClean line h]
  | cons c s =>
    obtain rfl : c = '\n' := hbehind c (by simp)
    rw [tokensFrom_newline, tokensFrom, cleanTexts_append_newline, cleanTexts_of_isClean h]
    simp [tokensFrom]

namespace Token

theorem Regular.exists_fitsBefore {t : Token} (h : t.Regular) (rest : List Char)
    (hopen : t.IsUnclosed → rest = []) (hword : t.IsWord → Plain t.value.toList rest ∧ Stops rest) :
    ∃ g : Segment, g.FitsBefore rest ∧ g.token? t.line = some t := by
  have hne := h.isClean_value.ne_nil
  cases h with
  | separator h =>
    obtain ⟨c, hc, hv, hcat⟩ := h
    exact ⟨.separator c, hc, Segment.token?_eq_some (by simp [Segment.text, hv])
      (congrArg some hcat.symm)⟩
  | phrase h =>
    exact ⟨.phrase t.value, h.1, Segment.token?_eq_some rfl (congrArg some h.2.symm)⟩
  | quoted h =>
    obtain ⟨q, inside, hq, hin, hv⟩ := h.value_eq
    exact ⟨.quoted q inside, ⟨hq, hin⟩,
      Segment.token?_eq_some hv.symm (congrArg some h.category_eq.symm)⟩
  | unclosed h =>
    obtain ⟨q, inside, hq, hin, hv⟩ := h.value_eq
    exact ⟨.unclosed q inside, ⟨hq, hin, hopen h⟩,
      Segment.token?_eq_some hv.symm (congrArg some h.category_eq.symm)⟩
  | word h =>
    have hfit := hword h
    obtain ⟨-, -, -, hcat⟩ := h
    refine ⟨.word t.value.toList, ⟨hne, hfit⟩, Segment.token?_eq_some rfl ?_⟩
    rw [Segment.category?, String.ofList_toList, hcat]

theorem Regular.stops_append {t : Token} (h : t.Regular) (hword : ¬t.IsWord) (rest : List Char) :
    Stops (t.value.toList ++ rest) := by
  cases h with
  | separator h =>
    obtain ⟨c, hc, hv, -⟩ := h
    rw [hv, String.toList_singleton]
    exact stops_of_not_isWordChar (by simp [isWordChar, hc])
  | phrase h => exact stops_of_phraseAt (phraseAt_append h.1 rest)
  | quoted h =>
    obtain ⟨q, inside, hq, -, hv⟩ := h.value_eq
    rw [hv]
    exact stops_of_not_isWordChar (by simp [isWordChar, hq])
  | unclosed h =>
    obtain ⟨q, inside, hq, -, hv⟩ := h.value_eq
    rw [hv]
    exact stops_of_not_isWordChar (by simp [isWordChar, hq])
  | word h => exact absurd h hword

theorem IsWord.plain_of_token? {line : Nat} {g : Segment} {rest : List Char} {t : Token}
    (h : t.IsWord) (hg : g.FitsBefore rest) (ht : g.token? line = some t) :
    Plain t.value.toList rest ∧ Stops rest := by
  obtain ⟨-, hchars, -⟩ := h
  rw [(Segment.eq_of_token? ht).1] at hchars ⊢
  exact hg.plain hchars

end Token

theorem isPrefix_of_mem_phraseTails {u : Token} {rest : List Char} (hu : u.Regular)
    (hrest : u.IsWord → Stops rest) {l : String} (hl : l ∈ phraseTails)
    (h : l.toList <+: u.value.toList ++ rest) : u.IsWord ∧ l.toList <+: u.value.toList := by
  obtain ⟨c, cs, hc, hchars⟩ := exists_cons_of_mem_phraseTails hl
  by_cases hword : u.IsWord
  · refine ⟨hword, ?_⟩
    rcases List.prefix_or_prefix_of_prefix h (List.prefix_append _ rest) with h' | ⟨v, hv⟩
    · exact h'
    · cases v with
      | nil => simp [← hv]
      | cons d v =>
        rw [← hv, List.prefix_append_right_inj] at h
        obtain ⟨after, rfl⟩ := h
        obtain ⟨hd, hdot⟩ := hchars d (by simp [← hv])
        exact absurd (hrest hword) (not_stops_of_ne hd hdot)
  · obtain ⟨after, hafter⟩ := h
    have hstop := hu.stops_append hword rest
    obtain ⟨hd, hdot⟩ := hchars c (by simp [hc])
    rw [← hafter, hc] at hstop
    exact absurd hstop (not_stops_of_ne hd hdot)

theorem eq_space_of_mem_phraseTails {u : Token} {gap rest : List Char} (hu : u.Regular)
    (hgap : Text.IsBlank gap) (hrest : u.IsWord → Stops rest) {l : String} (hl : l ∈ phraseTails)
    (h : ' ' :: l.toList <+: gap ++ (u.value.toList ++ rest)) :
    gap = [' '] ∧ u.IsWord ∧ l.toList <+: u.value.toList := by
  obtain ⟨after, hafter⟩ := h
  cases gap with
  | nil =>
    have hink : Text.StartsInk (u.value.toList ++ rest) :=
      (Text.startsInk_append hu.isClean_value.ne_nil).mpr hu.isClean_value.startsInk
    rw [List.nil_append] at hafter
    rw [← hafter, List.cons_append, Text.startsInk_cons] at hink
    exact absurd hink (by decide)
  | cons d gap =>
    obtain ⟨rfl, htail⟩ := List.cons.inj hafter
    cases gap with
    | nil => exact ⟨rfl, isPrefix_of_mem_phraseTails hu hrest hl ⟨after, htail⟩⟩
    | cons e gap =>
      obtain ⟨c, cs, hc, hchars⟩ := exists_cons_of_mem_phraseTails hl
      rw [List.append_eq, hc] at htail
      obtain ⟨rfl, -⟩ := List.cons.inj htail
      have hws := hgap c (by simp)
      have hink := (isWordChar_iff.mp (hchars c (by simp [hc])).1).1
      simp [hws] at hink

theorem plain_of_keepsApart {t u : Token} {gap rest : List Char} (ht : t.IsWord) (hu : u.Regular)
    (hgap : Text.IsBlank gap) (happart : KeepsApart t gap u) (hrest : u.IsWord → Stops rest) :
    Plain t.value.toList (gap ++ (u.value.toList ++ rest)) ∧
      Stops (gap ++ (u.value.toList ++ rest)) := by
  have hstop : Stops (gap ++ (u.value.toList ++ rest)) := by
    cases gap with
    | nil =>
      apply hu.stops_append
      intro hword
      exact (happart ht hword).1 rfl
    | cons c gap =>
      exact stops_of_not_isWordChar (by simp [isWordChar, hgap c (by simp)])
  refine ⟨(plain_iff_not_straddles ht.2.1 hstop).mpr ?_, hstop⟩
  rintro ⟨hhead, l, hl, hfront⟩
  obtain ⟨rfl, hword, htail⟩ := eq_space_of_mem_phraseTails hu hgap hrest hl hfront
  exact (happart ht hword).2 ⟨rfl, hhead, l, hl, htail⟩

theorem exists_first_line {t : Token} {ts : List Token} {s : List Char}
    (h : Written Neighbours (t :: ts) s) (hregular : ∀ u ∈ t :: ts, u.Regular) :
    ∃ rest behind, s = t.value.toList ++ rest ++ behind ∧ IsClean (t.value.toList ++ rest) ∧
      ∀ c ∈ behind.head?, c = '\n' := by
  have ht := (hregular t (by simp)).isClean_value
  -- The first line goes on as long as the gaps do not end it.
  induction ts generalizing t s with
  | nil =>
    cases h
    exact ⟨[], [], by simp, by simpa using ht, by simp⟩
  | cons u ts ih =>
    obtain ⟨-, hregular⟩ := List.forall_mem_cons.mp hregular
    cases h with
    | @cons _ _ _ gap s hgap hs =>
      rcases hgap with ⟨-, hblank, hline⟩ | ⟨-, rfl⟩
      · obtain ⟨rest, behind, rfl, hrow, hbehind⟩ :=
          ih hs hregular (hregular u (by simp)).isClean_value
        refine ⟨gap ++ (u.value.toList ++ rest), behind, by simp, ?_, hbehind⟩
        rw [← List.append_assoc]
        exact ht.append hblank hline hrow
      · exact ⟨[], '\n' :: s, by simp, by simpa using ht, by simp⟩

theorem keepsApart_of_plain {t u : Token} {gap rest : List Char}
    (hplain : Plain t.value.toList (gap ++ (u.value.toList ++ rest)))
    (hstop : Stops (gap ++ (u.value.toList ++ rest)))
    (hu : u.value.toList ≠ []) (huplain : u.IsWord → Plain u.value.toList rest) :
    KeepsApart t gap u := by
  intro ht hword
  constructor
  · rintro rfl
    exact not_stops_of_plain hu (huplain hword) hstop
  · rintro ⟨rfl, hhead, l, hl, after, hafter⟩
    apply (plain_iff_not_straddles ht.2.1 hstop).mp hplain
    exact ⟨hhead, l, hl, after ++ rest, by simp [← hafter]⟩

theorem lineTokens_value {t : Token} (h : t.Regular) : lineTokens t.line t.value.toList = [t] := by
  obtain ⟨g, hfit, hg⟩ := h.exists_fitsBefore [] (fun _ => rfl)
    fun hword => ⟨plain_nil_right hword.2.1, stops_nil⟩
  have hcut := lineTokens_of_token? hfit hg
  rwa [List.append_nil, lineTokens_nil] at hcut

/-- Of two tokens on a line, the first is read exactly where it keeps apart from the second. -/
theorem lineTokens_append_eq_cons_iff {t u : Token} {ts more : List Token} {gap rest : List Char}
    (ht : t.Regular) (hu : u.Regular) (hopen : ¬t.IsUnclosed) (hgap : Text.IsBlank gap) :
    lineTokens t.line (t.value.toList ++ (gap ++ (u.value.toList ++ rest))) ++ more =
        t :: u :: ts ↔
      KeepsApart t gap u ∧ lineTokens t.line (u.value.toList ++ rest) ++ more = u :: ts := by
  have hunext : lineTokens t.line (u.value.toList ++ rest) ++ more = u :: ts →
      u.IsWord → Plain u.value.toList rest ∧ Stops rest := by
    intro h hword
    obtain ⟨g, hfit, hg, -⟩ := exists_fitsBefore_of_lineTokens hu.isClean_value.ne_nil
      hu.isClean_value.startsInk h
    exact hword.plain_of_token? hfit hg
  constructor
  · intro h
    obtain ⟨g, hfit, hg, hmore⟩ := exists_fitsBefore_of_lineTokens ht.isClean_value.ne_nil
      ht.isClean_value.startsInk h
    rw [lineTokens_isBlank_append _ hgap] at hmore
    refine ⟨?_, hmore⟩
    intro hword
    obtain ⟨hplain, hstop⟩ := hword.plain_of_token? hfit hg
    exact keepsApart_of_plain hplain hstop hu.isClean_value.ne_nil
      (fun huword => (hunext hmore huword).1) hword
  · rintro ⟨happart, h⟩
    obtain ⟨g, hfit, hg⟩ := ht.exists_fitsBefore (gap ++ (u.value.toList ++ rest))
      (fun hunclosed => absurd hunclosed hopen)
      fun hword => plain_of_keepsApart hword hu hgap happart fun huword => (hunext h huword).2
    rw [lineTokens_of_token? hfit hg, lineTokens_isBlank_append _ hgap, List.cons_append, h]

/-- One token more in front: it is read exactly where it keeps apart from the next. -/
theorem tokensFrom_cons_iff {t u : Token} {ts : List Token} {gap s : List Char} (ht : t.Regular)
    (hregular : ∀ v ∈ u :: ts, v.Regular) (hopen : t.IsUnclosed → u.line ≠ t.line)
    (hgap : Neighbours t gap u) (hs : Written Neighbours (u :: ts) s) :
    tokensFrom t.line (t.value.toList ++ gap ++ s) = t :: u :: ts ↔
      KeepsApart t gap u ∧ tokensFrom u.line s = u :: ts := by
  have hclean := ht.isClean_value
  rcases hgap with ⟨hline, hblank, hnewline⟩ | ⟨hline, rfl⟩
  · obtain ⟨rest, behind, rfl, hrow, hbehind⟩ := exists_first_line hs hregular
    have hfirst : tokensFrom t.line
          (t.value.toList ++ gap ++ (u.value.toList ++ rest ++ behind)) =
        lineTokens t.line (t.value.toList ++ (gap ++ (u.value.toList ++ rest))) ++
          tokensFrom (t.line + 1) behind := by
      have hlong := hclean.append hblank hnewline hrow
      rw [← List.append_assoc, tokensFrom_append t.line hlong hbehind, List.append_assoc]
    have hunclosed : ¬t.IsUnclosed := fun h => hopen h hline
    rw [hfirst, tokensFrom_append u.line hrow hbehind, hline]
    exact lineTokens_append_eq_cons_iff ht (hregular u (by simp)) hunclosed hblank
  · have happart : KeepsApart t ['\n'] u := fun _ _ => by simp
    have hfirst : tokensFrom t.line (t.value.toList ++ ['\n'] ++ s) = t :: tokensFrom u.line s := by
      rw [List.append_assoc, tokensFrom_append _ hclean (by simp), lineTokens_value ht, hline]
      exact congrArg _ (tokensFrom_newline _ s)
    rw [hfirst, List.cons_inj_right, and_iff_right happart]

theorem tokensFrom_of_written {t : Token} {ts : List Token} {s : List Char}
    (h : Written SafeNeighbours (t :: ts) s) (hregular : ∀ u ∈ t :: ts, u.Regular)
    (hopen : (t :: ts).Pairwise fun t u => t.IsUnclosed → u.line ≠ t.line) :
    tokensFrom t.line s = t :: ts := by
  induction ts generalizing t s with
  | nil =>
    cases h
    have ht := hregular t (by simp)
    rw [tokensFrom_of_isClean t.line ht.isClean_value, lineTokens_value ht]
  | cons u ts ih =>
    obtain ⟨ht, hrest⟩ := List.forall_mem_cons.mp hregular
    obtain ⟨hnext, hopen⟩ := List.pairwise_cons.mp hopen
    cases h with
    | cons hgap hs =>
      exact (tokensFrom_cons_iff ht hrest (hnext u (by simp)) hgap.1
        (hs.mono fun _ _ _ h => h.1)).mpr ⟨hgap.2, ih hs hrest hopen⟩

theorem written_of_tokensFrom {t : Token} {ts : List Token} {s : List Char}
    (h : Written Neighbours (t :: ts) s) (hregular : ∀ u ∈ t :: ts, u.Regular)
    (hopen : (t :: ts).Pairwise fun t u => t.IsUnclosed → u.line ≠ t.line)
    (hread : tokensFrom t.line s = t :: ts) : Written SafeNeighbours (t :: ts) s := by
  induction ts generalizing t s with
  | nil =>
    cases h
    exact .single t
  | cons u ts ih =>
    obtain ⟨ht, hrest⟩ := List.forall_mem_cons.mp hregular
    obtain ⟨hnext, hopen⟩ := List.pairwise_cons.mp hopen
    cases h with
    | cons hgap hs =>
      obtain ⟨happart, hread⟩ :=
        (tokensFrom_cons_iff ht hrest (hnext u (by simp)) hgap hs).mp hread
      exact .cons ⟨hgap, happart⟩ (ih hs hrest hopen hread)

theorem isChain_line_tokenize (source : String) :
    (tokenize source).IsChain fun t u => u.line = t.line ∨ u.line = t.line + 1 := by
  rw [List.isChain_iff_forall_rel_of_append_cons_cons]
  intro t u before after hsplit
  have hpair := pairwise_line_tokenize source
  rw [hsplit, List.pairwise_append, List.pairwise_cons, List.pairwise_cons] at hpair
  obtain ⟨-, ⟨ht, hu, -⟩, hbefore⟩ := hpair
  have hle : t.line ≤ u.line := ht u (by simp)
  by_contra hskip
  -- Line `t.line + 1` is one of the lines of the source, but no token can stand on it.
  have hlast : u.line ∈ (tokenize source).map Token.line :=
    List.mem_map_of_mem (by simp [hsplit])
  have hmem : t.line + 1 ∈ (tokenize source).map Token.line := by
    rw [mem_map_line_tokenize] at hlast ⊢
    omega
  obtain ⟨v, hv, hline⟩ := List.mem_map.mp hmem
  rw [hsplit] at hv
  rcases List.mem_append.mp hv with hv | hv
  · have := hbefore v hv t (by simp)
    omega
  · rcases List.mem_cons.mp hv with rfl | hv
    · omega
    · rcases List.mem_cons.mp hv with rfl | hv
      · omega
      · have := hu v hv
        omega

theorem line_eq_one_of_head? {source : String} {t : Token} (h : t ∈ (tokenize source).head?) :
    t.line = 1 := by
  obtain ⟨ts, hts⟩ := List.head?_eq_some_iff.mp h
  have hpair := pairwise_line_tokenize source
  rw [hts, List.pairwise_cons] at hpair
  have hlines : ∀ k, k ∈ (tokenize source).map Token.line ↔
      1 ≤ k ∧ k ≤ (cleanLines source).length := fun k => mem_map_line_tokenize
  rw [hts] at hlines
  obtain ⟨hpos, hle⟩ := (hlines t.line).mp (by simp)
  obtain ⟨v, hv, hline⟩ := List.mem_map.mp ((hlines 1).mpr (by omega))
  rcases List.mem_cons.mp hv with rfl | hv
  · exact hline
  · have := hpair.1 v hv
    omega

theorem wellFormed_tokenize (source : String) : WellFormed (tokenize source) where
  regular _ h := regular_of_mem_tokenize h
  unclosed_last := pairwise_line_ne_of_isUnclosed source
  line_head := fun _ ht => line_eq_one_of_head? ht
  line_next := isChain_line_tokenize source

/-- A well-formed list is read back from every layout in which its words keep apart, and from no
other layout. The tokens of any source are such a list. -/
theorem tokenize_layout :
    (∀ ts text, WellFormed ts → Written SafeNeighbours ts text.toList → tokenize text = ts) ∧
      (∀ ts text, WellFormed ts → Written Neighbours ts text.toList → tokenize text = ts →
        Written SafeNeighbours ts text.toList) ∧
      ∀ source, WellFormed (tokenize source) := by
  refine ⟨?_, ?_, wellFormed_tokenize⟩
  · intro ts text hts h
    rw [tokenize_eq_tokensFrom]
    cases ts with
    | nil => rw [h.eq_nil, tokensFrom_nil]
    | cons t ts =>
      rw [← hts.line_head t (by simp)]
      exact tokensFrom_of_written h hts.regular hts.unclosed_last
  · intro ts text hts h hread
    rw [tokenize_eq_tokensFrom] at hread
    cases ts with
    | nil =>
      rw [h.eq_nil]
      exact .nil
    | cons t ts =>
      rw [← hts.line_head t (by simp)] at hread
      exact written_of_tokensFrom h hts.regular hts.unclosed_last hread

/-- Two spaces where one would make a phrase, and an open quote on a line of its own. -/
theorem tokenize_layout_two_spaces :
    WellFormed [⟨"x.CODE", .symbol, 1⟩, ⟨"ENDS", .symbol, 1⟩, ⟨"'", .symbol, 2⟩] ∧
      tokenize "x.CODE  ENDS\n'" =
        [⟨"x.CODE", .symbol, 1⟩, ⟨"ENDS", .symbol, 1⟩, ⟨"'", .symbol, 2⟩] := by
  have hwell : WellFormed
      [⟨"x.CODE", .symbol, 1⟩, ⟨"ENDS", .symbol, 1⟩, ⟨"'", .symbol, 2⟩] := by
    have hlines : cleanLines "x.CODE\tENDS ;\n ' " = [⟨1, "x.CODE\tENDS"⟩, ⟨2, "'"⟩] := by decide
    have hfirst : lineTokens 1 "x.CODE\tENDS".toList = _ := lineTokens_of_fit 1
      [.word "x.CODE".toList, .blank '\t', .word "ENDS".toList] (by decide) (by decide)
    have hsecond : lineTokens 2 "'".toList = _ :=
      lineTokens_of_fit 2 [.unclosed '\'' []] (by decide) (by decide)
    have hread : tokenize "x.CODE\tENDS ;\n ' " =
        [⟨"x.CODE", .symbol, 1⟩, ⟨"ENDS", .symbol, 1⟩, ⟨"'", .symbol, 2⟩] := by
      rw [tokenize_eq_flatMap_lineTokens, hlines]
      simp only [List.flatMap_cons, List.flatMap_nil, hfirst, hsecond]
      decide
    exact hread ▸ wellFormed_tokenize _
  have hlayout : Written SafeNeighbours
      [⟨"x.CODE", .symbol, 1⟩, ⟨"ENDS", .symbol, 1⟩, ⟨"'", .symbol, 2⟩]
      ("x.CODE".toList ++ [' ', ' '] ++ ("ENDS".toList ++ ['\n'] ++ "'".toList)) := by
    refine .cons ⟨.inl ⟨rfl, ?_, by decide⟩, fun _ _ => by simp⟩
      (.cons ⟨.inr ⟨rfl, rfl⟩, fun _ _ => by simp⟩ (.single _))
    simpa using (by decide : Text.isWhiteSpace ' ' = true)
  refine ⟨hwell, tokenize_layout.1 _ _ hwell ?_⟩
  have htext : "x.CODE  ENDS\n'".toList =
      "x.CODE".toList ++ [' ', ' '] ++ ("ENDS".toList ++ ['\n'] ++ "'".toList) := by decide
  rw [htext]
  exact hlayout

end Lex8086
