import Lex8086.Proofs.Lossless
import Lex8086.Proofs.TokenKind

namespace Lex8086

open Segment

/-- A token with the place of its first character. -/
@[ext] structure Span where
  start : Nat
  token : Token
deriving DecidableEq

namespace Span

def stop (a : Span) : Nat := a.start + a.token.value.length

def Covers (a : Span) (p : Nat) : Prop := a.start ≤ p ∧ p < a.stop

instance (a : Span) (p : Nat) : Decidable (a.Covers p) :=
  inferInstanceAs (Decidable (a.start ≤ p ∧ p < a.stop))

end Span

/-- The tokens stand in this order in a text that begins at place `n`, and all around them is white
space. -/
def Laid : Nat → List Char → List Span → Prop
  | _, s, [] => Text.IsBlank s
  | n, s, a :: spans => ∃ gap rest, s = gap ++ a.token.value.toList ++ rest ∧ Text.IsBlank gap ∧
      a.start = n + gap.length ∧ Laid a.stop rest spans

theorem Laid.blank_cons {n : Nat} {c : Char} {s : List Char} {spans : List Span}
    (hc : Text.isWhiteSpace c) (h : Laid (n + 1) s spans) : Laid n (c :: s) spans := by
  cases spans with
  | nil => exact Text.isBlank_cons.mpr ⟨hc, h⟩
  | cons a spans =>
    obtain ⟨gap, rest, rfl, hgap, hstart, hrest⟩ := h
    refine ⟨c :: gap, rest, rfl, Text.isBlank_cons.mpr ⟨hc, hgap⟩, ?_, hrest⟩
    rw [hstart, List.length_cons]
    omega

theorem Laid.le_start {n : Nat} {s : List Char} {spans : List Span} (h : Laid n s spans) :
    ∀ a ∈ spans, n ≤ a.start := by
  induction spans generalizing n s with
  | nil => simp
  | cons a spans ih =>
    obtain ⟨gap, rest, -, -, hstart, hrest⟩ := h
    intro b hb
    rcases List.mem_cons.mp hb with rfl | hb
    · omega
    · have hle := ih hrest b hb
      rw [Span.stop] at hle
      omega

theorem Laid.pairwise {n : Nat} {s : List Char} {spans : List Span} (h : Laid n s spans) :
    spans.Pairwise fun a b => a.stop ≤ b.start := by
  induction spans generalizing n s with
  | nil => exact .nil
  | cons a spans ih =>
    obtain ⟨gap, rest, -, -, -, hrest⟩ := h
    exact List.pairwise_cons.mpr ⟨hrest.le_start, ih hrest⟩

theorem Laid.not_covers {n : Nat} {s : List Char} {spans : List Span} (h : Laid n s spans)
    {a b : Span} (ha : a ∈ spans) (hb : b ∈ spans) (hne : b.token.value.toList ≠ []) (hab : a ≠ b) :
    ¬a.Covers b.start := by
  have happart : a = b ∨ a.stop ≤ b.start ∨ b.stop ≤ a.start :=
    List.Pairwise.forall_of_forall_of_flip
      (R := fun a b => a = b ∨ a.stop ≤ b.start ∨ b.stop ≤ a.start) (fun _ _ => .inl rfl)
      (h.pairwise.imp fun hle => .inr (.inl hle)) (h.pairwise.imp fun hle => .inr (.inr hle)) ha hb
  have hlength : 0 < b.token.value.length := by
    rw [← String.length_toList]
    exact List.length_pos_iff.mpr hne
  have hstop : b.start < b.stop := Nat.lt_add_of_pos_right hlength
  rintro ⟨hstart, hlt⟩
  rcases happart with rfl | hle | hle
  · exact hab rfl
  · omega
  · omega

/-- Tokens without outer white space can be laid in one way only. -/
theorem Laid.eq_of_map_token_eq {n : Nat} {s : List Char} {spans others : List Span}
    (h : Laid n s spans) (hothers : Laid n s others)
    (htokens : spans.map Span.token = others.map Span.token)
    (hclean : ∀ a ∈ spans, IsClean a.token.value.toList) : spans = others := by
  induction spans generalizing n s others with
  | nil => exact (List.map_eq_nil_iff.mp htokens.symm).symm
  | cons a spans ih =>
    cases others with
    | nil => simp at htokens
    | cons b others =>
      obtain ⟨gap, rest, rfl, hgap, hstart, hrest⟩ := h
      obtain ⟨gap', rest', hs, hgap', hstart', hrest'⟩ := hothers
      obtain ⟨htoken, htail⟩ := List.cons.inj htokens
      have ha := hclean a (by simp)
      have hink (tail : List Char) : Text.StartsInk (a.token.value.toList ++ tail) :=
        (Text.startsInk_append ha.ne_nil).mpr ha.startsInk
      rw [← htoken, List.append_assoc, List.append_assoc] at hs
      obtain ⟨rfl, hvalue⟩ := Text.blank_append_inj hs hgap hgap' (hink rest) (hink rest')
      obtain rfl : rest = rest' := List.append_cancel_left hvalue
      have hab : a = b := Span.ext (hstart.trans hstart'.symm) htoken
      rw [← hab] at hrest' ⊢
      rw [ih hrest hrest' htail fun c hc => hclean c (List.mem_cons_of_mem a hc)]

def spansFrom (line n : Nat) : List Segment → List Span
  | [] => []
  | g :: gs =>
    ((g.token? line).map (Span.mk n)).toList ++ spansFrom line (n + g.text.length) gs

theorem map_token_spansFrom (line n : Nat) (gs : List Segment) :
    (spansFrom line n gs).map Span.token = gs.filterMap (token? line) := by
  induction gs generalizing n with
  | nil => rfl
  | cons g gs ih =>
    rw [spansFrom, List.map_append, ih, List.filterMap_cons]
    cases g.token? line <;> rfl

theorem spansFrom_append (line n : Nat) (gs hs : List Segment) :
    spansFrom line n (gs ++ hs) =
      spansFrom line n gs ++ spansFrom line (n + (gs.flatMap text).length) hs := by
  induction gs generalizing n with
  | nil => rfl
  | cons g gs ih =>
    rw [List.cons_append, spansFrom, spansFrom, ih, List.append_assoc, List.flatMap_cons,
      List.length_append, Nat.add_assoc]

theorem mem_spansFrom {line n : Nat} {gs : List Segment} {a : Span} :
    a ∈ spansFrom line n gs ↔ ∃ before g after, gs = before ++ g :: after ∧
      g.token? line = some a.token ∧ a.start = n + (before.flatMap text).length := by
  constructor
  · intro ha
    induction gs generalizing n with
    | nil => simp [spansFrom] at ha
    | cons g gs ih =>
      rcases List.mem_append.mp ha with ha | ha
      · obtain ⟨t, ht, rfl⟩ := Option.map_eq_some_iff.mp (Option.mem_toList.mp ha)
        exact ⟨[], g, gs, rfl, ht, rfl⟩
      · obtain ⟨before, h, after, rfl, ht, hstart⟩ := ih ha
        refine ⟨g :: before, h, after, rfl, ht, ?_⟩
        rw [hstart, List.flatMap_cons, List.length_append, Nat.add_assoc]
  · rintro ⟨before, g, after, rfl, ht, hstart⟩
    rw [spansFrom_append, spansFrom, ht, ← hstart]
    simp

theorem laid_spansFrom (line n : Nat) {gs : List Segment} (h : Fit gs) :
    Laid n (gs.flatMap text) (spansFrom line n gs) := by
  induction gs generalizing n with
  | nil => exact Text.isBlank_nil
  | cons g gs ih =>
    obtain ⟨hg, hgs⟩ := h
    have hrest := ih (n + g.text.length) hgs
    rw [List.flatMap_cons, spansFrom]
    cases ht : g.token? line with
    | none =>
      obtain ⟨c, rfl⟩ := eq_blank_of_token?_eq_none ht
      exact hrest.blank_cons hg
    | some t =>
      have hvalue := (eq_of_token? ht).1
      have hlength : t.value.length = g.text.length := by
        rw [← hvalue, String.length_toList]
      refine ⟨[], gs.flatMap text, by simp [hvalue], Text.isBlank_nil, rfl, ?_⟩
      rwa [Span.stop, hlength]

theorem exists_segment_at {gs : List Segment} {p : Nat} (h : p < (gs.flatMap text).length) :
    ∃ before g after i, gs = before ++ g :: after ∧ p = (before.flatMap text).length + i ∧
      i < g.text.length := by
  induction gs generalizing p with
  | nil => simp at h
  | cons g gs ih =>
    rw [List.flatMap_cons, List.length_append] at h
    by_cases hp : p < g.text.length
    · exact ⟨[], g, gs, p, rfl, by simp, hp⟩
    · obtain ⟨before, f, after, i, rfl, hi, hlt⟩ := ih (p := p - g.text.length) (by omega)
      refine ⟨g :: before, f, after, i, rfl, ?_, hlt⟩
      rw [List.flatMap_cons, List.length_append]
      omega

theorem dot_notMem_tail_of_mem_phrases {p : String} (h : p ∈ phrases) : '.' ∉ p.toList.tail := by
  have hall : ∀ p ∈ phrases, '.' ∉ p.toList.tail := by decide
  exact hall p h

/-- Where a phrase starts within a segment, the segment is that phrase, or it is behind a quote. -/
theorem Segment.FitsBefore.of_phraseAt_drop {g : Segment} {rest : List Char} {i : Nat} {p : String}
    (hg : g.FitsBefore rest) (hi : i < g.text.length)
    (h : phraseAt ((g.text ++ rest).drop i) = some p) :
    (i = 0 ∧ g = .phrase p) ∨ ∃ q inside, g = .quoted q inside ∨ g = .unclosed q inside := by
  obtain ⟨cs, hp⟩ := toList_eq_cons_of_mem_phrases (mem_phrases_of_phraseAt h)
  -- The dot in front of the phrase is in the segment, and few segments have one.
  have hdot : g.text[i]? = some '.' := by
    obtain ⟨after, hafter⟩ := isPrefix_of_phraseAt h
    rw [← List.getElem?_append_left hi, ← List.head?_drop, ← hafter, hp]
    rfl
  have hmem : '.' ∈ g.text := List.mem_of_getElem? hdot
  cases g with
  | blank c =>
    obtain rfl : '.' = c := List.mem_singleton.mp hmem
    have hc : Text.isWhiteSpace '.' = true := hg
    exact absurd hc (by decide)
  | phrase q =>
    cases i with
    | zero =>
      have hq : phraseAt (q.toList ++ rest) = some q := phraseAt_append hg rest
      rw [List.drop_zero, text, hq] at h
      exact .inl ⟨rfl, congrArg Segment.phrase (Option.some.inj h)⟩
    | succ j =>
      rw [text, ← List.getElem?_tail] at hdot
      exact absurd (List.mem_of_getElem? hdot) (dot_notMem_tail_of_mem_phrases hg)
  | separator c =>
    obtain rfl : '.' = c := List.mem_singleton.mp hmem
    have hc : isSeparator '.' = true := hg
    exact absurd hc (by decide)
  | quoted q inside => exact .inr ⟨q, inside, .inl rfl⟩
  | unclosed q inside => exact .inr ⟨q, inside, .inr rfl⟩
  | word w =>
    obtain ⟨-, ⟨-, hnone⟩, -⟩ := hg
    rw [text, hnone i hi] at h
    cases h

theorem Segment.FitsBefore.eq_of_text_eq {g h : Segment} {rest : List Char}
    (hg : g.FitsBefore rest) (hh : h.FitsBefore rest) (htext : g.text = h.text) : g = h := by
  obtain ⟨c, cs, hs⟩ := List.exists_cons_of_ne_nil
    (List.append_ne_nil_of_left_ne_nil (text_ne_nil hg) rest)
  have hfirst : first c cs = g := first_eq hg hs.symm
  rw [htext] at hs
  exact hfirst.symm.trans (first_eq hh hs.symm)

/-- A string constant, or an open quote with what is behind it. -/
def Token.IsQuotation (t : Token) : Prop :=
  t.category = .strConstant ∨ t.category = .symbol ∧ t.value.toList.head?.any isQuote

instance (t : Token) : Decidable t.IsQuotation :=
  inferInstanceAs (Decidable
    (t.category = .strConstant ∨ t.category = .symbol ∧ t.value.toList.head?.any isQuote))

theorem isQuotation_of_token? {line : Nat} {g : Segment} {rest inside : List Char} {q : Char}
    {t : Token} (hg : g.FitsBefore rest) (h : g = .quoted q inside ∨ g = .unclosed q inside)
    (ht : g.token? line = some t) : t.IsQuotation := by
  obtain ⟨hvalue, hcat, -⟩ := eq_of_token? ht
  rcases h with rfl | rfl
  · exact .inl (Option.some.inj hcat).symm
  · refine .inr ⟨(Option.some.inj hcat).symm, ?_⟩
    rw [hvalue]
    exact hg.1

/-- A phrase that starts in a cut is a segment of it, unless it starts behind a quote. -/
theorem covered_or_mem_spansFrom (line : Nat) {gs : List Segment} (hfit : Fit gs) {p : Nat}
    {phrase : String} (h : phraseAt ((gs.flatMap text).drop p) = some phrase) :
    (∃ a ∈ spansFrom line 0 gs, a.token.IsQuotation ∧ a.Covers p) ∨
      ⟨p, ⟨phrase, .pseudoInstruction, line⟩⟩ ∈ spansFrom line 0 gs := by
  have hp : p < (gs.flatMap text).length := by
    by_contra hge
    rw [List.drop_eq_nil_of_le (by omega)] at h
    cases h
  obtain ⟨before, g, after, i, rfl, rfl, hi⟩ := exists_segment_at hp
  have hg := fitsBefore_of_fit_append hfit
  rw [List.flatMap_append, List.drop_length_add_append, List.flatMap_cons] at h
  rcases hg.of_phraseAt_drop hi h with ⟨rfl, rfl⟩ | ⟨q, inside, hquote⟩
  · right
    exact mem_spansFrom.mpr ⟨before, _, after, rfl, token?_phrase line phrase, by simp⟩
  · left
    obtain ⟨t, ht⟩ : ∃ t, g.token? line = some t := by
      rcases hquote with rfl | rfl <;> exact ⟨_, rfl⟩
    let a : Span := ⟨(before.flatMap text).length, t⟩
    have ha : a ∈ spansFrom line 0 (before ++ g :: after) :=
      mem_spansFrom.mpr ⟨before, g, after, rfl, ht, (Nat.zero_add _).symm⟩
    refine ⟨a, ha, isQuotation_of_token? hg hquote ht, Nat.le_add_right _ i, ?_⟩
    rw [Span.stop, ← String.length_toList, (eq_of_token? ht).1]
    exact Nat.add_lt_add_left hi _

/-- A token that reads as a phrase stands where that phrase starts. -/
theorem of_mem_spansFrom_of_mem_phrases {line : Nat} {gs : List Segment} (hfit : Fit gs) {a : Span}
    (ha : a ∈ spansFrom line 0 gs) (hp : a.token.value ∈ phrases) :
    a.token.category = .pseudoInstruction ∧
      phraseAt ((gs.flatMap text).drop a.start) = some a.token.value := by
  obtain ⟨before, g, after, rfl, ht, hstart⟩ := mem_spansFrom.mp ha
  have hg := fitsBefore_of_fit_append hfit
  have hphrase : (Segment.phrase a.token.value).FitsBefore (after.flatMap text) := hp
  obtain rfl := hg.eq_of_text_eq hphrase (eq_of_token? ht).1.symm
  refine ⟨(Option.some.inj (eq_of_token? ht).2.1).symm, ?_⟩
  rw [hstart, Nat.zero_add, List.flatMap_append, List.drop_left]
  exact phraseAt_append hp (after.flatMap text)

theorem not_isQuotation_of_category {t : Token} (h : t.category = .pseudoInstruction) :
    ¬t.IsQuotation := by
  rintro (hcat | ⟨hcat, -⟩)
  · simp [h] at hcat
  · simp [h] at hcat

/-- The tokens of a clean line of the source, where they stand in it. -/
def SpansOf (source : String) (line : CleanLine) (spans : List Span) : Prop :=
  Laid 0 line.text.toList spans ∧
    spans.map Span.token = (tokenize source).filter (·.line = line.number)

theorem spansOf_iff {source : String} {line : CleanLine} (h : line ∈ cleanLines source)
    {spans : List Span} : SpansOf source line spans ↔
      spans = spansFrom line.number 0 (segments line.text.toList) := by
  have hlaid := laid_spansFrom line.number 0 (fit_segments line.text.toList)
  rw [flatMap_text_segments] at hlaid
  have htokens : (spansFrom line.number 0 (segments line.text.toList)).map Span.token =
      (tokenize source).filter (·.line = line.number) := by
    rw [map_token_spansFrom, filter_line_tokenize h, lineTokens]
  constructor
  · rintro ⟨hspans, hmap⟩
    refine (hlaid.eq_of_map_token_eq hspans (htokens.trans hmap.symm) ?_).symm
    intro a ha
    have hmem : a.token ∈ (tokenize source).filter (·.line = line.number) :=
      htokens ▸ List.mem_map_of_mem ha
    exact (regular_of_mem_tokenize (List.mem_filter.mp hmem).1).isClean_value
  · rintro rfl
    exact ⟨hlaid, htokens⟩

/-- Each clean line has one place for each of its tokens. A phrase that starts in the line, outside
of string constants and open quotes, is a token in that place, whatever stands around it; and a
token that reads as a phrase stands in such a place, so that none stands within quotes. -/
theorem phrases_have_spans (source : String) : ∀ line ∈ cleanLines source,
    (∃! spans, SpansOf source line spans) ∧ ∀ spans, SpansOf source line spans →
      (spans.Pairwise fun a b => a.stop ≤ b.start) ∧
        (∀ p phrase, phraseAt (line.text.toList.drop p) = some phrase →
          (∀ a ∈ spans, a.token.IsQuotation → ¬a.Covers p) →
            ⟨p, ⟨phrase, .pseudoInstruction, line.number⟩⟩ ∈ spans) ∧
        ∀ a ∈ spans, a.token.value ∈ phrases →
          a.token.category = .pseudoInstruction ∧
            phraseAt (line.text.toList.drop a.start) = some a.token.value ∧
            ∀ b ∈ spans, b.token.IsQuotation → ¬b.Covers a.start := by
  intro line hline
  have hfit := fit_segments line.text.toList
  have htext := flatMap_text_segments line.text.toList
  refine ⟨⟨_, (spansOf_iff hline).mpr rfl, fun spans h => (spansOf_iff hline).mp h⟩, ?_⟩
  intro spans h
  have hlaid := h.1
  obtain rfl := (spansOf_iff hline).mp h
  refine ⟨hlaid.pairwise, ?_, ?_⟩
  · intro p phrase hp hout
    rw [← htext] at hp
    rcases covered_or_mem_spansFrom line.number hfit hp with ⟨a, ha, hquote, hcovers⟩ | hmem
    · exact absurd hcovers (hout a ha hquote)
    · exact hmem
  · intro a ha hp
    obtain ⟨hcat, hat⟩ := of_mem_spansFrom_of_mem_phrases hfit ha hp
    rw [htext] at hat
    refine ⟨hcat, hat, ?_⟩
    intro b hb hquote
    have hne : a.token.value.toList ≠ [] := (isClean_of_mem_phrases hp).ne_nil
    refine hlaid.not_covers hb ha hne ?_
    rintro rfl
    exact not_isQuotation_of_category hcat hquote

/-- A phrase between two letters, and another one in quotes. -/
theorem phrases_have_spans_glued_and_quoted : ∃ line ∈ cleanLines "x.STACK ENDSy'.CODE ENDS'",
    ∃ spans, SpansOf "x.STACK ENDSy'.CODE ENDS'" line spans ∧
      phraseAt (line.text.toList.drop 1) = some ".STACK ENDS" ∧
      ⟨1, ⟨".STACK ENDS", .pseudoInstruction, 1⟩⟩ ∈ spans ∧
      phraseAt (line.text.toList.drop 14) = some ".CODE ENDS" ∧
      ∀ a ∈ spans, a.token.value ∈ phrases → a.start ≠ 14 := by
  have hline : ⟨1, "x.STACK ENDSy'.CODE ENDS'"⟩ ∈ cleanLines "x.STACK ENDSy'.CODE ENDS'" := by
    decide
  have hcut : segments "x.STACK ENDSy'.CODE ENDS'".toList =
      [.word ['x'], .phrase ".STACK ENDS", .word ['y'], .quoted '\'' ".CODE ENDS".toList] :=
    segments_eq_iff.mpr ⟨by decide, by decide⟩
  have hspans := (spansOf_iff hline).mpr rfl
  rw [hcut] at hspans
  obtain ⟨-, hfound, hplaced⟩ := (phrases_have_spans _ _ hline).2 _ hspans
  refine ⟨_, hline, _, hspans, by decide, ?_, by decide, ?_⟩
  · exact hfound 1 ".STACK ENDS" (by decide) (by decide)
  · intro a ha hp hstart
    have hout :=
      (hplaced a ha hp).2.2 ⟨13, ⟨"'.CODE ENDS'", .strConstant, 1⟩⟩ (by decide) (by decide)
    rw [hstart] at hout
    exact absurd hout (by decide)

end Lex8086
