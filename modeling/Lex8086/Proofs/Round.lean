import Lex8086.Analysis
import Lex8086.Proofs.Segment

namespace Lex8086

theorem utf8Size_of_isQuote {c : Char} (h : isQuote c) : c.utf8Size = 1 := by
  rcases isQuote_iff.mp h with rfl | rfl <;> decide

theorem utf8Size_of_isSeparator {c : Char} (h : isSeparator c) : c.utf8Size = 1 := by
  rcases isSeparator_iff.mp h with rfl | rfl | rfl | rfl <;> decide

theorem byteLength_quoted {q : Char} (h : isQuote q) (inside : List Char) :
    Text.byteLength (q :: inside ++ [q]) = Text.byteLength inside + 2 := by
  simp only [List.cons_append, Text.byteLength, Text.byteLength_append, utf8Size_of_isQuote h]
  omega

namespace Scan

def given (line : Nat) (g : Segment) : Output :=
  g.category?.elim ∅ (emit line (String.ofList g.text))

/-- The ways of a round that starts in the state `s`, with `c` and `cs` ahead. -/
inductive Round (line : Nat) (s : State) (c : Char) (cs : List Char) : Output × State → Prop
  | grow : Plain [c] cs →
    Round line s c cs (∅, ⟨s.offset + c.utf8Size, s.word.push c, cs⟩)
  /-- The segment is of any kind that can stand where a word stops. -/
  | cut {g : Segment} {rest : List Char} :
    Stops (c :: cs) → c :: cs = g.text ++ rest → g.FitsBefore rest →
    Round line s c cs
      (flush line s.word ++ given line g, ⟨s.offset + Text.byteLength g.text, "", rest⟩)
  /-- An open quote is kept as the word, and comes out with the end of the line. -/
  | fold : isQuote c → c ∉ cs →
    Round line s c cs
      (flush line s.word, ⟨s.offset + Text.byteLength (c :: cs), String.ofList (c :: cs), []⟩)

theorem round_readQuoted (line : Nat) (s : State) {c : Char} (cs : List Char) (hq : isQuote c) :
    Round line s c cs (readQuoted line s c cs) := by
  have hstop : Stops (c :: cs) := stops_of_not_isWordChar (by simp [isWordChar, hq])
  unfold readQuoted
  split
  · next inside after hsplit =>
    obtain ⟨hcs, hin⟩ := Text.splitFirst?_eq_some hsplit
    have hs : c :: cs = (Segment.quoted c inside).text ++ after := by simp [Segment.text, hcs]
    have hround : Round line s c cs _ := .cut hstop hs ⟨hq, hin⟩
    rwa [Segment.text, byteLength_quoted hq, ← Nat.add_assoc] at hround
  · next hsplit => exact .fold hq (Text.splitFirst?_eq_none hsplit)

theorem round_read (line : Nat) (s : State) (c : Char) (cs : List Char) :
    Round line s c cs (read line s c cs) := by
  unfold read
  split
  · next p hp =>
    obtain ⟨hmem, rest, hs⟩ := phraseAt_eq_some_iff.mp hp
    have hround : Round line s c cs _ := .cut (g := .phrase p) (stops_of_phraseAt hp) hs.symm hmem
    rw [← hs, ← String.length_toList, List.drop_left]
    simpa [given, Segment.category?, Segment.text, Text.byteLength_toList, hs] using hround
  · next hp =>
    split
    · next hq => exact round_readQuoted line s cs hq
    · next hq =>
      split
      · next hsep =>
        have hstop : Stops (c :: cs) := stops_of_not_isWordChar (by simp [isWordChar, hsep])
        have hround : Round line s c cs _ := .cut (g := .separator c) hstop rfl hsep
        simpa [given, Segment.category?, Segment.text, Text.byteLength,
          utf8Size_of_isSeparator hsep] using hround
      · next hsep =>
        split
        · next hws =>
          have hstop : Stops (c :: cs) := stops_of_not_isWordChar (by simp [isWordChar, hws])
          have hround : Round line s c cs _ := .cut (g := .blank c) hstop rfl hws
          simpa [given, Segment.category?, Segment.text, Text.byteLength] using hround
        · next hws =>
          apply Round.grow
          rw [plain_singleton, isWordChar_iff]
          simp [hws, hsep, hq, hp]

theorem round_of_step {line : Nat} {s : State} {r : Output × State} (h : step line s = some r) :
    ∃ c cs, s.rest = c :: cs ∧ Round line s c cs r := by
  unfold step at h
  split at h
  · cases h
  · next c cs hrest =>
    obtain rfl := Option.some.inj h
    exact ⟨c, cs, hrest, round_read line s c cs⟩

theorem tokens_given (line : Nat) (g : Segment) :
    (given line g).tokens = (g.token? line).toList := by
  rw [given, Segment.token?]
  cases g.category? <;> rfl

end Scan

end Lex8086
