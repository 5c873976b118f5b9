import Lex8086.Classify
import Lex8086.Output
import Lex8086.Text.Bytes
import Lex8086.Text.Split
import Lex8086.Text.WhiteSpace

namespace Lex8086

def isSeparator (c : Char) : Bool := c == ',' || c == ':' || c == '[' || c == ']'

theorem isSeparator_iff {c : Char} :
    isSeparator c ↔ c = ',' ∨ c = ':' ∨ c = '[' ∨ c = ']' := by
  simp [isSeparator, or_assoc]

namespace Scan

/-- Bytes of the line behind this place, the word under way, and the characters ahead. -/
structure State where
  offset : Nat
  word : String
  rest : List Char
deriving DecidableEq

def start (text : String) : State := ⟨0, "", text.toList⟩

/-- Whether a log would take the value as a text or by the way it is shown is not kept apart. -/
def emit (line : Nat) (value : String) (category : Category) : Output :=
  ⟨[⟨value, category, line⟩], [.token line value category]⟩

/-- A word in brackets is a compound operator; any other goes by its text. -/
def wordCategory (word : List Char) : Category :=
  if word.head? == some '[' && word.getLast? == some ']' then .compoundOperator
  else classify (String.ofList word)

/-- The word under way, if anything is left of it without outer white space. -/
def flush (line : Nat) (word : String) : Output :=
  match Text.trim word.toList with
  | [] => ∅
  | c :: cs => emit line (String.ofList (c :: cs)) (wordCategory (c :: cs))

/-- From a quote on: a quoted text up to its second quote, or else all the rest as one word. -/
def readQuoted (line : Nat) (s : State) (quote : Char) (cs : List Char) : Output × State :=
  match Text.splitFirst? quote cs with
  | some (inside, after) =>
    (flush line s.word ++ emit line (String.ofList (quote :: inside ++ [quote])) .strConstant,
      ⟨s.offset + Text.byteLength inside + 2, "", after⟩)
  | none =>
    (flush line s.word, ⟨s.offset + Text.byteLength (quote :: cs), String.ofList (quote :: cs), []⟩)

/-- Reads on at a character `c` with `cs` behind it. A phrase comes first, even in the middle of a
word; then quotes, separators and white space; any other character extends the word. -/
def read (line : Nat) (s : State) (c : Char) (cs : List Char) : Output × State :=
  match phraseAt (c :: cs) with
  | some phrase =>
    (flush line s.word ++ emit line phrase .pseudoInstruction,
      ⟨s.offset + phrase.utf8ByteSize, "", (c :: cs).drop phrase.length⟩)
  | none =>
    if isQuote c then readQuoted line s c cs
    else if isSeparator c then
      (flush line s.word ++ emit line (String.singleton c) .separator, ⟨s.offset + 1, "", cs⟩)
    else if Text.isWhiteSpace c then (flush line s.word, ⟨s.offset + c.utf8Size, "", cs⟩)
    else (∅, ⟨s.offset + c.utf8Size, s.word.push c, cs⟩)

def step (line : Nat) (s : State) : Option (Output × State) :=
  match s.rest with
  | [] => none
  | c :: cs => some (read line s c cs)

theorem length_read_lt (line : Nat) (s : State) (c : Char) (cs : List Char) :
    (read line s c cs).2.rest.length < (c :: cs).length := by
  unfold read
  split
  · next p hp =>
    have := length_pos_of_phraseAt hp
    simp only [List.length_drop, List.length_cons]
    omega
  · split
    · unfold readQuoted
      split
      · next inside after hs =>
        rw [(Text.splitFirst?_eq_some hs).1]
        simp only [List.length_cons, List.length_append]
        omega
      · simp
    · split
      · simp
      · split <;> simp

theorem length_step_lt {line : Nat} {s next : State} {out : Output}
    (h : step line s = some (out, next)) : next.rest.length < s.rest.length := by
  unfold step at h
  split at h
  · simp at h
  · next c cs hr =>
    have hlt := length_read_lt line s c cs
    rw [Option.some.inj h] at hlt
    rw [hr]
    exact hlt

def finish (line : Nat) (s : State) : Output := flush line s.word

def run (line : Nat) (s : State) : Output :=
  match _h : step line s with
  | none => finish line s
  | some (out, next) => out ++ run line next
termination_by s.rest.length
decreasing_by exact length_step_lt _h

theorem run_of_none {line : Nat} {s : State} (h : step line s = none) :
    run line s = finish line s := by
  rw [run]
  split
  · rfl
  · next hs =>
    rw [h] at hs
    cases hs

theorem run_of_step {line : Nat} {s next : State} {out : Output}
    (h : step line s = some (out, next)) : run line s = out ++ run line next := by
  rw [run]
  split
  · next hs =>
    rw [h] at hs
    cases hs
  · next hs =>
    rw [h] at hs
    cases hs
    rfl

end Scan

end Lex8086
