import Lex8086.Event

namespace Lex8086

@[ext]
structure Output where
  tokens : List Token
  events : List Event
deriving DecidableEq

namespace Output

instance : EmptyCollection Output := ⟨⟨[], []⟩⟩

instance : Append Output := ⟨fun a b => ⟨a.tokens ++ b.tokens, a.events ++ b.events⟩⟩

def concat (outs : List Output) : Output := ⟨outs.flatMap tokens, outs.flatMap events⟩

@[simp] theorem tokens_empty : (∅ : Output).tokens = [] := rfl

@[simp] theorem events_empty : (∅ : Output).events = [] := rfl

@[simp] theorem tokens_append (a b : Output) : (a ++ b).tokens = a.tokens ++ b.tokens := rfl

@[simp] theorem events_append (a b : Output) : (a ++ b).events = a.events ++ b.events := rfl

@[simp] theorem tokens_concat (outs : List Output) :
    (concat outs).tokens = outs.flatMap tokens := rfl

@[simp] theorem events_concat (outs : List Output) :
    (concat outs).events = outs.flatMap events := rfl

@[simp] theorem append_empty (a : Output) : a ++ ∅ = a :=
  Output.ext (List.append_nil a.tokens) (List.append_nil a.events)

theorem append_assoc (a b c : Output) : a ++ b ++ c = a ++ (b ++ c) := by
  ext1
  · exact List.append_assoc a.tokens b.tokens c.tokens
  · exact List.append_assoc a.events b.events c.events

end Output

end Lex8086
