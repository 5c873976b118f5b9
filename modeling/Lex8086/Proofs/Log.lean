import Lex8086.Proofs.Lines

namespace Lex8086

def Token.event (t : Token) : Event := .token t.line t.value t.category

/-- One event for each token, in the order of the tokens, and no other event. -/
def Output.Logged (out : Output) : Prop := out.events = out.tokens.map Token.event

namespace Output

theorem logged_empty : (∅ : Output).Logged := rfl

theorem Logged.append {a b : Output} (ha : a.Logged) (hb : b.Logged) : (a ++ b).Logged := by
  rw [Logged, events_append, tokens_append, List.map_append, ha, hb]

theorem logged_concat {outs : List Output} (h : ∀ out ∈ outs, out.Logged) :
    (concat outs).Logged := by
  rw [Logged, events_concat, tokens_concat, List.map_flatMap]
  exact List.flatMap_congr h

end Output

namespace Scan

open Output

theorem logged_emit (line : Nat) (value : String) (category : Category) :
    (emit line value category).Logged := rfl

theorem logged_flush (line : Nat) (word : String) : (flush line word).Logged := by
  unfold flush
  split
  · exact logged_empty
  · exact logged_emit line _ _

theorem logged_given (line : Nat) (g : Segment) : (given line g).Logged := by
  unfold given
  cases g.category? with
  | none => exact logged_empty
  | some category => exact logged_emit line _ category

theorem logged_step {line : Nat} {s next : State} {out : Output}
    (h : step line s = some (out, next)) : out.Logged := by
  obtain ⟨c, cs, -, hround⟩ := round_of_step h
  cases hround with
  | grow => exact logged_empty
  | cut => exact (logged_flush line s.word).append (logged_given line _)
  | fold => exact logged_flush line s.word

/-- What a run gives out is logged: each step's output, and the word left at the end. -/
theorem logged_run (line : Nat) (s : State) : (run line s).Logged := by
  induction s using run.induct line with
  | case1 s hstep =>
    rw [run_of_none hstep]
    exact logged_flush line s.word
  | case2 s out next hstep ih =>
    rw [run_of_step hstep]
    exact (logged_step hstep).append ih

end Scan

theorem logged_lines (source : String) :
    (Output.concat ((cleanLines source).map scanLine)).Logged := by
  apply Output.logged_concat
  intro out hout
  obtain ⟨line, -, rfl⟩ := List.mem_map.mp hout
  exact Scan.logged_run line.number (Scan.start line.text)

/-- The log is one trace event for each token, in order and with its line, value and category, and
then one debug event with the number of tokens and that of the clean lines, which is the line of the
last token. -/
theorem events_analyze (source : String) :
    (analyze source).events = (tokenize source).map Token.event ++
        [.analysisFinished (cleanLines source).length (tokenize source).length] ∧
      (analyze source).events.map Event.level =
        List.replicate (tokenize source).length .trace ++ [.debug] ∧
      (cleanLines source).length = lastLine (tokenize source) := by
  have htokens : tokenize source =
      (Output.concat ((cleanLines source).map scanLine)).tokens := List.append_nil _
  have hevents : (analyze source).events = (tokenize source).map Token.event ++
      [.analysisFinished (cleanLines source).length (tokenize source).length] := by
    rw [htokens, ← logged_lines source]
    rfl
  have hlevel : (tokenize source).map (Event.level ∘ Token.event) =
      List.replicate (tokenize source).length .trace :=
    List.map_const'
  refine ⟨hevents, ?_, (lastLine_tokenize source).symm⟩
  rw [hevents, List.map_append, List.map_map, hlevel]
  rfl

end Lex8086
