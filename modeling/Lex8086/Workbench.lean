import Lex8086.Lexer
import Lex8086.Report

namespace Lex8086

@[ext] structure Workbench where
  lexer? : String → Option Lexer

/-- Each command names the lexer that it works on, and `copy` also the one that it makes. -/
inductive Command where
  | create (name source : String)
  | createEmpty (name : String)
  | copy (name target : String)
  | source (name : String)
  | analyze (name : String)
  | tokens (name : String)
  | take (name : String)
  | report (name : String)
deriving DecidableEq

inductive Answer where
  | done
  | text (s : String)
  | tokens (ts : List Token)
  | noLexer
deriving DecidableEq

namespace Workbench

def empty : Workbench := ⟨fun _ => none⟩

def put (b : Workbench) (name : String) (l : Lexer) : Workbench :=
  ⟨fun n => if n = name then some l else b.lexer? n⟩

def remove (b : Workbench) (name : String) : Workbench :=
  ⟨fun n => if n = name then none else b.lexer? n⟩

@[simp] theorem lexer?_put (b : Workbench) (name n : String) (l : Lexer) :
    (b.put name l).lexer? n = if n = name then some l else b.lexer? n := rfl

@[simp] theorem lexer?_remove (b : Workbench) (name n : String) :
    (b.remove name).lexer? n = if n = name then none else b.lexer? n := rfl

/-- Acts on the lexer of a name; a free name changes nothing. -/
def on (b : Workbench) (name : String) (act : Lexer → Answer × Workbench) : Answer × Workbench :=
  match b.lexer? name with
  | some l => act l
  | none => (.noLexer, b)

def step (b : Workbench) : Command → Answer × Workbench
  | .create name source => (.done, b.put name (.ofSource source))
  | .createEmpty name => (.done, b.put name default)
  | .copy name target => b.on name fun l => (.done, b.put target l)
  | .source name => b.on name fun l => (.text l.source, b)
  | .analyze name => b.on name fun l => (.tokens l.analyze.tokens, b.put name l.analyze)
  | .tokens name => b.on name fun l => (.tokens l.tokens, b)
  | .take name => b.on name fun l => (.tokens l.tokens, b.remove name)
  | .report name => b.on name fun l => (.text (Report.render name l.tokens), b)

def run (b : Workbench) : List Command → List Answer × Workbench
  | [] => ([], b)
  | c :: cs =>
    let (answer, b) := b.step c
    let (answers, b) := b.run cs
    (answer :: answers, b)

end Workbench

end Lex8086
