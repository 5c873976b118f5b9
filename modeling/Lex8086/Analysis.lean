import Lex8086.CleanLine
import Lex8086.Scan

namespace Lex8086

def scanLine (line : CleanLine) : Output := Scan.run line.number (Scan.start line.text)

/-- Nothing fails: a text of no known kind is a symbol. -/
def analyze (source : String) : Output :=
  let lines := cleanLines source
  let out := Output.concat (lines.map scanLine)
  out ++ ⟨[], [.analysisFinished lines.length out.tokens.length]⟩

def tokenize (source : String) : List Token := (analyze source).tokens

end Lex8086
