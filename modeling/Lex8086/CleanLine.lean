import Lex8086.Text.WhiteSpace

namespace Lex8086

/-- A text with its place, from 1, among the lines that are left. -/
structure CleanLine where
  number : Nat
  text : String
deriving DecidableEq

/-- A comment runs from the first semicolon, inside quotes too, to the end of the line. -/
def dropComment (s : List Char) : List Char := s.takeWhile (· != ';')

/-- The texts of the clean lines. Only a line feed ends a line. -/
def cleanTexts (source : String) : List (List Char) :=
  ((source.toList.splitOn '\n').map fun piece => Text.trim (dropComment piece)).filter (· ≠ [])

def cleanLines (source : String) : List CleanLine :=
  ((cleanTexts source).zipIdx 1).map fun line => ⟨line.2, String.ofList line.1⟩

end Lex8086
