namespace Lex8086

/-- A grammar reads a text from the front and commits: a choice takes the first side that reads, a
repetition takes all it can, and neither is ever taken back. -/
inductive Grammar where
  | text (s : String)
  | one (is : Char → Bool)
  | oneOrMore (is : Char → Bool)
  | seq (first second : Grammar)
  | choice (first second : Grammar)

namespace Grammar

/-- What a reading leaves, or nothing where the grammar does not read. -/
def read? : Grammar → List Char → Option (List Char)
  | text s, cs => s.toList.isPrefixOf? cs
  | one is, cs => match cs with
    | [] => none
    | c :: rest => if is c then some rest else none
  | oneOrMore is, cs => match cs with
    | [] => none
    | c :: rest => if is c then some (rest.dropWhile is) else none
  | seq first second, cs => (first.read? cs).bind second.read?
  | choice first second, cs => (first.read? cs).or (second.read? cs)

def accepts (g : Grammar) (s : String) : Bool := g.read? s.toList == some []

end Grammar

end Lex8086
