namespace Lex8086.Text

/-- First and last code points of the runs of `White_Space` characters, ascending and apart. -/
def whiteSpaceRuns : List (Nat × Nat) :=
  [(0x0009, 0x000D), (0x0020, 0x0020), (0x0085, 0x0085), (0x00A0, 0x00A0), (0x1680, 0x1680),
   (0x2000, 0x200A), (0x2028, 0x2029), (0x202F, 0x202F), (0x205F, 0x205F), (0x3000, 0x3000)]

def isWhiteSpace (c : Char) : Bool :=
  whiteSpaceRuns.any fun run => run.1 ≤ c.toNat && c.toNat ≤ run.2

def trimStart (s : List Char) : List Char := s.dropWhile isWhiteSpace

def trimEnd (s : List Char) : List Char := (s.reverse.dropWhile isWhiteSpace).reverse

def trim (s : List Char) : List Char := trimEnd (trimStart s)

end Lex8086.Text
