import Lex8086.Grammar

namespace Lex8086

def isHexDigit (c : Char) : Bool :=
  c.isDigit || ('a' ≤ c && c ≤ 'f') || ('A' ≤ c && c ≤ 'F')

def isBinDigit (c : Char) : Bool := c == '0' || c == '1'

namespace Constant
open Grammar

/-- A leading `0x` commits: a final `h` after it is one character too many. -/
def hex : Grammar :=
  choice (seq (choice (text "0x") (text "0X")) (oneOrMore isHexDigit))
    (seq (oneOrMore isHexDigit) (one fun c => c == 'h' || c == 'H'))

def bin : Grammar := seq (oneOrMore isBinDigit) (one fun c => c == 'b' || c == 'B')

def dec : Grammar := oneOrMore Char.isDigit

end Constant

def isHexConstant (s : String) : Bool := Constant.hex.accepts s

def isBinConstant (s : String) : Bool := Constant.bin.accepts s

def isDecConstant (s : String) : Bool := Constant.dec.accepts s

def isQuote (c : Char) : Bool := c == '\'' || c == '"'

theorem isQuote_iff {c : Char} : isQuote c ↔ c = '\'' ∨ c = '"' := by simp [isQuote]

/-- A text of at least two characters whose first and last are one and the same quote. -/
def isStrConstant (s : String) : Bool :=
  match s.toList with
  | [] => false
  | c :: rest => isQuote c && rest.getLast? == some c

end Lex8086
