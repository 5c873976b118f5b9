import Lex8086.Analysis

namespace Lex8086

structure Lexer where
  source : String
  tokens : List Token
deriving DecidableEq

namespace Lexer

def ofSource (source : String) : Lexer := ⟨source, []⟩

instance : Inhabited Lexer := ⟨ofSource ""⟩

def analyze (l : Lexer) : Lexer := { l with tokens := tokenize l.source }

end Lexer

end Lex8086
