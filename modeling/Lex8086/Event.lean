import Lex8086.Token

namespace Lex8086

inductive Level where
  | trace
  | debug
  | warn
deriving DecidableEq

inductive Event where
  | token (line : Nat) (value : String) (category : Category)
  | analysisFinished (lines tokens : Nat)
  | sourceLoaded (path : String) (bytes : Nat)
  | sourceUnreadable (path error : String)
deriving DecidableEq

namespace Event

def level : Event → Level
  | token .. => .trace
  | analysisFinished .. => .debug
  | sourceLoaded .. => .debug
  | sourceUnreadable .. => .warn

def message : Event → String
  | token .. => "token"
  | analysisFinished .. => "analysis finished"
  | sourceLoaded .. => "source loaded"
  | sourceUnreadable .. => "cannot read source"

end Event

end Lex8086
