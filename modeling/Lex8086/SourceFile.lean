import Lex8086.Event

namespace Lex8086

/-- The system's own error. Its text is passed on as it is. -/
structure SystemError where
  notFound : Bool
  text : String
deriving DecidableEq

inductive SourceError where
  | notFound (path : String)
  | unreadable (path : String) (cause : SystemError)
  | invalidUtf8 (path : String)
deriving DecidableEq

namespace SourceError

def path : SourceError → String
  | notFound path => path
  | unreadable path _ => path
  | invalidUtf8 path => path

def cause? : SourceError → Option SystemError
  | unreadable _ cause => some cause
  | _ => none

def message : SourceError → String
  | notFound path => "File '" ++ path ++ "' not found"
  | unreadable path cause => "Error reading file '" ++ path ++ "': " ++ cause.text
  | invalidUtf8 path => "File '" ++ path ++ "' is not valid UTF-8"

end SourceError

/-- Bytes that are no UTF-8 leave no event. A path is a Unicode text; how a path that is none would
be shown is left out. -/
def readSource (path : String) :
    Except SystemError ByteArray → Except SourceError String × List Event
  | .ok bytes => match String.fromUTF8? bytes with
    | some text => (.ok text, [.sourceLoaded path bytes.size])
    | none => (.error (.invalidUtf8 path), [])
  | .error e =>
    (.error (if e.notFound then .notFound path else .unreadable path e),
      [.sourceUnreadable path e.text])

end Lex8086
