import Lex8086.CommandLine

namespace Lex8086

def systemError : IO.Error → SystemError
  | .noFileOrDirectory _ code details => ⟨true, numbered code details⟩
  | .permissionDenied _ code details
  | .inappropriateType _ code details
  | .invalidArgument _ code details
  | .resourceExhausted _ code details
  | .otherError code details
  | .hardwareFault code details => ⟨false, numbered code details⟩
  | e => ⟨false, e.toString⟩
where
  numbered (code : UInt32) (details : String) : String :=
    details ++ " (os error " ++ toString code ++ ")"

def readBytes (path : String) : IO (Except SystemError ByteArray) := do
  try
    let handle ← IO.FS.Handle.mk path .read
    return .ok (← handle.readBinToEnd)
  catch e => return .error (systemError e)

end Lex8086

open Lex8086 in
def main (args : List String) : IO UInt32 := do
  let bytes ← readBytes (args.headD "")
  let outcome := CommandLine.run (fun _ => bytes) args
  IO.print outcome.output
  IO.eprint outcome.errors
  return outcome.exitCode.toUInt32
