import Lex8086.Background
import Lex8086.Report
import Lex8086.SourceFile

namespace Lex8086

structure Outcome where
  exitCode : Nat
  output : String
  errors : String
deriving DecidableEq

namespace CommandLine

def sampleProgram : String :=
"
    .DATA SEGMENT
        msg DB 'Hello, World!', 10, 13, '$'
        num DW 123
    .DATA ENDS

    .CODE SEGMENT
    START:
        MOV AX, @DATA
        MOV DS, AX

        LEA DX, msg
        MOV AH, 09h
        INT 21h

        MOV AH, 4Ch
        INT 21h
    .CODE ENDS
    END START
"

def failure (message : String) : Outcome := ⟨1, "", "Error: " ++ message ++ "\n"⟩

def report (worker : Worker (List Token)) (title source : String) : Outcome :=
  match analyzeInBackground worker source with
  | .ok tokens => ⟨0, Report.render title tokens, ""⟩
  | .error e => failure e.message

/-- Only the first argument counts, and it is a path whatever it looks like. Arguments that are no
Unicode texts are left out. The log is off, so no event is printed. -/
def runOn (worker : Worker (List Token)) (read : String → Except SystemError ByteArray) :
    List String → Outcome
  | [] => report worker "Demo: Lexical Analysis Results" sampleProgram
  | path :: _ => match (readSource path (read path)).1 with
    | .ok source => report worker ("Lexical Analysis Results for " ++ path) source
    | .error e => failure e.message

/-- The program waits for no one else: it does the work itself. -/
def run : (String → Except SystemError ByteArray) → List String → Outcome := runOn Worker.inPlace

end CommandLine

end Lex8086
