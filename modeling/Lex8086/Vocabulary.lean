namespace Lex8086

/-- The names stand in ascending order and in upper case, and a lookup compares as given. -/
def instructions : List String :=
  ["AAA", "AAD", "ADC", "CMP", "DEC", "HLT", "IDIV", "IMUL", "INTO", "JAE", "JC", "JGE", "JNB",
   "JNG", "JNO", "LDS", "LES", "POP", "SCASW", "STC"]

def registers : List String :=
  ["AH", "AL", "AX", "BH", "BL", "BP", "BX", "CH", "CL", "CS", "CX", "DH", "DI", "DL", "DS", "DX",
   "ES", "SI", "SP", "SS"]

def typeSpecifiers : List String := ["BYTE PTR", "WORD PTR"]

def pseudoWords : List String := ["DB", "DD", "DUP", "DW", "EQU", "ORG"]

/-- Pseudo-instructions of two words, the longest first. -/
def phrases : List String :=
  [".STACK SEGMENT", ".CODE SEGMENT", ".DATA SEGMENT", ".STACK ENDS", ".CODE ENDS", ".DATA ENDS"]

def phraseAt (s : List Char) : Option String := phrases.find? fun p => p.toList.isPrefixOf s

theorem mem_phrases_of_phraseAt {s : List Char} {p : String} (h : phraseAt s = some p) :
    p ∈ phrases := List.mem_of_find?_eq_some h

theorem isPrefix_of_phraseAt {s : List Char} {p : String} (h : phraseAt s = some p) :
    p.toList <+: s := by
  have hp := List.find?_some (p := fun p : String => p.toList.isPrefixOf s) h
  exact List.isPrefixOf_iff_prefix.mp hp

theorem length_pos_of_phraseAt {s : List Char} {p : String} (h : phraseAt s = some p) :
    0 < p.length := by
  have hpos : ∀ q ∈ phrases, 0 < q.length := by decide
  exact hpos p (mem_phrases_of_phraseAt h)

end Lex8086
