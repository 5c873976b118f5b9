import Lex8086.Token

namespace Lex8086.Report

structure Row where
  ordinal : String
  value : String
  type : String
  line : String
deriving DecidableEq

structure Widths where
  ordinal : Nat
  value : Nat
  type : Nat
  line : Nat
deriving DecidableEq

def heading : Row := ⟨"#", "Value", "Type", "Line"⟩

def Row.ofToken (ordinal : Nat) (t : Token) : Row :=
  ⟨toString ordinal, t.value, t.category.tag, toString t.line⟩

def rows (tokens : List Token) : List Row := (tokens.zipIdx 1).map fun t => .ofToken t.2 t.1

/-- The width of the widest cell of a column, counted in characters. -/
def widest (cell : Row → String) (rows : List Row) : Nat :=
  (rows.map fun row => (cell row).length).foldr max 0

def widths (rows : List Row) : Widths :=
  ⟨widest Row.ordinal rows, widest Row.value rows, widest Row.type rows, widest Row.line rows⟩

def alignLeft (width : Nat) (s : String) : String := String.ofList (s.toList.rightpad width ' ')

def alignRight (width : Nat) (s : String) : String := String.ofList (s.toList.leftpad width ' ')

def dashes (width : Nat) : String := String.ofList (List.replicate width '-')

/-- Numbers stand at the right of their columns and words at the left. -/
def rowLine (w : Widths) (row : Row) : String :=
  "| " ++ alignRight w.ordinal row.ordinal ++ " | " ++ alignLeft w.value row.value ++ " | " ++
    alignLeft w.type row.type ++ " | " ++ alignRight w.line row.line ++ " |"

def ruleLine (w : Widths) : String :=
  "|-" ++ dashes w.ordinal ++ "-|-" ++ dashes w.value ++ "-|-" ++ dashes w.type ++ "-|-" ++
    dashes w.line ++ "-|"

def lines (title : String) (tokens : List Token) : List String :=
  let w := widths (heading :: rows tokens)
  [title, rowLine w heading, ruleLine w] ++ (rows tokens).map (rowLine w) ++
    ["", "Total tokens found: " ++ toString tokens.length]

/-- A column may be of any width. A printer that holds widths in 16 bits gives the same report as
long as no cell has more than 65,535 characters. -/
def render (title : String) (tokens : List Token) : String :=
  String.join ((lines title tokens).map (· ++ "\n"))

end Lex8086.Report
