namespace Lex8086

inductive Category where
  | instruction
  | register
  | typeSpecifier
  | hexConstant
  | binConstant
  | decConstant
  | strConstant
  | pseudoInstruction
  | symbol
  | separator
  | compoundOperator
deriving DecidableEq

namespace Category

def all : List Category :=
  [instruction, register, typeSpecifier, hexConstant, binConstant, decConstant, strConstant,
   pseudoInstruction, symbol, separator, compoundOperator]

/-- The name of a category in reports and in the log. -/
def tag : Category → String
  | instruction => "INSTRUCTION"
  | register => "REGISTER"
  | typeSpecifier => "TYPE_SPECIFIER"
  | hexConstant => "HEX_CONSTANT"
  | binConstant => "BIN_CONSTANT"
  | decConstant => "DEC_CONSTANT"
  | strConstant => "STR_CONSTANT"
  | pseudoInstruction => "PSEUDO_INSTRUCTION"
  | symbol => "SYMBOL"
  | separator => "SEPARATOR"
  | compoundOperator => "COMPOUND_OPERATOR"

def ofTag? (tag : String) : Option Category := all.find? (·.tag == tag)

end Category

structure Token where
  value : String
  category : Category
  line : Nat
deriving DecidableEq

end Lex8086
