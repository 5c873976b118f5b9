import Lex8086.Constant
import Lex8086.Text.UpperCase
import Lex8086.Token
import Lex8086.Vocabulary

namespace Lex8086

abbrev Rule := Category × (String → Bool)

/-- The first rule whose test holds decides; a text that passes none is a symbol. -/
def classifyBy (rules : List Rule) (s : String) : Category :=
  match rules.find? fun rule => rule.2 s with
  | some rule => rule.1
  | none => .symbol

/-- Names of the machine are found in any letter case, pseudo-words only as they stand. -/
def rules : List Rule :=
  [(.instruction, fun s => instructions.contains (Text.upperCase s)),
   (.register, fun s => registers.contains (Text.upperCase s)),
   (.typeSpecifier, fun s => typeSpecifiers.contains (Text.upperCase s)),
   (.hexConstant, isHexConstant),
   (.binConstant, isBinConstant),
   (.decConstant, isDecConstant),
   (.strConstant, isStrConstant),
   (.pseudoInstruction, pseudoWords.contains)]

def classify (s : String) : Category := classifyBy rules s

end Lex8086
