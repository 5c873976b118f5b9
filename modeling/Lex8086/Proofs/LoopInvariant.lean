import Lex8086.Proofs.ByteCursor
import Lex8086.Proofs.LongestMatch

namespace Lex8086.Scan

theorem Invariant.of_reached {line n : Nat} {text : String} {s : State}
    (hink : Text.EndsInk text.toList) (h : Reached line text n s) : Invariant s := by
  induction h with
  | start => exact invariant_start hink
  | step _ hstep ih => exact (invariant_step ih hstep).1

end Lex8086.Scan
