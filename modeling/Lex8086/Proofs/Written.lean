import Lex8086.Proofs.Trim
import Lex8086.Token

namespace Lex8086

/-- The tokens one after the other, between any two neighbours a gap that suits them. -/
inductive Written (suits : Token → List Char → Token → Prop) : List Token → List Char → Prop
  | nil : Written suits [] []
  | single (t : Token) : Written suits [t] t.value.toList
  | cons {t u : Token} {ts : List Token} {gap s : List Char} :
    suits t gap u → Written suits (u :: ts) s →
      Written suits (t :: u :: ts) (t.value.toList ++ gap ++ s)

def BlankGap (_ : Token) (gap : List Char) (_ : Token) : Prop := Text.IsBlank gap

theorem Written.mono {suits suits' : Token → List Char → Token → Prop} {ts : List Token}
    {s : List Char} (h : Written suits ts s)
    (himp : ∀ t gap u, suits t gap u → suits' t gap u) : Written suits' ts s := by
  induction h with
  | nil => exact .nil
  | single t => exact .single t
  | cons hgap _ ih => exact .cons (himp _ _ _ hgap) ih

theorem Written.eq_nil {suits : Token → List Char → Token → Prop} {s : List Char}
    (h : Written suits [] s) : s = [] := by
  cases h
  rfl

end Lex8086
