/-
  Constant expressions: the value of code that reads no memory and calls nothing.

  An operand that a short-circuiting operator skips need not be constant.  Where the exact result
  does not fit a word, or something is divided by zero, there is no constant.
-/
import MiniC.Code

namespace MiniC

/-- The value of a constant expression. -/
def Expr.constant? : Expr → Option Word
  | .mk (.const value) _ _ => some value
  | .mk (.unary op operand) _ _ => operand.constant?.bind op.apply
  | .mk (.binary op left right) _ _ =>
    left.constant?.bind fun l =>
      match op.shortcut l with
      | some w => some w
      | none => right.constant?.bind fun r => op.apply l r
  | _ => none

end MiniC
