/-
  Operators on words.

  `BinaryOp.apply` is the arithmetic that the constant folder and the running program share: it is
  exact, and gives no result where the exact one does not fit a word or a divisor is zero.  Division
  goes toward zero and the remainder has the sign of the dividend.
-/
import MiniC.Word

namespace MiniC

/-- The binary operators. -/
inductive BinaryOp where
  | add | sub | mul | div | mod
  | eq | ne | lt | le | gt | ge
  | and | or
  deriving Repr, DecidableEq, Inhabited

/-- The operators on one word. -/
inductive UnaryOp where
  | neg | not
  deriving Repr, DecidableEq, Inhabited

namespace BinaryOp

/-- The spelling of an operator. -/
def symbol : BinaryOp → String
  | add => "+" | sub => "-" | mul => "*" | div => "/" | mod => "%"
  | eq => "==" | ne => "!=" | lt => "<" | le => "<=" | gt => ">" | ge => ">="
  | and => "&&" | or => "||"

/-- The operators in the order of their declaration. -/
def all : List BinaryOp := [add, sub, mul, div, mod, eq, ne, lt, le, gt, ge, and, or]

/-- Whether the operator divides. -/
def divides : BinaryOp → Bool
  | div | mod => true
  | _ => false

/-- The result that the left operand alone decides. -/
def shortcut (op : BinaryOp) (l : Word) : Option Word :=
  match op with
  | and => if l = 0 then some 0 else none
  | or => if l = 0 then none else some 1
  | _ => none

/-- The result of an operator on two words, if it fits a word and nothing is divided by zero.  A
remainder needs its quotient to fit as well. -/
def apply (op : BinaryOp) (l r : Word) : Option Word :=
  match op with
  | add => Word.ofInt? (l.toInt + r.toInt)
  | sub => Word.ofInt? (l.toInt - r.toInt)
  | mul => Word.ofInt? (l.toInt * r.toInt)
  | div => if r = 0 then none else Word.ofInt? (l.toInt.tdiv r.toInt)
  | mod =>
    if r = 0 then none
    else (Word.ofInt? (l.toInt.tdiv r.toInt)).bind fun _ => Word.ofInt? (l.toInt.tmod r.toInt)
  | eq => some (Word.ofBool (l = r))
  | ne => some (Word.ofBool (l ≠ r))
  | lt => some (Word.ofBool (l.toInt < r.toInt))
  | le => some (Word.ofBool (l.toInt ≤ r.toInt))
  | gt => some (Word.ofBool (r.toInt < l.toInt))
  | ge => some (Word.ofBool (r.toInt ≤ l.toInt))
  | and => some (Word.ofBool (l ≠ 0 ∧ r ≠ 0))
  | or => some (Word.ofBool (l ≠ 0 ∨ r ≠ 0))

end BinaryOp

/-- The result of an operator on one word, if it fits a word. -/
def UnaryOp.apply (op : UnaryOp) (w : Word) : Option Word :=
  match op with
  | neg => Word.ofInt? (-w.toInt)
  | not => some (Word.ofBool (w = 0))

end MiniC
