/-
  Numbers written in decimal digits.
-/
namespace MiniC.Decimal

/-- The number that digits stand for, the highest first. -/
def value (digits : List Char) : Nat := digits.foldl (fun n c => 10 * n + (c.toNat - 48)) 0

/-- The number that a text of one or more digits stands for. -/
def ofDigits? (cs : List Char) : Option Nat :=
  if cs.isEmpty ∨ ¬ cs.all Char.isDigit then none else some (value cs)

/-- The number that digits behind an optional plus sign stand for. -/
def ofChars? : List Char → Option Nat
  | '+' :: cs => ofDigits? cs
  | cs => ofDigits? cs

end MiniC.Decimal
