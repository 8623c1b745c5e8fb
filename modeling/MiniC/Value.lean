/-
  Typed values: a word together with the type it is used at.
-/
import MiniC.Ty
import MiniC.Word

namespace MiniC

/-- A word and its type. -/
structure Value where
  ty : Ty
  word : Word
  deriving Repr, DecidableEq

namespace Value

/-- A pointer value. -/
def pointer (ty : Ty) (a : Address) : Value := ⟨ty, Word.ofAddress a⟩

/-- What a call gives that returns nothing. -/
def void : Value := ⟨Ty.void, 0⟩

/-- Whether a value counts as true. -/
def isTrue (v : Value) : Bool := v.word ≠ 0

/-- The value as an address. -/
def address (v : Value) : Address := Word.toAddress v.word

/-- The value at another type: a character keeps the low byte, all else keeps the word. -/
def convert (v : Value) (ty : Ty) : Value :=
  ⟨ty, if ty.isChar then Word.signedLowByte v.word else v.word⟩

/-- The text of a value: pointers in hexadecimal or `NULL`, numbers in decimal. -/
def text (v : Value) : String :=
  if v.ty.isPointer then
    if v.word = 0 then "NULL" else Address.text v.address
  else Word.text v.word

end Value

end MiniC
