/-
  Machine words and addresses.

  A word is a signed 32-bit number and an address an unsigned one; the two share their bits.
  Arithmetic on words is done over the unbounded integers and then fitted into a word by
  `Word.ofInt?`, which refuses what does not fit.  A word is stored as four bytes, the lowest
  first (`Word.bytes`, `Word.ofBytes`).
-/
import MiniC.Text.Decimal

namespace MiniC

/-- A signed 32-bit machine word. -/
abbrev Word := Int32

/-- An unsigned 32-bit machine address. -/
abbrev Address := UInt32

namespace Word

/-- The word of value `x`, if there is one. -/
def ofInt? (x : Int) : Option Word :=
  if -2147483648 ≤ x ∧ x ≤ 2147483647 then some (Int32.ofInt x) else none

/-- The word 1 for true and 0 for false. -/
def ofBool (b : Bool) : Word := if b then 1 else 0

/-- The low byte of a word, read as a signed number. -/
def signedLowByte (w : Word) : Word := w.toInt8.toInt32

/-- The low byte of a word. -/
def lowByte (w : Word) : UInt8 := UInt8.ofNat w.toUInt32.toNat

/-- A byte read as a signed number. -/
def ofSignedByte (b : UInt8) : Word := b.toInt8.toInt32

/-- A byte read as an unsigned number. -/
def ofByte (b : UInt8) : Word := Int32.ofNat b.toNat

/-- The four bytes of a word, lowest first. -/
def bytes (w : Word) : List UInt8 :=
  let n := w.toUInt32.toNat
  [UInt8.ofNat n, UInt8.ofNat (n / 256), UInt8.ofNat (n / 65536), UInt8.ofNat (n / 16777216)]

/-- The word stored as four bytes, lowest first. -/
def ofBytes (b₀ b₁ b₂ b₃ : UInt8) : Word :=
  (UInt32.ofNat
    (b₀.toNat + 256 * b₁.toNat + 65536 * b₂.toNat + 16777216 * b₃.toNat)).toInt32

/-- The word with the bits of an address. -/
def ofAddress (a : Address) : Word := a.toInt32

/-- The address with the bits of a word. -/
def toAddress (w : Word) : Address := w.toUInt32

/-- The decimal text of a word. -/
def text (w : Word) : String := toString w.toInt

end Word

namespace Address

/-- An address as a signed 64-bit number, in which distances between addresses are computed. -/
def wide (a : Address) : Int64 := Int64.ofNat a.toNat

/-- The address `n`, if it is one. -/
def ofInt? (n : Int) : Option Address :=
  if 0 ≤ n ∧ n < 4294967296 then some (UInt32.ofNat n.toNat) else none

/-- The text of an address: eight hexadecimal digits. -/
def text (a : Address) : String :=
  let digits := Nat.toDigits 16 a.toNat
  "0x" ++ String.ofList (List.replicate (8 - digits.length) '0' ++ digits)

end Address

/-- The decimal text of an integer literal: an optional sign and digits, within a word. -/
def Word.ofText? (text : String) : Option Word :=
  match text.toList with
  | '-' :: cs => (Decimal.ofDigits? cs).bind fun n => ofInt? (-(n : Int))
  | cs => (Decimal.ofChars? cs).bind fun n => ofInt? n

end MiniC
