/-
  UTF-8 text as bytes.

  `Utf8.encode` writes a text as bytes.  `Utf8.decode` reads bytes back and never fails: every
  longest run of bytes that begins a character but cannot be completed, and every byte that begins
  none, is read as one replacement character U+FFFD.  The reader is an automaton that takes one
  byte at a time; its state is the character begun so far.
-/
namespace MiniC.Utf8

/-- The character that stands for bytes that are no UTF-8. -/
def replacement : Char := '\uFFFD'

/-- The bytes of a text. -/
def encode (text : String) : List UInt8 := text.toList.flatMap String.utf8EncodeChar

/-- A character begun: the range that the next byte must be in, how many bytes follow that one,
and the bits read so far. -/
structure Begun where
  low : Nat
  high : Nat
  more : Nat
  code : Nat
  deriving Repr, DecidableEq

/-- What the byte `b` is where a character may begin: a whole character, the beginning of a longer
one, or neither. -/
def first (b : Nat) : List Char × Option Begun :=
  if b < 0x80 then ([Char.ofNat b], none)
  else if b < 0xC2 then ([replacement], none)
  else if b < 0xE0 then ([], some ⟨0x80, 0xBF, 0, b - 0xC0⟩)
  else if b = 0xE0 then ([], some ⟨0xA0, 0xBF, 1, 0⟩)
  else if b = 0xED then ([], some ⟨0x80, 0x9F, 1, 0xD⟩)
  else if b < 0xF0 then ([], some ⟨0x80, 0xBF, 1, b - 0xE0⟩)
  else if b = 0xF0 then ([], some ⟨0x90, 0xBF, 2, 0⟩)
  else if b < 0xF4 then ([], some ⟨0x80, 0xBF, 2, b - 0xF0⟩)
  else if b = 0xF4 then ([], some ⟨0x80, 0x8F, 2, 4⟩)
  else ([replacement], none)

/-- One byte of the automaton: the characters that it completes and the next state. -/
def next (state : Option Begun) (b : Nat) : List Char × Option Begun :=
  match state with
  | none => first b
  | some s =>
    if s.low ≤ b ∧ b ≤ s.high then
      let code := s.code * 64 + (b - 0x80)
      match s.more with
      | 0 => ([Char.ofNat code], none)
      | more + 1 => ([], some ⟨0x80, 0xBF, more, code⟩)
    else
      let (cs, state') := first b
      (replacement :: cs, state')

/-- The characters of the bytes that follow `state`. -/
def decodeFrom (state : Option Begun) : List UInt8 → List Char
  | [] => if state.isSome then [replacement] else []
  | b :: bs =>
    let (cs, state') := next state b.toNat
    cs ++ decodeFrom state' bs

/-- The text that the bytes spell, with U+FFFD where they spell none. -/
def decode (bytes : List UInt8) : String := String.ofList (decodeFrom none bytes)

end MiniC.Utf8
