/-
  Positions in a source text.

  A location counts characters (not bytes) from the start of the text, and keeps the line and the
  column beside the count.  `Location.advance` moves past one character; `Location.advanceAll`
  moves past a run of them, one after the other.  `Located` pairs a cause with the place where it
  was found, which is the shape of every fault that a reader of the text can act on.
-/
namespace MiniC

/-- A position in a source text: characters before it, line and column, the last two from 1. -/
structure Location where
  offset : Nat
  line : Nat
  column : Nat
  deriving Repr, DecidableEq, Inhabited

namespace Location

/-- The first position of a text. -/
def start : Location := ⟨0, 1, 1⟩

/-- The position of things that no source text holds, such as the builtin functions. -/
def nowhere : Location := ⟨0, 0, 0⟩

/-- The position after the character `c`: a newline opens the next line. -/
def advance (l : Location) (c : Char) : Location :=
  if c = '\n' then ⟨l.offset + 1, l.line + 1, 1⟩ else ⟨l.offset + 1, l.line, l.column + 1⟩

/-- The position after all of `cs`. -/
def advanceAll (l : Location) (cs : List Char) : Location := cs.foldl advance l

@[simp] theorem advanceAll_nil (l : Location) : l.advanceAll [] = l := rfl

@[simp] theorem advanceAll_cons (l : Location) (c : Char) (cs : List Char) :
    l.advanceAll (c :: cs) = (l.advance c).advanceAll cs := rfl

theorem advanceAll_append (l : Location) (cs ds : List Char) :
    l.advanceAll (cs ++ ds) = (l.advanceAll cs).advanceAll ds := by
  simp [advanceAll, List.foldl_append]

@[simp] theorem offset_advance (l : Location) (c : Char) :
    (l.advance c).offset = l.offset + 1 := by
  unfold advance; split <;> rfl

/-- The offset counts characters. -/
theorem offset_advanceAll (l : Location) (cs : List Char) :
    (l.advanceAll cs).offset = l.offset + cs.length := by
  induction cs generalizing l with
  | nil => rfl
  | cons c cs ih => rw [advanceAll_cons, ih, offset_advance, List.length_cons]; omega

end Location

/-- A cause together with the place where it was found. -/
structure Located (α : Type) where
  cause : α
  loc : Location
  deriving Repr, DecidableEq

end MiniC
