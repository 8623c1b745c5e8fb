/-
  Static types.

  A type is a base and a number of stars.  An array of `T` has the type `T*`; that it is an array
  stands beside the type, at its symbol or member.  `Ty.Assignable` says which values may be stored
  where: the same type, any arithmetic type in any other, and any pointer in or out of `void*`.
-/
namespace MiniC

/-- What a type name names. -/
inductive Base where
  | int
  | char
  | void
  | struct (name : String)
  deriving Repr, DecidableEq, Inhabited

/-- A base with a number of pointer indirections. -/
structure Ty where
  base : Base
  stars : Nat
  deriving Repr, DecidableEq, Inhabited

/-- The spelling of a base. -/
def Base.text : Base → String
  | int => "int"
  | char => "char"
  | void => "void"
  | struct name => "struct " ++ name

namespace Ty

def int : Ty := ⟨.int, 0⟩

def char : Ty := ⟨.char, 0⟩

def void : Ty := ⟨.void, 0⟩

def voidPointer : Ty := ⟨.void, 1⟩

/-- The type of a pointer to `t`. -/
def pointer (t : Ty) : Ty := { t with stars := t.stars + 1 }

/-- The type that `t` points to. -/
def pointee (t : Ty) : Option Ty :=
  match t.stars with
  | 0 => none
  | n + 1 => some { t with stars := n }

def isPointer (t : Ty) : Bool := 0 < t.stars

def isVoid (t : Ty) : Bool := t = void

def isVoidPointer (t : Ty) : Bool := t = voidPointer

def isChar (t : Ty) : Bool := t = char

/-- The types that arithmetic is done in. -/
def isArithmetic (t : Ty) : Bool := t = int || t = char

/-- The types whose values are single words. -/
def isScalar (t : Ty) : Bool := t.isPointer || t.isArithmetic

/-- The name of a structure type. -/
def structName? (t : Ty) : Option String :=
  match t with
  | ⟨.struct name, 0⟩ => some name
  | _ => none

/-- The storage of a type that needs no table of structures to know. -/
def fixedSize? (t : Ty) : Option Nat :=
  match t with
  | ⟨_, _ + 1⟩ => some 4
  | ⟨.int, 0⟩ => some 4
  | ⟨.char, 0⟩ => some 1
  | _ => none

/-- The bytes that one access to a scalar of type `t` touches. -/
def accessWidth (t : Ty) : Nat := if t.isChar then 1 else 4

/-- The spelling of a type: its base and then its stars. -/
def text (t : Ty) : String := t.base.text ++ String.ofList (List.replicate t.stars '*')

/-- Whether a value of type `src` may be stored in a place of type `dst`. -/
def assignable (dst src : Ty) : Bool :=
  dst = src || (dst.isArithmetic && src.isArithmetic)
    || (dst.isPointer && src.isPointer && (dst.isVoidPointer || src.isVoidPointer))

@[simp] theorem pointee_pointer (t : Ty) : t.pointer.pointee = some t := rfl

@[simp] theorem isPointer_pointer (t : Ty) : t.pointer.isPointer = true := by
  simp [isPointer, pointer]

end Ty

end MiniC
