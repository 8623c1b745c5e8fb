/-
  Call frames: which symbol has its storage where.

  Each active call has a frame that binds the symbols of its function to addresses; the globals are
  bound beside the frames and are seen from every call.  A symbol is looked up in the innermost
  frame and then among the globals, so a recursive function has one binding of each local for each
  of its active calls and sees only its own.
-/
import MiniC.Word

namespace MiniC

/-- A variable, by its number in the table of symbols. -/
abbrev SymbolId := Nat

/-- A function, by its number in the table of functions. -/
abbrev FunctionId := Nat

/-- A symbol bound to storage. -/
structure Binding where
  symbol : SymbolId
  address : Address
  size : Nat
  deriving Repr, DecidableEq

/-- The bindings of one call, the latest first. -/
structure Frame where
  function : FunctionId
  name : String
  latest : List Binding
  deriving Repr, DecidableEq

namespace Frame

/-- The bindings in the order in which they were made. -/
def bindings (f : Frame) : List Binding := f.latest.reverse

/-- The address that a symbol was last bound to. -/
def address? (f : Frame) (s : SymbolId) : Option Address :=
  (f.latest.find? fun b => b.symbol = s).map Binding.address

end Frame

/-- The globals, in the order in which they were bound, and the frames of the active calls, the
innermost first. -/
structure Frames where
  globals : List Binding
  calls : List Frame
  deriving Repr, DecidableEq

namespace Frames

/-- No bindings at all. -/
def empty : Frames := ⟨[], []⟩

/-- Open a frame. -/
def push (f : Frames) (function : FunctionId) (name : String) : Frames :=
  { f with calls := ⟨function, name, []⟩ :: f.calls }

/-- Close the innermost frame. -/
def pop (f : Frames) : Option (Frame × Frames) :=
  match f.calls with
  | [] => none
  | frame :: calls => some (frame, { f with calls })

/-- Bind a symbol in the innermost frame, if there is one. -/
def bind? (f : Frames) (symbol : SymbolId) (address : Address) (size : Nat) : Option Frames :=
  match f.calls with
  | [] => none
  | frame :: calls =>
    some { f with calls := { frame with latest := ⟨symbol, address, size⟩ :: frame.latest } :: calls }

/-- Bind a global. -/
def bindGlobal (f : Frames) (symbol : SymbolId) (address : Address) (size : Nat) : Frames :=
  { f with globals := f.globals ++ [⟨symbol, address, size⟩] }

/-- Forget the globals. -/
def dropGlobals (f : Frames) : Frames := { f with globals := [] }

/-- The innermost frame. -/
def current? (f : Frames) : Option Frame := f.calls.head?

/-- The number of active calls. -/
def depth (f : Frames) : Nat := f.calls.length

/-- The address that a global is bound to. -/
def globalAddress? (f : Frames) (s : SymbolId) : Option Address :=
  (f.globals.find? fun b => b.symbol = s).map Binding.address

/-- The address that a symbol has now: in the innermost frame, else as a global. -/
def address? (f : Frames) (s : SymbolId) : Option Address :=
  match f.current?.bind fun frame => frame.address? s with
  | some a => some a
  | none => f.globalAddress? s

/-- All live addresses of a symbol, the outermost call first. -/
def liveAddresses (f : Frames) (s : SymbolId) : List Address :=
  ((f.globals ++ f.calls.reverse.flatMap Frame.bindings).filter fun b => b.symbol = s).map
    Binding.address

end Frames

end MiniC
