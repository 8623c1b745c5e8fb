/-
  The machine: what a running program reads and changes.

  A run does not change its environment (grammar, configuration, program).  It changes the machine:
  memory, the bindings of frames and globals, the addresses of string literals, the live heap
  blocks, the names of the active calls, the value that a `return` has left, where control goes
  next, the control that is asked before each statement, and the log of all that could be observed.

  A machine also keeps the moments of its runs: each time that something outside is told of an event
  and could look, each refusal of memory to free a region, each heap block that is given out or given
  up, and the state before and after each call with what has become of heap blocks meanwhile.  No run
  looks at them; they say of the states in the middle of a run what the result does not.

  `Run` is the type of everything that happens in a run.  A run that stops keeps the machine as it
  was when it stopped, so that what was opened can still be closed.
-/
import MiniC.Control
import MiniC.Lowering.Context
import MiniC.Memory
import MiniC.Value

namespace MiniC

/-! ## Faults -/

/-- Why a run fails. -/
inductive Fault where
  | memory (e : MemoryError) (loc : Location)
  | nullDereference (loc : Location)
  | divisionByZero (loc : Location)
  | overflow (operator : String) (loc : Location)
  | invalidFree (a : Address) (loc : Location)
  | invalidSize (size : Word) (loc : Location)
  | stackOverflow (limit : Nat) (loc : Location)
  | missingReturn (function : String)
  | noEntryPoint (name : String)
  | argumentCount (function : String) (expected got : Nat)
  | notAnArray (loc : Location)
  | lowering (e : CompileError)
  | unsupportedValue (ty : Ty) (loc : Location)
  | notAddressable (loc : Location)
  | unbound (name : String) (loc : Location)
  | undefinedFunction (name : String)
  deriving Repr, DecidableEq

namespace Fault

/-- The message of a fault. -/
def message : Fault → String
  | memory e _ => e.message
  | nullDereference _ => "null pointer dereference"
  | divisionByZero _ => "division by zero"
  | overflow operator _ => "integer overflow in " ++ quoted operator
  | invalidFree a _ => "free(): " ++ a.text ++ " is not a live heap block"
  | invalidSize size _ => "malloc(): invalid size " ++ size.text
  | stackOverflow limit _ =>
    "stack overflow: call depth limit of " ++ toString limit ++ " exceeded"
  | missingReturn function =>
    "execution of function " ++ quoted function ++ " did not return any value"
  | noEntryPoint name => "entry point " ++ quoted name ++ " is not defined"
  | argumentCount function expected got =>
    "function " ++ quoted function ++ " expects " ++ toString expected ++ " argument(s), got "
      ++ toString got
  | notAnArray _ => "array-assign: destination is not an array"
  | lowering e => e.cause.message
  | unsupportedValue ty _ => "cannot use a value of type " ++ quoted ty.text ++ " here"
  | notAddressable _ => "expression does not designate a memory location"
  | unbound name _ => quoted name ++ " has no storage bound in the current frame"
  | undefinedFunction name => "function " ++ quoted name ++ " has no body"

/-- Where in the source a fault arose. -/
def loc? : Fault → Option Location
  | memory _ loc | nullDereference loc | divisionByZero loc | overflow _ loc | invalidFree _ loc
  | invalidSize _ loc | stackOverflow _ loc | notAnArray loc | unsupportedValue _ loc
  | notAddressable loc | unbound _ loc => some loc
  | lowering e => some e.loc
  | missingReturn _ | noEntryPoint _ | argumentCount .. | undefinedFunction _ => none

end Fault

/-- Why a run stops before its end. -/
inductive Stop where
  | fault (f : Fault)
  /-- The control said so. -/
  | aborted
  /-- The run was given too little fuel to end. -/
  | exhausted
  deriving Repr, DecidableEq

/-! ## Events -/

/-- What can be observed of a run. -/
inductive Event where
  | wrote (a : Address) (w : Word)
  | array (element : Ty) (a : Address) (length : Nat)
  | struct (name : String) (a : Address)
  | highlight (array : Address) (index : Word) (color : Option String)
  | clear (array : Address)
  | enter (function : String) (depth : Nat) (bindings : List Binding) (allocated : Nat)
  | exit (function : String)
  /-- A statement is about to run and the control is asked. -/
  | checkpoint (loc : Location)
  deriving Repr, DecidableEq

/-- Whether an event is meant for a picture of the program's data. -/
def Event.isVisual : Event → Bool
  | wrote .. | checkpoint _ => false
  | _ => true

/-! ## Machines -/

/-- The limits of runs and the function that they start with. -/
structure Config where
  capacity : UInt32
  maxDepth : Nat
  entry : String
  deriving Repr, DecidableEq

/-- One mebibyte, 512 calls deep, starting with `main`. -/
def Config.standard : Config := ⟨1048576, 512, "main"⟩

/-- What a run does not change. -/
structure Env where
  grammar : Grammar
  config : Config
  program : Program

/-- Where control goes next: on, or out of a loop's round, a loop or a function. -/
inductive Flow where
  | normal
  | breaks
  | continues
  | returns
  deriving Repr, DecidableEq

/-- What a run reads and changes. -/
structure State where
  memory : Memory
  frames : Frames
  /-- The addresses of the string literals, by their number. -/
  strings : Array Address
  /-- The heap blocks that are live. -/
  heap : List Address
  /-- The names of the active calls, the innermost first. -/
  callStack : List String
  /-- What the last `return` of the active call has left. -/
  pending : Option Value
  flow : Flow
  control : Control
  /-- What has been observed, the latest first. -/
  log : List Event

/-- What becomes of a heap block: it is given out with its size, or given up. -/
inductive HeapChange where
  | granted (a : Address) (size : Nat)
  | freed (a : Address)
  deriving Repr, DecidableEq

/-- A moment of a run. -/
inductive Moment where
  /-- Something outside is told of an event while the state is `s`. -/
  | told (e : Event) (s : State)
  /-- Memory refuses to free a region that it is asked to free. -/
  | refused (a : Address)
  /-- A heap block is given out or given up. -/
  | changed (change : HeapChange)
  /-- A call ends, whether or not it fails; `meanwhile` are the changes of the heap since it began. -/
  | called (function : FunctionId) (before after : State) (meanwhile : HeapChange → Prop)

/-- A state with the moments that have led to it. -/
structure Machine extends State where
  seen : Moment → Prop

namespace Machine

/-- A machine on which nothing has run. -/
def idle (capacity : UInt32) : Machine where
  memory := .empty capacity
  frames := .empty
  strings := #[]
  heap := []
  callStack := []
  pending := none
  flow := .normal
  control := .unlimited
  log := []
  seen _ := False

/-- The machine after one more moment. -/
@[inline] def note (m : Machine) (x : Moment) : Machine :=
  { m with seen := fun y => y = x ∨ m.seen y }

/-- The machine after something outside has been told of an event. -/
@[inline] def tell (m : Machine) (e : Event) : Machine :=
  { m.note (.told e m.toState) with log := e :: m.log }

/-- The machine without its moments. -/
@[inline] def afresh (m : Machine) : Machine := { m with seen := fun _ => False }

/-- The machine at the end of a call that began on `before` and whose own moments it has. -/
@[inline] def ended (m : Machine) (f : FunctionId) (before : Machine) : Machine :=
  { m with
    seen := fun x =>
      x = .called f before.toState m.toState (fun c => m.seen (.changed c)) ∨ m.seen x ∨ before.seen x }

/-- A machine on which all storage is given up; its control and its log stay. -/
def reset (m : Machine) : Machine :=
  { m with
    memory := m.memory.clear
    frames := .empty
    strings := #[]
    heap := []
    callStack := []
    pending := none
    flow := .normal }

/-- What has been observed, in order. -/
def events (m : Machine) : List Event := m.log.reverse

end Machine

/-- A part of a run. -/
abbrev Run := EStateM Stop Machine

namespace Run

/-- Fail. -/
def fault {α : Type} (f : Fault) : Run α := throw (.fault f)

/-- The result of an option that holds something, or a fault. -/
def require {α : Type} (x : Option α) (f : Fault) : Run α :=
  match x with
  | some a => pure a
  | none => fault f

/-- Run `x` and go on whether or not it stops. -/
def attempt {α : Type} (x : Run α) : Run (Except Stop α) := fun m =>
  match x m with
  | .ok a m => .ok (.ok a) m
  | .error e m => .ok (.error e) m

/-- Go on as an attempt ended. -/
def conclude {α : Type} : Except Stop α → Run α
  | .ok a => pure a
  | .error e => throw e

/-- Let an event be observed. -/
def emit (e : Event) : Run Unit := modify fun m => m.tell e

/-- Run `x` as a call of a function and note the state before and after it, with what `x` alone has
done to the heap. -/
def noted {α : Type} (f : FunctionId) (x : Run α) : Run α := fun m =>
  match x m.afresh with
  | .ok a n => .ok a (n.ended f m)
  | .error e n => .error e (n.ended f m)

/-- Ask the control whether the statement at `loc` may run. -/
def checkpoint (loc : Location) : Run Unit := do
  emit (.checkpoint loc)
  let m ← get
  let (verdict, control) := m.control.checkpoint
  set { m with control }
  match verdict with
  | .proceed => pure ()
  | .abort => throw .aborted

/-! ## Storage -/

/-- A new region; `loc` is who asks for it. -/
def allocate (size : Nat) (loc : Location) : Run Address := do
  let m ← get
  match m.memory.allocate size with
  | .ok (a, memory) =>
    set { m with memory }
    return a
  | .error e => fault (.memory e loc)

/-- Give up a region and tell what memory says to it. -/
def release (a : Address) : Run (Option MemoryError) := do
  let m ← get
  match m.memory.free a with
  | .ok memory =>
    set { m with memory }
    return none
  | .error e =>
    set (m.note (.refused a))
    return some e

/-- Give up regions, one after the other; the first refusal is told. -/
def releaseAll : List Address → Run (Option MemoryError)
  | [] => pure none
  | a :: as => do
    let first ← release a
    let later ← releaseAll as
    return first.or later

/-- Note that memory has changed by a write of `w` at `a`, and let it be observed. -/
def written (memory : Memory) (a : Address) (w : Word) : Run Unit :=
  modify fun m =>
    (memory.notices a w).foldl (fun m (a, w) => m.tell (.wrote a w)) { m with memory }

/-- Write a byte. -/
def writeByte (a : Address) (b : UInt8) (loc : Location) : Run Unit := do
  match (← get).memory.write a b with
  | .ok memory => written memory a (Word.ofByte b)
  | .error e => fault (.memory e loc)

/-- Write a word. -/
def writeWord (a : Address) (w : Word) (loc : Location) : Run Unit := do
  match (← get).memory.writeWord a w with
  | .ok memory => written memory a w
  | .error e => fault (.memory e loc)

/-- Read a byte. -/
def readByte (a : Address) (loc : Location) : Run UInt8 := do
  match (← get).memory.read a with
  | .ok b => return b
  | .error e => fault (.memory e loc)

/-- Read a word. -/
def readWord (a : Address) (loc : Location) : Run Word := do
  match (← get).memory.readWord a with
  | .ok w => return w
  | .error e => fault (.memory e loc)

end Run

/-! ## Places -/

/-- A place in memory at which a value of a type lies.  The value of an array is its address. -/
structure Place where
  address : Address
  ty : Ty
  isArray : Bool
  deriving Repr, DecidableEq

/-- What an expression comes to. -/
inductive Resolved where
  | value (v : Value)
  | place (p : Place)
  deriving Repr, DecidableEq

namespace Run

/-- The value at a place. -/
def loadPlace (p : Place) (loc : Location) : Run Value := do
  if p.isArray then return .pointer p.ty p.address
  if ¬ p.ty.isScalar then fault (.unsupportedValue p.ty loc)
  if p.ty.isChar then return ⟨p.ty, Word.ofSignedByte (← readByte p.address loc)⟩
  return ⟨p.ty, ← readWord p.address loc⟩

/-- The value that an expression has come to. -/
def load (r : Resolved) (loc : Location) : Run Value :=
  match r with
  | .value v => pure v
  | .place p => loadPlace p loc

/-- Store a value at a place: a byte if it is a character, else a word. -/
def store (p : Place) (v : Value) (loc : Location) : Run Unit :=
  if p.ty.isChar then writeByte p.address v.word.lowByte loc else writeWord p.address v.word loc

/-- The address `offset` bytes behind `base`; where there is none, the operation fails with `e`. -/
def displaced (base : Address) (offset : Nat) (e : MemoryError) (loc : Location) : Run Address :=
  if base.toNat + offset < 4294967296 then pure (base + UInt32.ofNat offset)
  else fault (.memory e loc)

/-- The address `index` elements of `scale` bytes behind a pointer, or before it.  The product and the
sum are numbers of 64 bits with a sign.  One case leaves them, an index of -2^31 taken off an address
from 2^31 on at a scale of 2^32 - 1: where such arithmetic is checked the process ends there, while
here the sum wraps around below zero and is an overflow like the others. -/
def offsetAddress (base : Value) (index : Word) (scale : Nat) (subtract : Bool) (loc : Location) :
    Run Address :=
  let delta := index.toInt64 * Int64.ofNat scale
  let target := if subtract then base.address.wide - delta else base.address.wide + delta
  require (Address.ofInt? target.toInt) (.overflow (if subtract then "-" else "+") loc)

/-- Read `size` bytes from an address on. -/
def readBytes (base : Address) (loc : Location) (size : Nat) : Run (List UInt8) :=
  go 0 size
where
  go (i : Nat) : Nat → Run (List UInt8)
    | 0 => pure []
    | n + 1 => do
      let a ← displaced base i (.unmapped base 1) loc
      let b ← readByte a loc
      let bs ← go (i + 1) n
      return b :: bs

/-- Write bytes from an address on, one at a time; one that has no address fails with `e`. -/
def writeBytes (base : Address) (e : MemoryError) (loc : Location) (bytes : List UInt8) : Run Unit :=
  go 0 bytes
where
  go (i : Nat) : List UInt8 → Run Unit
    | [] => pure ()
    | b :: bs => do
      let a ← displaced base i e loc
      writeByte a b loc
      go (i + 1) bs

end Run

end MiniC
