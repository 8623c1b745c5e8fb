/-
  The rules of execution.

  Expressions come to a value or a place, statements change the flow of control, and both call
  functions.  The rules do not call each other: each is given an `Engine`, which executes
  expressions, performs statements and repeats loops, and the run ties the rules together.  A rule
  asks the engine only for the parts of what it is given, for the bodies of functions and for the
  next round of a loop.
-/
import MiniC.Lowering
import MiniC.Machine
import MiniC.Text.Utf8

namespace MiniC

/-- A loop between two rounds: what is tested before a round, done after it, and its body. -/
structure Loop where
  condition : Option Expr
  increment : Option Expr
  body : Stmt

/-- What the rules are made from. -/
structure Engine where
  execute : Expr → Run Resolved
  perform : Stmt → Run Unit
  iterate : Loop → Run Unit

namespace Engine

variable (env : Env) (engine : Engine)

/-- The value of an expression. -/
def solve (e : Expr) : Run Value := do
  let r ← engine.execute e
  Run.load r e.loc

/-- The place that an expression stands for. -/
def place (e : Expr) : Run Place := do
  match ← engine.execute e with
  | .place p => return p
  | .value _ => Run.fault (.notAddressable e.loc)

/-! ## Variables -/

/-- The place of a variable. -/
def variablePlace (id : SymbolId) (ty : Ty) (loc : Location) : Run Place := do
  let symbol := env.program.symbol id
  let a ← Run.require ((← get).frames.address? id) (.unbound symbol.name loc)
  return ⟨a, ty, symbol.isArray⟩

/-- Tell of an array that has been given storage. -/
def registerArray (symbol : Symbol) (a : Address) : Run Unit := do
  match symbol.array, symbol.elementType? with
  | some spec, some element =>
    let length ← engine.solve spec.lengthExpr
    Run.emit (.array element a length.word.toInt.toNat)
  | _, _ => pure ()

/-! ## Operators -/

/-- A binary operator; the right operand is skipped where the left one decides. -/
def binary (op : BinaryOp) (left right : Expr) (loc : Location) : Run Word := do
  let l := (← engine.solve left).word
  match op.shortcut l with
  | some w => return w
  | none =>
    let r := (← engine.solve right).word
    if op.divides ∧ r = 0 then Run.fault (.divisionByZero loc)
    Run.require (op.apply l r) (.overflow op.symbol loc)

/-- The number of elements between two pointers, toward zero. -/
def pointerDiff (left right : Value) (scale : Nat) (loc : Location) : Run Word :=
  let bytes := left.address.wide - right.address.wide
  let elements := bytes / Int64.ofNat (max scale 1)
  Run.require (Word.ofInt? elements.toInt) (.overflow "-" loc)

/-! ## Assignments -/

/-- Copy a structure: all bytes are read before any is written. -/
def copyStruct (size : Nat) (dst src : Expr) (loc : Location) : Run Resolved := do
  let source ← engine.place src
  let target ← engine.place dst
  let bytes ← Run.readBytes source.address loc size
  Run.writeBytes target.address (.unmapped target.address 1) loc bytes
  return .place target

/-- Store a value; the source is evaluated before the place. -/
def storeValue (dst src : Expr) (loc : Location) : Run Resolved := do
  let v ← engine.solve src
  let p ← engine.place dst
  let stored := v.convert p.ty
  Run.store p stored loc
  return .value stored

/-- An assignment. -/
def assign (dst src : Expr) (loc : Location) : Run Resolved := do
  if dst.ty.structName?.isSome then
    let size ← Run.require (env.program.sizeOf? dst.ty) (.unsupportedValue dst.ty loc)
    engine.copyStruct size dst src loc
  else engine.storeValue dst src loc

/-- Lower the values of an initializer one after the other and store each in its element. -/
def storeElements (function : FunctionId) (scope : Scope) (base : Address) (element : Ty) :
    Nat → List Node → Run Unit
  | _, [] => pure ()
  | i, node :: nodes => do
    match lowerExpr env.grammar node (.frozenIn env.program function scope) with
    | .error e => Run.fault (.lowering e)
    | .ok (e, _) =>
      let v ← engine.solve e
      let a ← Run.displaced base (i * element.accessWidth) (.overflow "add") node.start
      Run.store ⟨a, element, false⟩ (v.convert element) node.start
      storeElements function scope base element (i + 1) nodes

/-- The assignment of a list of values to an array, which comes to the array's address. -/
def arrayAssign (dst : Expr) (values : List Node) (scope : Scope) (loc : Location) :
    Run Address := do
  match ← engine.execute dst with
  | .place ⟨base, ty, true⟩ =>
    match (← get).frames.current? with
    | none => Run.fault (.notAnArray loc)
    | some frame =>
      let element := ty.pointee.getD Ty.int
      engine.storeElements env frame.function scope base element 0 values
      return base
  | _ => Run.fault (.notAnArray loc)

/-! ## Builtin functions -/

/-- The most bytes that the name of a color has. -/
def maxColorLength : Nat := 20

/-- The bytes that `read` gives from `a` on, up to a zero, the first one that is not given, or `n` of
them. -/
def textBytes (read : Nat → Option UInt8) (a : Nat) : Nat → List UInt8
  | 0 => []
  | n + 1 =>
    match read a with
    | none => []
    | some b => if b = 0 then [] else b :: textBytes read (a + 1) n

/-- The text at an address, up to a zero or the end of mapped memory; the null pointer has none. -/
def readText (memory : Memory) (a : Address) : Option String :=
  let read (x : Nat) := (Address.ofInt? x).bind memory.byte?
  if a = 0 then none else some (Utf8.decode (textBytes read a.toNat maxColorLength))

/-- The value of a builtin's parameter. -/
def argument (id : SymbolId) (loc : Location) : Run Value := do
  let p ← variablePlace env id (env.program.symbol id).ty loc
  Run.loadPlace p loc

/-- Allocate a heap block. -/
def malloc (size : Word) (loc : Location) : Run Unit := do
  if size.toInt ≤ 0 then Run.fault (.invalidSize size loc)
  let a ← Run.allocate size.toInt.toNat loc
  modify fun m =>
    { m.note (.changed (.granted a size.toInt.toNat)) with
      heap := if a ∈ m.heap then m.heap else a :: m.heap
      pending := some (.pointer Ty.voidPointer a) }

/-- Give up a heap block; the null pointer stands for none. -/
def free (a : Address) (loc : Location) : Run Unit := do
  if a = 0 then return
  if a ∉ (← get).heap then Run.fault (.invalidFree a loc)
  modify fun m => { m.note (.changed (.freed a)) with heap := m.heap.filter fun b => b ≠ a }
  match ← Run.release a with
  | none => pure ()
  | some e => Run.fault (.memory e loc)

/-- Run a builtin function on the parameters of the innermost frame. -/
def builtin (b : Builtin) (loc : Location) : Run Unit := do
  match b with
  | .highlightIndex array index color =>
    let array := (← argument env array loc).address
    let index := (← argument env index loc).word
    let color := (← argument env color loc).address
    Run.emit (.highlight array index (readText (← get).memory color))
  | .clearHighlight array =>
    Run.emit (.clear (← argument env array loc).address)
  | .malloc size => malloc (← argument env size loc).word loc
  | .free pointer => free (← argument env pointer loc).address loc

/-! ## Calls -/

/-- Give storage to the variables of a function, in the order of their declaration. -/
def allocateLocals : List SymbolId → Run Unit
  | [] => pure ()
  | id :: ids => do
    let symbol := env.program.symbol id
    let a ← Run.allocate symbol.size symbol.declaredAt
    match (← get).frames.bind? id a symbol.size with
    | none =>
      discard (Run.release a)
      Run.fault (.unbound symbol.name symbol.declaredAt)
    | some frames =>
      modify fun m => { m with frames }
      engine.registerArray symbol a
      allocateLocals ids

/-- Store arguments in parameters, in order. -/
def bindParams : List SymbolId → List Value → Run Unit
  | id :: ids, v :: vs => do
    let symbol := env.program.symbol id
    let p ← variablePlace env id symbol.ty symbol.declaredAt
    Run.store p (v.convert p.ty) symbol.declaredAt
    bindParams ids vs
  | _, _ => pure ()

/-- Tell of the frame that has been set up. -/
def announceFrame : Run Unit := do
  let m ← get
  match m.frames.current? with
  | none => pure ()
  | some frame =>
    Run.emit (.enter frame.name m.frames.depth frame.bindings m.memory.allocatedBytes)

/-- Set up the innermost frame: storage for all variables, then the arguments. -/
def enterFrame (f : Function) (args : List Value) : Run Unit := do
  engine.allocateLocals env f.locals
  bindParams env f.params args
  announceFrame

/-- Run the body of a function. -/
def runBody (f : Function) (loc : Location) : Run Unit :=
  match f.body with
  | .compiled body => engine.perform body
  | .builtin b => builtin env b loc
  | .declared => Run.fault (.undefinedFunction f.name)

/-- Close the innermost frame: its storage is given up, the latest first. -/
def leaveFrame : Run (Option MemoryError) := do
  match (← get).frames.pop with
  | none => return none
  | some (frame, frames) =>
    modify fun m => { m with frames }
    let trouble ← Run.releaseAll (frame.latest.map Binding.address)
    Run.emit (.exit frame.name)
    return trouble

/-- Take what the last `return` has left, and let control go on. -/
def takeReturn : Run (Option Value) := do
  let m ← get
  set { m with pending := none, flow := .normal }
  return m.pending

/-- The result of a call that has ended, by what its body left. -/
def callResult (f : Function) (returned : Option Value) : Run (Option Value) :=
  if ¬ f.returnsValue then pure none
  else
    match returned with
    | some v => pure (some (v.convert f.result))
    | none => Run.fault (.missingReturn f.name)

/-- Call a function.  Whatever happens, its frame is closed before the call ends. -/
def invoke (id : FunctionId) (args : List Value) (loc : Location) : Run (Option Value) := do
  if env.config.maxDepth ≤ (← get).frames.depth then
    Run.fault (.stackOverflow env.config.maxDepth loc)
  let f := env.program.function id
  modify fun m => { m with frames := m.frames.push id f.name }
  let outcome ← Run.attempt do
    engine.enterFrame env f args
    engine.runBody env f loc
  let trouble ← leaveFrame
  let returned ← takeReturn
  Run.conclude outcome
  match trouble with
  | some e => Run.fault (.memory e f.definedAt)
  | none => callResult f returned

/-- The values of arguments, from left to right. -/
def solveAll : List Expr → Run (List Value)
  | [] => pure []
  | e :: es => do
    let v ← engine.solve e
    let vs ← solveAll es
    return v :: vs

/-- Run `x` as a part of the call of the named function. -/
def named {α : Type} (name : String) (x : Run α) : Run α := do
  modify fun m => { m with callStack := name :: m.callStack }
  let outcome ← Run.attempt x
  modify fun m => { m with callStack := m.callStack.tail }
  Run.conclude outcome

/-- A call in an expression. -/
def call (id : FunctionId) (args : List Expr) (loc : Location) : Run (Option Value) :=
  Run.noted id <| named (env.program.function id).name do
    let values ← engine.solveAll args
    engine.invoke env id values loc

/-- Tell of the structure that a call has allocated. -/
def announceStruct (allocates : Option StructId) (returned : Option Value) : Run Unit :=
  match allocates, returned with
  | some id, some v =>
    if v.word ≠ 0 then Run.emit (.struct (env.program.layout id).name v.address) else pure ()
  | _, _ => pure ()

/-! ## Expressions -/

/-- Execute an expression once. -/
def executeRule (e : Expr) : Run Resolved := do
  let loc := e.loc
  match e.op with
  | .const w => return .value ⟨e.ty, w⟩
  | .str id =>
    let a ← Run.require (← get).strings[id]?
      (.unbound ("\"" ++ env.program.string id ++ "\"") loc)
    return .value (.pointer e.ty a)
  | .var id => return .place (← variablePlace env id e.ty loc)
  | .member object offset array =>
    let p ← engine.place object
    let a ← Run.displaced p.address offset (.unmapped p.address (max e.ty.accessWidth 1)) loc
    return .place ⟨a, e.ty, array.isSome⟩
  | .deref pointer =>
    let v ← engine.solve pointer
    if v.word = 0 then Run.fault (.nullDereference loc)
    return .place ⟨v.address, e.ty, false⟩
  | .index base index scale =>
    let b ← engine.solve base
    let i ← engine.solve index
    if b.word = 0 then Run.fault (.nullDereference loc)
    let a ← Run.offsetAddress b i.word scale false loc
    return .place ⟨a, e.ty, false⟩
  | .addressOf operand =>
    let p ← engine.place operand
    return .value (.pointer e.ty p.address)
  | .unary op operand =>
    let v ← engine.solve operand
    let w ← Run.require (op.apply v.word) (.overflow "-" loc)
    return .value ⟨e.ty, w⟩
  | .binary op left right =>
    let w ← engine.binary op left right loc
    return .value ⟨e.ty, w⟩
  | .pointerOffset pointer offset scale subtract =>
    let p ← engine.solve pointer
    let o ← engine.solve offset
    let a ← Run.offsetAddress p o.word scale subtract loc
    return .value (.pointer e.ty a)
  | .pointerDiff left right scale =>
    let l ← engine.solve left
    let r ← engine.solve right
    let w ← pointerDiff l r scale loc
    return .value ⟨e.ty, w⟩
  | .call id args allocates =>
    let returned ← engine.call env id args loc
    announceStruct env allocates returned
    return .value (returned.getD .void)
  | .assign dst src => engine.assign env dst src loc
  | .arrayAssign dst values scope =>
    let a ← engine.arrayAssign env dst values scope loc
    return .value (.pointer e.ty a)

/-! ## Statements -/

/-- Perform statements until one of them sends control elsewhere. -/
def performAll : List Stmt → Run Unit
  | [] => pure ()
  | s :: ss => do
    engine.perform s
    if (← get).flow = .normal then performAll ss

/-- Perform the body of a loop once, and say whether the loop goes on. -/
def round (body : Stmt) : Run Bool := do
  engine.perform body
  match (← get).flow with
  | .normal => return true
  | .continues =>
    modify fun m => { m with flow := .normal }
    return true
  | .breaks =>
    modify fun m => { m with flow := .normal }
    return false
  | .returns => return false

/-- Whether the condition of a loop holds; an absent one does. -/
def holds : Option Expr → Run Bool
  | none => pure true
  | some e => do return (← engine.solve e).isTrue

/-- Execute an expression that may be absent, for what it does. -/
def executeOption : Option Expr → Run Unit
  | none => pure ()
  | some e => discard (engine.execute e)

/-- Go on with a loop: test, perform the body, do what follows it, and go on. -/
@[inline] def iterateRule (loop : Loop) : Run Unit := do
  if ← engine.holds loop.condition then
    if ← engine.round loop.body then
      engine.executeOption loop.increment
      engine.iterate loop

/-- Perform the action of a statement. -/
def act (a : Action) : Run Unit := do
  match a with
  | .expr e => discard (engine.execute e)
  | .block body => engine.performAll body
  | .ifElse condition thenBranch elseBranch =>
    if (← engine.solve condition).isTrue then engine.perform thenBranch
    else
      match elseBranch with
      | some s => engine.perform s
      | none => pure ()
  | .whileLoop condition body => engine.iterate ⟨some condition, none, body⟩
  | .doWhile body condition =>
    if ← engine.round body then engine.iterate ⟨some condition, none, body⟩
  | .forLoop init condition increment body =>
    engine.executeOption init
    engine.iterate ⟨condition, increment, body⟩
  | .returns none => modify fun m => { m with pending := none, flow := .returns }
  | .returns (some e) =>
    let v ← engine.solve e
    modify fun m => { m with pending := some v, flow := .returns }
  | .breaks => modify fun m => { m with flow := .breaks }
  | .continues => modify fun m => { m with flow := .continues }
  | .empty => pure ()

/-- Perform a statement.  Before every statement but a block the control is asked. -/
def performRule (s : Stmt) : Run Unit := do
  match s.action with
  | .block body => engine.performAll body
  | a =>
    Run.checkpoint s.loc
    engine.act a

end Engine

end MiniC
