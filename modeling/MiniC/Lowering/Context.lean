/-
  The context of lowering: the tables that grow and the definition that is under way.

  A context holds a program, the function being defined with its nested scopes, and the structure
  being defined with the members so far.  Declarations record what the machine needs to know; no
  storage is given out.  Over a frozen program the same operations look names up but add nothing:
  this is how the values of an array initializer are lowered while the program runs.

  A context also keeps the array assignments that have been lowered, each with what its values were
  lowered to.  No rule looks at them: code holds the values as trees, and these are what the trees
  meant where they stand.

  Every operation either fails and leaves the context as it is, or gives a result and the next
  context.
-/
import MiniC.Program
import MiniC.Token

namespace MiniC

/-- What can be wrong with a tree. -/
inductive CompileCause where
  | unknownProduction (p : Production)
  | notOnItsOwn (p : Production)
  | malformed (p : Production)
  | expectedExpression
  | incompleteField (ty : Ty)
  | unknownStruct (name : String)
  | unknownSize (ty : Ty)
  | redefinedStruct (name : String)
  | noStruct
  | redefinedFunction (name : String)
  | noFunction
  | frozen
  | duplicateMember (name : String)
  /-- A structure has outgrown the numbers of 32 bits.  Nothing recovers from this: the process ends. -/
  | overflow
  | redefined (name : String)
  | redeclared (name : String)
  | undeclared (name : String)
  | uncompiledString (text : String)
  | emptyStruct (name : String)
  | structResult (name : String) (ty : Ty)
  | voidParameter (name : String)
  | structParameter (name : String) (ty : Ty)
  | voidVariable (name : String)
  | arraySizeMissing (name : String)
  | arraySizeType (name : String)
  | arraySizeNotConstant
  | arraySizeNotPositive (size : Word)
  | arrayTooLarge (name : String)
  | notScalar (ty : Ty)
  | returnOutside
  | returnWithoutValue
  | returnWithValue
  | returnType (found expected : Ty)
  | outsideLoop (keyword : Keyword)
  | voidValue
  | assignedNoPlace
  | assignedArray
  | assignedType (dst src : Ty)
  | tooManyValues (length got : Nat)
  | unsupportedElements (element : Ty)
  | initialType (element found : Ty)
  | misplacedValues
  | operands (op : BinaryOp) (left right : Ty)
  | voidArithmetic
  | unaryOperand (op : UnaryOp) (ty : Ty)
  | dereferenced (ty : Ty)
  | addressOfNoPlace
  | notSubscriptable
  | voidElement
  | arrowOperand (ty : Ty)
  | memberOfNoStruct (field : String)
  | noMember (struct field : String)
  | undeclaredFunction (name : String)
  | tooManyArguments (name : String)
  | tooFewArguments (name : String)
  | argumentType (number : Nat) (name : String) (expected found : Ty)
  deriving Repr, DecidableEq

/-- A text in single quotes. -/
def quoted (s : String) : String := "'" ++ s ++ "'"

/-- The message of a cause. -/
def CompileCause.message : CompileCause → String
  | unknownProduction p => "unknown grammar production " ++ quoted p.name
  | notOnItsOwn p => quoted p.name ++ " cannot be compiled on its own"
  | malformed p => "malformed " ++ quoted p.name ++ " node"
  | expectedExpression => "expected an expression"
  | incompleteField ty => "field has incomplete type " ++ quoted ty.text
  | unknownStruct name => "unknown type " ++ quoted ("struct " ++ name)
  | unknownSize ty => "storage size of " ++ quoted ty.text ++ " is unknown"
  | redefinedStruct name => "redefinition of " ++ quoted ("struct " ++ name)
  | noStruct => "no struct is being defined"
  | redefinedFunction name => "redefinition of function " ++ quoted name
  | noFunction => "no function is being defined"
  | frozen => "declarations are not allowed while the program is running"
  | duplicateMember name => "duplicate member " ++ quoted name
  | overflow => "attempt to add with overflow"
  | redefined name => "redefinition of " ++ quoted name
  | redeclared name => "redeclaration of " ++ quoted name
  | undeclared name => quoted name ++ " undeclared"
  | uncompiledString text => "string literal \"" ++ text ++ "\" was never compiled"
  | emptyStruct name => "struct " ++ quoted name ++ " has no members"
  | structResult name ty =>
    "function " ++ quoted name ++ " cannot return " ++ quoted ty.text ++ " by value"
  | voidParameter name => "parameter " ++ quoted name ++ " declared void"
  | structParameter name ty =>
    "parameter " ++ quoted name ++ " cannot take " ++ quoted ty.text ++ " by value"
  | voidVariable name => "variable " ++ quoted name ++ " declared void"
  | arraySizeMissing name => "array size missing in " ++ quoted name
  | arraySizeType name => "size of array " ++ quoted name ++ " has non-integer type"
  | arraySizeNotConstant => "array size must be a constant integer expression"
  | arraySizeNotPositive size => "array size must be positive, got " ++ size.text
  | arrayTooLarge name => "size of array " ++ quoted name ++ " is too large"
  | notScalar ty => "used " ++ quoted ty.text ++ " where a scalar is required"
  | returnOutside => "'return' outside of a function"
  | returnWithoutValue => "'return' with no value, in function returning non-void"
  | returnWithValue => "'return' with a value, in function returning void"
  | returnType found expected =>
    "incompatible types when returning type " ++ quoted found.text ++ " but "
      ++ quoted expected.text ++ " was expected"
  | outsideLoop keyword => keyword.text ++ " statement not within loop"
  | voidValue => "void value not ignored as it ought to be"
  | assignedNoPlace => "lvalue required as left operand of assignment"
  | assignedArray => "assignment to expression with array type"
  | assignedType dst src =>
    "incompatible types when assigning to type " ++ quoted dst.text ++ " from type "
      ++ quoted src.text
  | tooManyValues length got =>
    "too many initializers for array of length " ++ toString length ++ ", got " ++ toString got
  | unsupportedElements element =>
    "initializer lists of " ++ quoted element.text ++ " elements are not supported"
  | initialType element found =>
    "incompatible types when initializing type " ++ quoted element.text ++ " using type "
      ++ quoted found.text
  | misplacedValues => "initializer list is only valid when assigning to an array"
  | operands op left right =>
    "invalid operands to binary " ++ op.symbol ++ " (have " ++ quoted left.text ++ " and "
      ++ quoted right.text ++ ")"
  | voidArithmetic => "pointer of type 'void*' used in arithmetic"
  | unaryOperand .neg ty => "wrong type argument to unary minus (" ++ quoted ty.text ++ ")"
  | unaryOperand .not ty =>
    "wrong type argument to unary exclamation mark (" ++ quoted ty.text ++ ")"
  | dereferenced ty => "invalid type argument of unary '*' (have " ++ quoted ty.text ++ ")"
  | addressOfNoPlace => "lvalue required as unary '&' operand"
  | notSubscriptable => "subscripted value is neither array nor pointer"
  | voidElement => "dereferencing 'void*' pointer"
  | arrowOperand ty => "invalid type argument of '->' (have " ++ quoted ty.text ++ ")"
  | memberOfNoStruct field =>
    "request for member " ++ quoted field ++ " in something not a structure"
  | noMember struct field =>
    quoted ("struct " ++ struct) ++ " has no member named " ++ quoted field
  | undeclaredFunction name => "implicit declaration of function " ++ quoted name
  | tooManyArguments name => "too many arguments to function " ++ quoted name
  | tooFewArguments name => "too few arguments to function " ++ quoted name
  | argumentType number name expected found =>
    "incompatible type for argument " ++ toString number ++ " of " ++ quoted name
      ++ ": expected " ++ quoted expected.text ++ " but got " ++ quoted found.text

/-- A fault in a tree. -/
abbrev CompileError := Located CompileCause

/-- The function being defined: its nested scopes, the innermost first, and the loops around. -/
structure FunctionContext where
  id : FunctionId
  result : Ty
  scopes : List Scope
  loops : Nat

/-- The structure being defined: its members so far and the offset of the next one. -/
structure StructContext where
  name : String
  members : List Member
  nextOffset : Nat

/-- What lowering knows and adds to. -/
structure Context where
  program : Program
  frozen : Bool
  function : Option FunctionContext
  struct : Option StructContext
  /-- The array assignments so far, each with the expressions of its values. -/
  assigned : Expr → List Expr → Prop

/-- A step of lowering. -/
abbrev Lower := StateT Context (Except CompileError)

namespace Context

/-- The context that adds to a program. -/
def building (p : Program) : Context := ⟨p, false, none, none, fun _ _ => False⟩

/-- The context that looks things up in a finished program, inside one of its functions and where
the names of `scope` are visible. -/
def frozenIn (p : Program) (f : FunctionId) (scope : Scope) : Context :=
  ⟨p, true, some ⟨f, (p.function f).result, [scope], 0⟩, none, fun _ _ => False⟩

/-- The number of the function being defined. -/
def currentFunction? (c : Context) : Option FunctionId := c.function.map FunctionContext.id

/-- The result type of the function being defined. -/
def result? (c : Context) : Option Ty := c.function.map FunctionContext.result

/-- Whether a loop of the function being defined is around. -/
def inLoop (c : Context) : Bool :=
  match c.function with
  | some f => 0 < f.loops
  | none => false

/-- The entries of a scope, each name once. -/
def distinct : Scope → Scope
  | [] => []
  | (name, id) :: rest => (name, id) :: (distinct rest).filter fun entry => entry.1 ≠ name

/-- The names of variables that are visible now, globals apart; the innermost counts. -/
def visibleNames (c : Context) : Scope :=
  match c.function with
  | some f => distinct f.scopes.flatten
  | none => []

/-- The symbol of a name: in the innermost scope that has it, else the global. -/
def find? (c : Context) (name : String) : Option SymbolId :=
  match c.function.bind fun f => f.scopes.findSome? fun s => s.find? name with
  | some id => some id
  | none => c.program.global? name

/-- The context after the array assignment `a` has been lowered and its values to `es`.  A frozen
context stays as it is. -/
@[inline] def noteAssigned (c : Context) (a : Expr) (es : List Expr) : Context :=
  if c.frozen then c
  else { c with assigned := fun b fs => (b = a ∧ fs = es) ∨ c.assigned b fs }

/-- The length of an array that an expression stands for. -/
def arrayLength? (c : Context) (e : Expr) : Option Nat :=
  match e.op with
  | .var id => (c.program.symbol id).array.map ArraySpec.length
  | .member _ _ array => array
  | _ => none

end Context

namespace Lower

/-- Report a fault. -/
def fail {α : Type} (cause : CompileCause) (loc : Location) : Lower α := fun _ =>
  .error ⟨cause, loc⟩

/-- What the context says. -/
def ask {α : Type} (f : Context → α) : Lower α := fun c => .ok (f c, c)

/-- Change the context. -/
def change (f : Context → Context) : Lower Unit := fun c => .ok ((), f c)

/-- The result of an option that holds something, or a fault. -/
def require {α : Type} (x : Option α) (cause : CompileCause) (loc : Location) : Lower α :=
  match x with
  | some a => pure a
  | none => fail cause loc

/-! ## Types -/

/-- The type of a base and its stars.  A structure has to be known; the one being defined is known
behind a star only. -/
def resolveType (base : Base) (stars : Nat) (loc : Location) : Lower Ty := do
  let ty : Ty := ⟨base, stars⟩
  match base with
  | .struct name =>
    let beingDefined ← ask fun c => c.struct.any fun s => s.name = name
    let known ← ask fun c => (c.program.struct? name).isSome
    if beingDefined ∧ stars = 0 then fail (.incompleteField ty) loc
    else if ¬ beingDefined ∧ ¬ known then fail (.unknownStruct name) loc
    else return ty
  | _ => return ty

/-- The storage that a type takes. -/
def sizeOf (ty : Ty) (loc : Location) : Lower Nat := do
  require (← ask fun c => c.program.sizeOf? ty) (.unknownSize ty) loc

/-! ## Definitions -/

/-- Refuse to go on over a frozen program. -/
def requireBuilding (loc : Location) : Lower Unit := do
  if ← ask Context.frozen then fail .frozen loc

/-- Begin the definition of a structure. -/
def beginStruct (name : String) (loc : Location) : Lower Unit := do
  if (← ask fun c => c.program.struct? name).isSome then fail (.redefinedStruct name) loc
  change fun c => { c with struct := some ⟨name, [], 0⟩ }

/-- Finish the structure being defined. -/
def finishStruct (loc : Location) : Lower StructId := do
  let s ← require (← ask Context.struct) .noStruct loc
  requireBuilding loc
  let id ← ask fun c => c.program.structs.size
  change fun c =>
    { c with program := (c.program.addStruct ⟨s.name, s.members, s.nextOffset⟩).2, struct := none }
  return id

/-- Begin the definition of a function. -/
def beginFunction (name : String) (result : Ty) (loc : Location) : Lower FunctionId := do
  if (← ask fun c => c.program.function? name).isSome then fail (.redefinedFunction name) loc
  requireBuilding loc
  let id ← ask fun c => c.program.functions.size
  change fun c =>
    { c with
      program := (c.program.addFunction ⟨name, result, [], [], .declared, loc⟩).2
      function := some ⟨id, result, [[]], 0⟩ }
  return id

/-- Finish the function being defined. -/
def finishFunction (body : Stmt) : Lower Unit := do
  let f ← require (← ask Context.function) .noFunction body.loc
  requireBuilding body.loc
  change fun c =>
    { c with
      program := c.program.modifyFunction f.id fun g => { g with body := .compiled body }
      function := none }

/-! ## Scopes -/

/-- Change the function being defined. -/
def changeFunction (f : FunctionContext → FunctionContext) : Lower Unit :=
  change fun c => { c with function := c.function.map f }

/-- Open a scope. -/
def enterScope : Lower Unit := changeFunction fun f => { f with scopes := [] :: f.scopes }

/-- Close the innermost scope, but never the outermost one. -/
def exitScope : Lower Unit := changeFunction fun f =>
  match f.scopes with
  | _ :: s :: rest => { f with scopes := s :: rest }
  | _ => f

/-- Note that a loop is around. -/
def enterLoop : Lower Unit := changeFunction fun f => { f with loops := f.loops + 1 }

/-- Note that the loop is over. -/
def exitLoop : Lower Unit := changeFunction fun f => { f with loops := f.loops - 1 }

/-! ## Names -/

/-- Add a member to the structure being defined.  Where the structure ends is a number of 32 bits. -/
def declareMember (s : StructContext) (name : String) (ty : Ty) (size : Nat)
    (array : Option ArraySpec) (loc : Location) : Lower Unit := do
  if s.members.any fun m => m.name = name then fail (.duplicateMember name) loc
  if 4294967296 ≤ s.nextOffset + size then fail .overflow loc
  change fun c =>
    { c with
      struct := some
        { s with
          members := s.members ++ [⟨name, ty, size, s.nextOffset, array.map ArraySpec.length⟩]
          nextOffset := s.nextOffset + size } }

/-- Add a global. -/
def declareGlobal (symbol : Symbol) (loc : Location) : Lower Unit := do
  if (← ask fun c => c.program.global? symbol.name).isSome then fail (.redefined symbol.name) loc
  requireBuilding loc
  change fun c => { c with program := c.program.addGlobal symbol }

/-- Add a variable to the innermost scope of a function. -/
def declareLocal (f : FunctionContext) (symbol : Symbol) (isParam : Bool) (loc : Location) :
    Lower Unit := do
  let innermost := f.scopes.headD []
  if (innermost.find? symbol.name).isSome then fail (.redeclared symbol.name) loc
  requireBuilding loc
  change fun c =>
    let (id, p) := c.program.addSymbol symbol
    { c with
      program := p.modifyFunction f.id fun g =>
        { g with
          locals := g.locals ++ [id]
          params := if isParam then g.params ++ [id] else g.params }
      function := some { f with scopes := ((symbol.name, id) :: innermost) :: f.scopes.tail } }

/-- Declare a name: as a member if a structure is being defined, else as a variable of the function
being defined, else as a global. -/
def declare (name : String) (ty : Ty) (size : Nat) (array : Option ArraySpec) (isParam : Bool)
    (loc : Location) : Lower Unit := do
  match ← ask Context.struct with
  | some s => declareMember s name ty size array loc
  | none =>
    let symbol : Symbol := ⟨name, ty, size, array, loc⟩
    match ← ask Context.function with
    | none => declareGlobal symbol loc
    | some f => declareLocal f symbol isParam loc

/-- The symbol of a name. -/
def lookup (name : String) (loc : Location) : Lower SymbolId := do
  require (← ask fun c => c.find? name) (.undeclared name) loc

/-- The number of a string literal.  A frozen program has to have it already. -/
def internString (text : String) (loc : Location) : Lower StringId := do
  if ← ask Context.frozen then
    require (← ask fun c => c.program.string? text) (.uncompiledString text) loc
  else
    let id ← ask fun c => (c.program.internString text).1
    change fun c => { c with program := (c.program.internString text).2 }
    return id

end Lower

end MiniC
