/-
  Lowering of expressions: the rules that give an expression its operation and its type.

  As in the parser, a rule does not call other rules but is given the lowering of the parts.  An
  array is used at the type of a pointer to its elements; only `sizeof`, `&` and the left side of an
  assignment look at its length.
-/
import MiniC.Lowering.Context

namespace MiniC

/-- What a tree is lowered to: code, or entries in the tables. -/
inductive Lowered where
  | expr (e : Expr)
  | stmt (s : Stmt)
  | declared

/-- A lowering of trees. -/
abbrev Lowering := Node → Lower Lowered

namespace Lower

/-- The fault that the parts of a node do not fit its production. -/
def malformed {α : Type} (node : Node) : Lower α := fail (.malformed node.production) node.start

/-- The expression of an operation at the place of a node. -/
def expression (op : Operation) (ty : Ty) (node : Node) : Lower Lowered :=
  pure (.expr (.mk op ty node.start))

/-- Lower a node that has to be an expression. -/
def expr (lower : Lowering) (node : Node) : Lower Expr := do
  match ← lower node with
  | .expr e => return e
  | _ => fail .expectedExpression node.start

/-- Lower an expression that has to have a value. -/
def value (lower : Lowering) (node : Node) : Lower Expr := do
  let e ← expr lower node
  if e.ty.isVoid then fail .voidValue node.start
  return e

/-! ## Assignments -/

/-- Lower values and check that they can be stored in elements of a type. -/
def checkValues (lower : Lowering) (element : Ty) : List Node → Lower (List Expr)
  | [] => pure []
  | node :: nodes => do
    let e ← value lower node
    if ¬ element.assignable e.ty then fail (.initialType element e.ty) node.start
    let es ← checkValues lower element nodes
    return e :: es

/-- The assignment of the values that `init` lists to an array of the given length. -/
def arrayAssign (lower : Lowering) (dst : Expr) (length : Nat) (values : List Node) (init : Node) :
    Lower Expr := do
  if length < values.length then fail (.tooManyValues length values.length) init.start
  match dst.ty.pointee with
  | none => malformed init
  | some element =>
    if ¬ element.isScalar then fail (.unsupportedElements element) init.start
    let es ← checkValues lower element values
    let e := Expr.arrayAssign dst values (← ask Context.visibleNames)
    change fun c => c.noteAssigned e es
    return e

/-- The assignment of a single value. -/
def scalarAssign (lower : Lowering) (dst : Expr) (left right node : Node) : Lower Expr := do
  if ¬ dst.isPlace then fail .assignedNoPlace left.start
  if (← ask fun c => c.arrayLength? dst).isSome then fail .assignedArray left.start
  let src ← value lower right
  if ¬ dst.ty.assignable src.ty then fail (.assignedType dst.ty src.ty) node.start
  return .assign dst src

/-- An assignment, of a list of values if the left side is an array. -/
def assignment (lower : Lowering) (node : Node) : Lower Lowered := do
  match node.shape with
  | .assign left right =>
    let dst ← expr lower left
    match right.shape, ← ask fun c => c.arrayLength? dst with
    | .arrayInit values, some length =>
      return .expr (← arrayAssign lower dst length values right)
    | _, _ => return .expr (← scalarAssign lower dst left right node)
  | _ => malformed node

/-! ## Operators -/

/-- A pointer moved by a number of elements. -/
def pointerOffset (pointer offset : Expr) (subtract : Bool) (node : Node) : Lower Lowered := do
  match pointer.ty.pointee with
  | none => malformed node
  | some pointee =>
    if pointee.isVoid then fail .voidArithmetic node.start
    let scale ← sizeOf pointee node.start
    expression (.pointerOffset pointer offset scale subtract) pointer.ty node

/-- The number of elements between two pointers. -/
def pointerDiff (left right : Expr) (node : Node) : Lower Lowered := do
  match left.ty.pointee with
  | none => malformed node
  | some pointee =>
    let scale ← sizeOf pointee node.start
    expression (.pointerDiff left right scale) Ty.int node

/-- A binary operator on two operands that have been lowered. -/
def combine (op : BinaryOp) (left right : Expr) (node : Node) : Lower Lowered :=
  let plain := expression (.binary op left right) Ty.int node
  let refuse := fail (.operands op left.ty right.ty) node.start
  let l := left.ty
  let r := right.ty
  match op with
  | .add =>
    if l.isArithmetic ∧ r.isArithmetic then plain
    else if l.isPointer ∧ r.isArithmetic then pointerOffset left right false node
    else if l.isArithmetic ∧ r.isPointer then pointerOffset right left false node
    else refuse
  | .sub =>
    if l.isArithmetic ∧ r.isArithmetic then plain
    else if l.isPointer ∧ r.isArithmetic then pointerOffset left right true node
    else if l.isPointer ∧ l = r then pointerDiff left right node
    else refuse
  | .mul | .div | .mod => if l.isArithmetic ∧ r.isArithmetic then plain else refuse
  | .eq | .ne | .lt | .le | .gt | .ge | .and | .or =>
    if l.isScalar ∧ r.isScalar then plain else refuse

/-- A binary operator. -/
def binary (lower : Lowering) (node : Node) : Lower Lowered := do
  match node.shape with
  | .binary op left right =>
    let l ← value lower left
    let r ← value lower right
    combine op l r node
  | _ => malformed node

/-- An operator on one word. -/
def unaryOp (lower : Lowering) (op : UnaryOp) (operand node : Node) : Lower Lowered := do
  let e ← value lower operand
  let accepted : Bool := match op with
    | .neg => e.ty.isArithmetic
    | .not => e.ty.isScalar
  if ¬ accepted then fail (.unaryOperand op e.ty) node.start
  expression (.unary op e) Ty.int node

/-- What a pointer points to. -/
def deref (lower : Lowering) (operand node : Node) : Lower Lowered := do
  let e ← value lower operand
  let pointee ← require e.ty.pointee (.dereferenced e.ty) node.start
  expression (.deref e) pointee node

/-- The address of a place; that of an array is the address of its first element. -/
def addressOf (lower : Lowering) (operand node : Node) : Lower Lowered := do
  let e ← expr lower operand
  if ¬ e.isPlace then fail .addressOfNoPlace node.start
  let isArray := (← ask fun c => c.arrayLength? e).isSome
  expression (.addressOf e) (if isArray then e.ty else e.ty.pointer) node

/-- The storage of an expression: all elements of an array, else that of its type. -/
def sizeofExpr (lower : Lowering) (operand node : Node) : Lower Nat := do
  let e ← expr lower operand
  match ← ask fun c => c.arrayLength? e with
  | some length =>
    match e.ty.pointee with
    | none => malformed node
    | some element => return length * (← sizeOf element node.start)
  | none => sizeOf e.ty node.start

/-- An operator in front of its operand. -/
def unary (lower : Lowering) (node : Node) : Lower Lowered := do
  match node.shape with
  | .unary op operand => unaryOp lower op operand node
  | .deref operand => deref lower operand node
  | .addressOf operand => addressOf lower operand node
  | .sizeofType base stars =>
    let ty ← resolveType base stars node.start
    let size ← sizeOf ty node.start
    expression (.const (Int32.ofNat size)) Ty.int node
  | .sizeofExpr operand =>
    let size ← sizeofExpr lower operand node
    expression (.const (Int32.ofNat size)) Ty.int node
  | _ => malformed node

/-! ## Subscripts and members -/

/-- An element of an array; the number may stand on either side of the bracket. -/
def subscript (left right : Expr) (node : Node) : Lower Lowered := do
  let swapped : Bool := left.ty.isArithmetic && right.ty.isPointer
  let base := if swapped then right else left
  let index := if swapped then left else right
  if ¬ base.ty.isPointer ∨ ¬ index.ty.isArithmetic then fail .notSubscriptable node.start
  match base.ty.pointee with
  | none => malformed node
  | some element =>
    if element.isVoid then fail .voidElement node.start
    let scale ← sizeOf element node.start
    expression (.index base index scale) element node

/-- A member of a structure. -/
def member (object : Expr) (field : String) (node : Node) : Lower Lowered := do
  let name ← require object.ty.structName? (.memberOfNoStruct field) node.start
  let layout ← require (← ask fun c => c.program.layout? name) (.unknownStruct name) node.start
  let m ← require (layout.member? field) (.noMember name field) node.start
  expression (.member object m.offset m.arrayLength) m.ty node

/-- A subscript or a member selection. -/
def suffix (lower : Lowering) (node : Node) : Lower Lowered := do
  match node.shape with
  | .index base index =>
    let l ← value lower base
    let r ← value lower index
    subscript l r node
  | .member object field => member (← expr lower object) field node
  | .pointerMember pointer field =>
    let p ← value lower pointer
    match p.ty.pointee with
    | some pointee =>
      if pointee.structName?.isSome then member (.mk (.deref p) pointee node.start) field node
      else fail (.arrowOperand p.ty) node.start
    | none => fail (.arrowOperand p.ty) node.start
  | _ => malformed node

/-! ## Calls and atoms -/

/-- Lower arguments and check them against the types of parameters; `number` counts them. -/
def arguments (lower : Lowering) (name : String) (number : Nat) :
    List Node → List Ty → Lower (List Expr)
  | arg :: args, param :: params => do
    let e ← value lower arg
    if ¬ param.assignable e.ty then fail (.argumentType number name param e.ty) arg.start
    let es ← arguments lower name (number + 1) args params
    return e :: es
  | _, _ => pure []

/-- The structure that a call of `malloc` allocates, by the form of its argument. -/
def allocated? (p : Program) (f : Function) (args : List Node) : Option StructId :=
  match args.head?.map Node.shape with
  | some (.sizeofType (.struct name) 0) =>
    if f.isBuiltin ∧ f.name = "malloc" then p.struct? name else none
  | _ => none

/-- A call. -/
def call (lower : Lowering) (node : Node) : Lower Lowered := do
  match node.shape with
  | .call name args =>
    let id ← require (← ask fun c => c.program.function? name) (.undeclaredFunction name) node.start
    let f ← ask fun c => c.program.function id
    if f.params.length < args.length then fail (.tooManyArguments name) node.start
    if args.length < f.params.length then fail (.tooFewArguments name) node.start
    let params ← ask fun c => f.params.map fun p => (c.program.symbol p).ty
    let es ← arguments lower name 1 args params
    let allocates ← ask fun c => allocated? c.program f args
    expression (.call id es allocates) f.result node
  | _ => malformed node

/-- A variable. -/
def identifier (node : Node) : Lower Lowered := do
  match node.shape with
  | .identifier name =>
    let id ← lookup name node.start
    let ty ← ask fun c => (c.program.symbol id).ty
    expression (.var id) ty node
  | _ => malformed node

/-- A literal. -/
def literal (node : Node) : Lower Lowered := do
  match node.shape with
  | .intLiteral value => expression (.const value) Ty.int node
  | .charLiteral value => expression (.const value) Ty.char node
  | .stringLiteral text =>
    let id ← internString text node.start
    expression (.str id) Ty.char.pointer node
  | .null => expression (.const 0) Ty.voidPointer node
  | _ => malformed node

end Lower

end MiniC
