/-
  Lowering of statements.

  A declaration leaves nothing to do: inside a block it disappears, and where a statement has to
  stand, as the branch of a conditional or the body of a loop, it becomes the empty statement.
-/
import MiniC.Lowering.Expr

namespace MiniC.Lower

/-- The statement of an action at the place of a node. -/
def action (a : Action) (node : Node) : Lower Lowered := pure (.stmt (.mk a node.start))

/-- Lower a node where a statement has to stand. -/
def stmt (lower : Lowering) (node : Node) : Lower Stmt := do
  match ← lower node with
  | .stmt s => return s
  | .expr e => return .mk (.expr e) node.start
  | .declared => return .mk .empty node.start

/-- Lower an expression that is tested. -/
def condition (lower : Lowering) (node : Node) : Lower Expr := do
  let e ← value lower node
  if ¬ e.ty.isScalar then fail (.notScalar e.ty) node.start
  return e

/-- Lower a part that may be absent. -/
def optional {α : Type} (lower : Node → Lower α) : Option Node → Lower (Option α)
  | none => pure none
  | some node => do return some (← lower node)

/-- Lower the statements of a block. -/
def statements (lower : Lowering) : List Node → Lower (List Stmt)
  | [] => pure []
  | node :: nodes => do
    let first ← lower node
    let rest ← statements lower nodes
    match first with
    | .stmt s => return s :: rest
    | .expr e => return .mk (.expr e) node.start :: rest
    | .declared => return rest

/-- Lower the body of a loop. -/
def loopBody (lower : Lowering) (node : Node) : Lower Stmt := do
  enterLoop
  let body ← stmt lower node
  exitLoop
  return body

/-- A block, which has a scope of its own. -/
def block (lower : Lowering) (node : Node) : Lower Lowered := do
  match node.shape with
  | .block nodes =>
    enterScope
    let body ← statements lower nodes
    exitScope
    action (.block body) node
  | _ => malformed node

/-- A conditional. -/
def ifElse (lower : Lowering) (node : Node) : Lower Lowered := do
  match node.shape with
  | .ifElse test thenBranch elseBranch =>
    let c ← condition lower test
    let t ← stmt lower thenBranch
    let e ← optional (stmt lower) elseBranch
    action (.ifElse c t e) node
  | _ => malformed node

/-- A loop that tests first. -/
def whileLoop (lower : Lowering) (node : Node) : Lower Lowered := do
  match node.shape with
  | .whileLoop test body =>
    let c ← condition lower test
    let b ← loopBody lower body
    action (.whileLoop c b) node
  | _ => malformed node

/-- A loop that tests last. -/
def doWhile (lower : Lowering) (node : Node) : Lower Lowered := do
  match node.shape with
  | .doWhile body test =>
    let b ← loopBody lower body
    let c ← condition lower test
    action (.doWhile b c) node
  | _ => malformed node

/-- A loop with a head. -/
def forLoop (lower : Lowering) (node : Node) : Lower Lowered := do
  match node.shape with
  | .forLoop init test increment body =>
    let i ← optional (expr lower) init
    let c ← optional (condition lower) test
    let n ← optional (expr lower) increment
    let b ← loopBody lower body
    action (.forLoop i c n b) node
  | _ => malformed node

/-- The end of a function's body, with a value exactly if the function has a result. -/
def returns (lower : Lowering) (node : Node) : Lower Lowered := do
  match node.shape with
  | .returns value? =>
    let expected ← require (← ask Context.result?) .returnOutside node.start
    match value? with
    | none =>
      if ¬ expected.isVoid then fail .returnWithoutValue node.start
      action (.returns none) node
    | some part =>
      if expected.isVoid then fail .returnWithValue node.start
      let e ← value lower part
      if ¬ expected.assignable e.ty then fail (.returnType e.ty expected) part.start
      action (.returns (some e)) node
  | _ => malformed node

/-- The end of a loop or of one of its rounds. -/
def jump (node : Node) : Lower Lowered := do
  match node.shape with
  | .breaks =>
    if ¬ (← ask Context.inLoop) then fail (.outsideLoop .break_) node.start
    action .breaks node
  | .continues =>
    if ¬ (← ask Context.inLoop) then fail (.outsideLoop .continue_) node.start
    action .continues node
  | _ => malformed node

/-- An expression as a statement. -/
def exprStatement (lower : Lowering) (node : Node) : Lower Lowered := do
  match node.shape with
  | .exprStatement part =>
    let e ← expr lower part
    action (.expr e) node
  | _ => malformed node

end MiniC.Lower
