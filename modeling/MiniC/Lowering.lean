/-
  Lowering: from trees to code over the tables of a program.

  `Lower.rule` picks the rule of a node's production; `lower` ties the rules together.  The parts
  of a tree are less high than the tree, so its height bounds how deep the rules nest.
-/
import MiniC.Lowering.Decl

namespace MiniC

/-- The rule of a production. -/
def Lower.rule (lower : Lowering) (node : Node) : Lower Lowered :=
  match node.production with
  | .program => program lower node
  | .structDef => structDef lower node
  | .functionDef => functionDef lower node
  | .param => param node
  | .varDec => varDec lower node
  | .block => block lower node
  | .ifElse => ifElse lower node
  | .whileLoop => whileLoop lower node
  | .doWhile => doWhile lower node
  | .forLoop => forLoop lower node
  | .returns => returns lower node
  | .breaks | .continues => jump node
  | .empty => action .empty node
  | .exprStatement => exprStatement lower node
  | .assignment => assignment lower node
  | .arrayInit => fail .misplacedValues node.start
  | .logicalOr | .logicalAnd | .equality | .relational | .additive | .multiplicative =>
    binary lower node
  | .unary => unary lower node
  | .suffix => suffix lower node
  | .call => call lower node
  | .identifier => identifier node
  | .literal => literal node
  | .type | .varItem | .statement | .expr | .primary | .other _ =>
    fail (.notOnItsOwn node.production) node.start

/-- Lower one node: by its rule, if the grammar has the production and lets it be lowered. -/
def lowerStep (g : Grammar) (lower : Lowering) (node : Node) : Lower Lowered :=
  match g.find? node.production with
  | none => Lower.fail (.unknownProduction node.production) node.start
  | some entry =>
    if entry.lowers then Lower.rule lower node
    else Lower.fail (.notOnItsOwn node.production) node.start

/-- The lowering of trees up to a height. -/
def lowerWithin (g : Grammar) : Nat → Lowering
  | 0 => Lower.malformed
  | height + 1 => fun node c => lowerStep g (lowerWithin g height) node c

/-- Lower a tree. -/
def lower (g : Grammar) : Lowering := fun node => lowerWithin g node.height node

/-- Lower a tree that has to be an expression. -/
def lowerExpr (g : Grammar) : Node → Lower Expr := Lower.expr (lower g)

/-- Lower a tree where a statement has to stand. -/
def lowerStmt (g : Grammar) : Node → Lower Stmt := Lower.stmt (lower g)

/-- Add what a program's tree declares to a program. -/
def lowerProgram (g : Grammar) (p : Program) (root : Node) : Except CompileError Program :=
  match lower g root (.building p) with
  | .ok (_, c) => .ok c.program
  | .error e => .error e

end MiniC
