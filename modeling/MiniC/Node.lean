/-
  Trees: what the parser makes of tokens.

  A node has a shape and a mark, which names the production that made it and says where it starts.
  The shape holds the parts.  Grouping leaves no trace: a production that adds nothing hands on the
  node of its part.
-/
import MiniC.Grammar
import MiniC.Operator
import MiniC.Ty
import MiniC.Text.Location

namespace MiniC

/-- The production that made a node, and where the node starts. -/
structure Mark where
  production : Production
  start : Location
  deriving Repr, DecidableEq

mutual

/-- A node of a tree. -/
inductive Node where
  | mk (mark : Mark) (shape : Shape)

/-- The parts of a node. -/
inductive Shape where
  | program (items : List Node)
  | structDef (name : String) (members : List Node)
  | functionDef (result : Base) (stars : Nat) (name : String) (params : List Node) (body : Node)
  | param (type : Base) (item : Node)
  | type (base : Base)
  | varDec (type : Base) (items : List Node)
  /-- A variable that is no array. -/
  | varItem (stars : Nat) (name : String)
  /-- A variable that is an array, with its size if one is written. -/
  | arrayItem (stars : Nat) (name : String) (size : Option Node)
  | block (statements : List Node)
  | ifElse (condition thenBranch : Node) (elseBranch : Option Node)
  | whileLoop (condition body : Node)
  | doWhile (body condition : Node)
  | forLoop (init condition increment : Option Node) (body : Node)
  | returns (value : Option Node)
  | breaks
  | continues
  | empty
  | exprStatement (expr : Node)
  | assign (left right : Node)
  | arrayInit (values : List Node)
  | binary (op : BinaryOp) (left right : Node)
  | unary (op : UnaryOp) (operand : Node)
  | deref (operand : Node)
  | addressOf (operand : Node)
  | sizeofType (base : Base) (stars : Nat)
  | sizeofExpr (operand : Node)
  | index (base index : Node)
  | member (object : Node) (field : String)
  | pointerMember (pointer : Node) (field : String)
  | call (name : String) (args : List Node)
  | intLiteral (value : Word)
  | charLiteral (value : Word)
  | stringLiteral (text : String)
  | null
  | identifier (name : String)

end

namespace Node

/-- The mark of a node. -/
def mark : Node → Mark
  | mk mark _ => mark

/-- The shape of a node. -/
def shape : Node → Shape
  | mk _ shape => shape

/-- The production that made a node. -/
def production (n : Node) : Production := n.mark.production

/-- Where a node starts. -/
def start (n : Node) : Location := n.mark.start

/-- The same parts under the name of another production. -/
def retag (n : Node) (p : Production) : Node := .mk ⟨p, n.start⟩ n.shape

mutual

/-- The height of a tree: one more than the heights of its parts. -/
def height : Node → Nat
  | mk _ shape => shapeHeight shape + 1

/-- The greatest height among the parts of a shape. -/
def shapeHeight : Shape → Nat
  | .program items => heights items
  | .structDef _ members => heights members
  | .functionDef _ _ _ params body => max (heights params) (height body)
  | .param _ item => height item
  | .varDec _ items => heights items
  | .arrayItem _ _ (some size) => height size
  | .block statements => heights statements
  | .ifElse condition thenBranch none => max (height condition) (height thenBranch)
  | .ifElse condition thenBranch (some elseBranch) =>
    max (max (height condition) (height thenBranch)) (height elseBranch)
  | .whileLoop condition body => max (height condition) (height body)
  | .doWhile body condition => max (height body) (height condition)
  | .forLoop init condition increment body =>
    max (max (optionHeight init) (optionHeight condition))
      (max (optionHeight increment) (height body))
  | .returns (some value) => height value
  | .exprStatement expr => height expr
  | .assign left right => max (height left) (height right)
  | .arrayInit values => heights values
  | .binary _ left right => max (height left) (height right)
  | .unary _ operand => height operand
  | .deref operand => height operand
  | .addressOf operand => height operand
  | .sizeofExpr operand => height operand
  | .index base index => max (height base) (height index)
  | .member object _ => height object
  | .pointerMember pointer _ => height pointer
  | .call _ args => heights args
  | _ => 0

/-- The greatest height in a list of trees. -/
def heights : List Node → Nat
  | [] => 0
  | n :: ns => max (height n) (heights ns)

/-- The height of a tree that may be absent. -/
def optionHeight : Option Node → Nat
  | none => 0
  | some n => height n

end

end Node

end MiniC
