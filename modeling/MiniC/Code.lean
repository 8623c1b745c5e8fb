/-
  Code: what trees are lowered to and what the machine runs.

  An expression carries an operation, its type and the place it comes from; a statement carries an
  action and its place.  Names are gone: variables, functions, structures and string literals are
  numbers of entries in the tables of a program, and the layout of structures has become offsets
  and scales.  The values of an array initializer stay trees, with the names that are visible where
  they stand, and are lowered when the assignment runs.
-/
import MiniC.Node
import MiniC.Frames

namespace MiniC

/-- A string literal, by its number in the table of strings. -/
abbrev StringId := Nat

/-- A structure, by its number in the table of structures. -/
abbrev StructId := Nat

/-- Names of variables with their symbols; the first entry of a name counts. -/
abbrev Scope := List (String × SymbolId)

/-- The symbol of a name. -/
def Scope.find? (s : Scope) (name : String) : Option SymbolId := s.lookup name

mutual

/-- An expression: an operation with the type of its result and the place it comes from. -/
inductive Expr where
  | mk (op : Operation) (ty : Ty) (loc : Location)

/-- What an expression does. -/
inductive Operation where
  | const (value : Word)
  | str (id : StringId)
  | var (id : SymbolId)
  /-- The member of a structure at an offset, with its length if it is an array. -/
  | member (object : Expr) (offset : Nat) (array : Option Nat)
  | deref (pointer : Expr)
  | index (base index : Expr) (scale : Nat)
  | addressOf (place : Expr)
  | unary (op : UnaryOp) (operand : Expr)
  | binary (op : BinaryOp) (left right : Expr)
  | pointerOffset (pointer offset : Expr) (scale : Nat) (subtract : Bool)
  | pointerDiff (left right : Expr) (scale : Nat)
  /-- A call, with the structure that it allocates if its form says so. -/
  | call (function : FunctionId) (args : List Expr) (allocates : Option StructId)
  | assign (dst src : Expr)
  | arrayAssign (dst : Expr) (values : List Node) (scope : Scope)

end

namespace Expr

/-- The operation of an expression. -/
def op : Expr → Operation
  | mk op _ _ => op

/-- The type of an expression. -/
def ty : Expr → Ty
  | mk _ ty _ => ty

/-- The place an expression comes from. -/
def loc : Expr → Location
  | mk _ _ loc => loc

/-- The assignment of `src` to `dst`, at the type and the place of `dst`. -/
def assign (dst src : Expr) : Expr := .mk (.assign dst src) dst.ty dst.loc

/-- The assignment of values to an array, at the type and the place of the array. -/
def arrayAssign (dst : Expr) (values : List Node) (scope : Scope) : Expr :=
  .mk (.arrayAssign dst values scope) dst.ty dst.loc

/-- Whether an expression stands for a place in memory. -/
def isPlace (e : Expr) : Bool :=
  match e.op with
  | .var _ | .member .. | .deref _ | .index .. => true
  | _ => false

@[simp] theorem op_mk (o : Operation) (t : Ty) (l : Location) : (mk o t l).op = o := rfl

@[simp] theorem ty_mk (o : Operation) (t : Ty) (l : Location) : (mk o t l).ty = t := rfl

@[simp] theorem loc_mk (o : Operation) (t : Ty) (l : Location) : (mk o t l).loc = l := rfl

end Expr

mutual

/-- A statement: an action and the place it comes from. -/
inductive Stmt where
  | mk (action : Action) (loc : Location)

/-- What a statement does. -/
inductive Action where
  | expr (e : Expr)
  | block (body : List Stmt)
  | ifElse (condition : Expr) (thenBranch : Stmt) (elseBranch : Option Stmt)
  | whileLoop (condition : Expr) (body : Stmt)
  | doWhile (body : Stmt) (condition : Expr)
  | forLoop (init condition increment : Option Expr) (body : Stmt)
  | returns (value : Option Expr)
  | breaks
  | continues
  | empty

end

namespace Stmt

/-- The action of a statement. -/
def action : Stmt → Action
  | mk action _ => action

/-- The place a statement comes from. -/
def loc : Stmt → Location
  | mk _ loc => loc

end Stmt

end MiniC
