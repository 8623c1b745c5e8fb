/-
  The grammar: which productions the language has.

  A production is known by its name.  The grammar lists the productions in use and says of each
  whether its trees can be lowered to code.  The same list serves the parser and the lowering, so
  a production that is left out is unknown to both.
-/
namespace MiniC

/-- The productions of the language, and names that stand for none of them. -/
inductive Production where
  | program | structDef | functionDef | param | type | varDec | varItem
  | statement | block | ifElse | whileLoop | doWhile | forLoop
  | returns | breaks | continues | empty | exprStatement
  | expr | assignment | arrayInit | logicalOr | logicalAnd | equality | relational | additive
  | multiplicative | unary | suffix | primary | call | identifier | literal
  | other (name : String)
  deriving Repr, DecidableEq, Inhabited

namespace Production

/-- The productions of the language in the order of the grammar. -/
def all : List Production :=
  [program, structDef, functionDef, param, type, varDec, varItem,
    statement, block, ifElse, whileLoop, doWhile, forLoop,
    returns, breaks, continues, empty, exprStatement,
    expr, assignment, arrayInit, logicalOr, logicalAnd, equality, relational, additive,
    multiplicative, unary, suffix, primary, call, identifier, literal]

/-- The name of a production. -/
def name : Production → String
  | program => "program" | structDef => "struct-def" | functionDef => "function-def"
  | param => "param" | type => "type" | varDec => "var-dec" | varItem => "var-item"
  | statement => "statement" | block => "block" | ifElse => "if" | whileLoop => "while"
  | doWhile => "do-while" | forLoop => "for" | returns => "return" | breaks => "break"
  | continues => "continue" | empty => "empty" | exprStatement => "expr-statement"
  | expr => "expr" | assignment => "assignment" | arrayInit => "array-init"
  | logicalOr => "logical-or" | logicalAnd => "logical-and" | equality => "equality"
  | relational => "relational" | additive => "additive" | multiplicative => "multiplicative"
  | unary => "unary" | suffix => "postfix" | primary => "primary" | call => "call"
  | identifier => "identifier" | literal => "literal"
  | other name => name

/-- The production with a given name. -/
def ofName (s : String) : Production := (all.find? fun p => p.name = s).getD (.other s)

/-- Whether the trees of a production mean something on their own. -/
def lowers : Production → Bool
  | type | varItem | statement | expr | primary | other _ => false
  | _ => true

end Production

/-- A production in use, and whether its trees can be lowered. -/
structure Entry where
  production : Production
  lowers : Bool
  deriving Repr, DecidableEq

/-- The productions in use, each listed once. -/
structure Grammar where
  entries : List Entry
  deriving Repr, DecidableEq

namespace Grammar

/-- The grammar without productions. -/
def empty : Grammar := ⟨[]⟩

/-- The grammar of the whole language. -/
def full : Grammar := ⟨Production.all.map fun p => ⟨p, p.lowers⟩⟩

/-- The entry of a production. -/
def find? (g : Grammar) (p : Production) : Option Entry := g.entries.find? fun e => e.production = p

/-- Whether a production is in use. -/
def contains (g : Grammar) (p : Production) : Bool := (g.find? p).isSome

/-- Take a production into use, unless it already is. -/
def register? (g : Grammar) (p : Production) (lowers : Bool) : Option Grammar :=
  if g.contains p then none else some ⟨g.entries ++ [⟨p, lowers⟩]⟩

/-- The grammar without some productions. -/
def without (g : Grammar) (ps : List Production) : Grammar :=
  ⟨g.entries.filter fun e => e.production ∉ ps⟩

/-- The grammar in which the trees of some productions cannot be lowered. -/
def withoutLowering (g : Grammar) (ps : List Production) : Grammar :=
  ⟨g.entries.map fun e => if e.production ∈ ps then { e with lowers := false } else e⟩

/-- The message for a production that is taken into use twice. -/
def duplicateMessage (p : Production) : String :=
  "grammar production '" ++ p.name ++ "' is already registered"

end Grammar

end MiniC
