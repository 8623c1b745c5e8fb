/-
  Renderings: the ways a tree can be written.

  `Derives` gives the syntax of the language as rules, one for each way of writing a construct.  It
  says nothing about how tokens are read: binary operators group to the left because the rule for
  them is left recursive, an expression stands in a place that asks for a tighter one only in
  parentheses, and an `else` belongs to the nearest `if` because the branch in front of it must not
  end in an `if` that could take it.

  A rendering is about the words alone, so trees and tokens are compared without their places: a
  `Lexeme` is a token without one, and `Node.unplaced` is a tree without them.
-/
import MiniC.Node.Parser

namespace MiniC

/-! ## Words without places -/

/-- A word of the source, whatever its place. -/
inductive Lexeme where
  | number (digits : String)
  | character (text : String)
  | string (text : String)
  | name (text : String)
  | keyword (k : Keyword)
  | mark (p : Punct)
  deriving Repr, DecidableEq

/-- The kind of the tokens that spell a word. -/
def Lexeme.kind : Lexeme → TokenKind
  | number _ => .intLiteral
  | character _ => .charLiteral
  | string _ => .stringLiteral
  | name _ => .identifier
  | keyword k => .keyword k
  | mark p => .punct p

/-- The content of the tokens that spell a word. -/
def Lexeme.content : Lexeme → String
  | number s | character s | string s | name s => s
  | keyword k => k.text
  | mark p => p.text

/-- The word that a token spells; the end of the file is no word. -/
def Token.lexeme? (t : Token) : Option Lexeme :=
  match t.kind with
  | .intLiteral => some (.number t.content)
  | .charLiteral => some (.character t.content)
  | .stringLiteral => some (.string t.content)
  | .identifier => some (.name t.content)
  | .keyword k => some (.keyword k)
  | .punct p => some (.mark p)
  | .endOfFile => none

/-- The words of a base type. -/
def Base.lexemes : Base → List Lexeme
  | int => [.keyword .int]
  | char => [.keyword .char]
  | void => [.keyword .void]
  | struct name => [.keyword .struct, .name name]

/-- The literal that a word is. -/
def Lexeme.literal? : Lexeme → Option Shape
  | number digits => (Word.ofText? digits).map .intLiteral
  | character text => some (.charLiteral (Rule.charValue text))
  | string text => some (.stringLiteral text)
  | keyword .null => some .null
  | _ => none

/-- So many stars. -/
def Lexeme.stars (n : Nat) : List Lexeme := List.replicate n (.mark .star)

/-! ## Trees without places -/

namespace Node

mutual

/-- A tree whose nodes are all nowhere. -/
def unplaced : Node → Node
  | mk mark shape => .mk ⟨mark.production, .nowhere⟩ (unplacedShape shape)

/-- The parts of a shape, nowhere. -/
@[simp] def unplacedShape : Shape → Shape
  | .program items => .program (unplacedAll items)
  | .structDef name members => .structDef name (unplacedAll members)
  | .functionDef result stars name params body =>
    .functionDef result stars name (unplacedAll params) (unplaced body)
  | .param type item => .param type (unplaced item)
  | .type base => .type base
  | .varDec type items => .varDec type (unplacedAll items)
  | .varItem stars name => .varItem stars name
  | .arrayItem stars name size => .arrayItem stars name (unplacedOption size)
  | .block statements => .block (unplacedAll statements)
  | .ifElse condition thenBranch elseBranch =>
    .ifElse (unplaced condition) (unplaced thenBranch) (unplacedOption elseBranch)
  | .whileLoop condition body => .whileLoop (unplaced condition) (unplaced body)
  | .doWhile body condition => .doWhile (unplaced body) (unplaced condition)
  | .forLoop init condition increment body =>
    .forLoop (unplacedOption init) (unplacedOption condition) (unplacedOption increment)
      (unplaced body)
  | .returns value => .returns (unplacedOption value)
  | .breaks => .breaks
  | .continues => .continues
  | .empty => .empty
  | .exprStatement expr => .exprStatement (unplaced expr)
  | .assign left right => .assign (unplaced left) (unplaced right)
  | .arrayInit values => .arrayInit (unplacedAll values)
  | .binary op left right => .binary op (unplaced left) (unplaced right)
  | .unary op operand => .unary op (unplaced operand)
  | .deref operand => .deref (unplaced operand)
  | .addressOf operand => .addressOf (unplaced operand)
  | .sizeofType base stars => .sizeofType base stars
  | .sizeofExpr operand => .sizeofExpr (unplaced operand)
  | .index base number => .index (unplaced base) (unplaced number)
  | .member object field => .member (unplaced object) field
  | .pointerMember pointer field => .pointerMember (unplaced pointer) field
  | .call name args => .call name (unplacedAll args)
  | .intLiteral value => .intLiteral value
  | .charLiteral value => .charLiteral value
  | .stringLiteral text => .stringLiteral text
  | .null => .null
  | .identifier name => .identifier name

/-- Trees whose nodes are all nowhere. -/
def unplacedAll : List Node → List Node
  | [] => []
  | n :: ns => unplaced n :: unplacedAll ns

/-- A tree that may be absent, nowhere. -/
def unplacedOption : Option Node → Option Node
  | none => none
  | some n => some (unplaced n)

end

@[simp] theorem unplacedAll_eq_map (ns : List Node) : unplacedAll ns = ns.map unplaced := by
  induction ns with
  | nil => rfl
  | cons n ns ih => rw [unplacedAll, ih, List.map_cons]

@[simp] theorem unplacedOption_eq_map (o : Option Node) : unplacedOption o = o.map unplaced := by
  cases o <;> rfl

end Node

/-! ## Precedence -/

/-- How tightly the operators of an expression bind, from the loosest on. -/
inductive Precedence where
  | assignment | or | and | equality | relational | additive | multiplicative
  | unary | suffix | primary
  deriving Repr, DecidableEq

namespace Precedence

/-- The next tighter precedence; nothing binds tighter than a primary. -/
def tighter : Precedence → Precedence
  | assignment => or
  | or => and
  | and => equality
  | equality => relational
  | relational => additive
  | additive => multiplicative
  | multiplicative => unary
  | unary => suffix
  | suffix => primary
  | primary => primary

/-- The production of the expressions of a precedence. -/
def production : Precedence → Production
  | assignment => .assignment
  | or => .logicalOr
  | and => .logicalAnd
  | equality => .equality
  | relational => .relational
  | additive => .additive
  | multiplicative => .multiplicative
  | unary => .unary
  | suffix => .suffix
  | primary => .primary

end Precedence

namespace BinaryOp

/-- The precedence of a binary operator. -/
def precedence : BinaryOp → Precedence
  | or => .or
  | and => .and
  | eq | ne => .equality
  | lt | le | gt | ge => .relational
  | add | sub => .additive
  | mul | div | mod => .multiplicative

/-- The mark that a binary operator is written as. -/
def mark : BinaryOp → Punct
  | add => .plus | sub => .minus | mul => .star | div => .slash | mod => .percent
  | eq => .eqEq | ne => .notEq | lt => .lt | le => .le | gt => .gt | ge => .ge
  | and => .andAnd | or => .orOr

end BinaryOp

/-- The mark that a unary operator is written as. -/
def UnaryOp.mark : UnaryOp → Punct
  | neg => .minus
  | not => .bang

/-! ## Syntax -/

/-- The production that the nodes of a shape belong to. -/
@[simp] def Shape.production : Shape → Production
  | program _ => .program
  | structDef .. => .structDef
  | functionDef .. => .functionDef
  | param .. => .param
  | type _ => .type
  | varDec .. => .varDec
  | varItem .. | arrayItem .. => .varItem
  | block _ => .block
  | ifElse .. => .ifElse
  | whileLoop .. => .whileLoop
  | doWhile .. => .doWhile
  | forLoop .. => .forLoop
  | returns _ => .returns
  | breaks => .breaks
  | continues => .continues
  | empty => .empty
  | exprStatement _ => .exprStatement
  | assign .. => .assignment
  | arrayInit _ => .arrayInit
  | binary op _ _ => op.precedence.production
  | unary .. | deref _ | addressOf _ | sizeofType .. | sizeofExpr _ => .unary
  | index .. | member .. | pointerMember .. => .suffix
  | call .. => .call
  | intLiteral _ | charLiteral _ | stringLiteral _ | null => .literal
  | identifier _ => .identifier

/-- The node of a shape, nowhere. -/
@[simp] def Shape.node (shape : Shape) : Node := .mk ⟨shape.production, .nowhere⟩ shape

/-- The node of a literal has no parts with places. -/
theorem Lexeme.node_of_literal? {l : Lexeme} {shape : Shape} (h : l.literal? = some shape) :
    .mk ⟨.literal, .nowhere⟩ (Node.unplacedShape shape) = shape.node := by
  unfold literal? at h
  split at h
  case h_1 =>
    obtain ⟨w, -, rfl⟩ := Option.map_eq_some_iff.1 h
    rfl
  all_goals cases h
  all_goals rfl

/-- The sorts of construct that are written as one tree. -/
inductive Category where
  /-- An expression that binds at least so tightly. -/
  | expr (level : Precedence)
  /-- Values in braces. -/
  | initializer
  /-- A declared name with its stars and brackets. -/
  | declarator
  | declaration
  | parameter
  | block
  /-- A statement; unless `dangling`, an `else` behind it cannot belong to an `if` inside it. -/
  | statement (dangling : Bool)
  /-- A definition or declaration at the top of a program. -/
  | item
  | program
  deriving Repr, DecidableEq

/-- What can be written: a construct, or several of them. -/
inductive Phrase where
  | one (sort : Category) (n : Node)
  /-- An expression, or nothing. -/
  | optional (n? : Option Node)
  /-- One or more constructs with commas between them. -/
  | listed (sort : Category) (ns : List Node)
  /-- Expressions with commas between them, or nothing. -/
  | values (ns : List Node)
  /-- What stands between the parentheses of a function's head. -/
  | parameters (ns : List Node)
  /-- Constructs one after another. -/
  | series (sort : Category) (ns : List Node)

open Lexeme (stars)

/-- `Derives x ls` says that the words `ls` are a way to write `x`. -/
inductive Derives : Phrase → List Lexeme → Prop
  -- Expressions.  What binds tighter may stand where something looser may; what binds looser needs
  -- parentheses, which are allowed around any expression.
  | loosen {ℓ : Precedence} {n : Node} {ls : List Lexeme} :
    Derives (.one (.expr ℓ.tighter) n) ls → Derives (.one (.expr ℓ) n) ls
  | group {n : Node} {ls : List Lexeme} :
    Derives (.one (.expr .assignment) n) ls →
      Derives (.one (.expr .primary) n) (.mark .lparen :: (ls ++ [.mark .rparen]))
  | assign {l r : Node} {ls rs : List Lexeme} :
    Derives (.one (.expr .or) l) ls → Derives (.one (.expr .assignment) r) rs →
      Derives (.one (.expr .assignment) (Shape.assign l r).node) (ls ++ .mark .assign :: rs)
  | assignValues {l r : Node} {ls rs : List Lexeme} :
    Derives (.one (.expr .or) l) ls → Derives (.one .initializer r) rs →
      Derives (.one (.expr .assignment) (Shape.assign l r).node) (ls ++ .mark .assign :: rs)
  | initializer {ns : List Node} {ls : List Lexeme} :
    Derives (.values ns) ls →
      Derives (.one .initializer (Shape.arrayInit ns).node)
        (.mark .lbrace :: (ls ++ [.mark .rbrace]))
  | binary {op : BinaryOp} {l r : Node} {ls rs : List Lexeme} :
    Derives (.one (.expr op.precedence) l) ls → Derives (.one (.expr op.precedence.tighter) r) rs →
      Derives (.one (.expr op.precedence) (Shape.binary op l r).node) (ls ++ .mark op.mark :: rs)
  | unary {op : UnaryOp} {n : Node} {ls : List Lexeme} :
    Derives (.one (.expr .unary) n) ls →
      Derives (.one (.expr .unary) (Shape.unary op n).node) (.mark op.mark :: ls)
  | deref {n : Node} {ls : List Lexeme} :
    Derives (.one (.expr .unary) n) ls →
      Derives (.one (.expr .unary) (Shape.deref n).node) (.mark .star :: ls)
  | addressOf {n : Node} {ls : List Lexeme} :
    Derives (.one (.expr .unary) n) ls →
      Derives (.one (.expr .unary) (Shape.addressOf n).node) (.mark .amp :: ls)
  | sizeofExpr {n : Node} {ls : List Lexeme} :
    Derives (.one (.expr .unary) n) ls →
      Derives (.one (.expr .unary) (Shape.sizeofExpr n).node) (.keyword .sizeof :: ls)
  | sizeofType (b : Base) (k : Nat) :
    Derives (.one (.expr .unary) (Shape.sizeofType b k).node)
      (.keyword .sizeof :: .mark .lparen :: (b.lexemes ++ (stars k ++ [.mark .rparen])))
  | index {b i : Node} {bs ls : List Lexeme} :
    Derives (.one (.expr .suffix) b) bs → Derives (.one (.expr .assignment) i) ls →
      Derives (.one (.expr .suffix) (Shape.index b i).node)
        (bs ++ .mark .lbracket :: (ls ++ [.mark .rbracket]))
  | member {n : Node} {ls : List Lexeme} (f : String) :
    Derives (.one (.expr .suffix) n) ls →
      Derives (.one (.expr .suffix) (Shape.member n f).node) (ls ++ [.mark .dot, .name f])
  | pointerMember {n : Node} {ls : List Lexeme} (f : String) :
    Derives (.one (.expr .suffix) n) ls →
      Derives (.one (.expr .suffix) (Shape.pointerMember n f).node) (ls ++ [.mark .arrow, .name f])
  | call {ns : List Node} {ls : List Lexeme} (f : String) :
    Derives (.values ns) ls →
      Derives (.one (.expr .suffix) (Shape.call f ns).node)
        (.name f :: .mark .lparen :: (ls ++ [.mark .rparen]))
  | literal {l : Lexeme} {shape : Shape} :
    l.literal? = some shape → Derives (.one (.expr .primary) shape.node) [l]
  | identifier (x : String) :
    Derives (.one (.expr .primary) (Shape.identifier x).node) [.name x]
  -- Declarations.
  | scalar (k : Nat) (x : String) :
    Derives (.one .declarator (Shape.varItem k x).node) (stars k ++ [.name x])
  | unsized (k : Nat) (x : String) :
    Derives (.one .declarator (Shape.arrayItem k x none).node)
      (stars k ++ [.name x, .mark .lbracket, .mark .rbracket])
  | sized {n : Node} {ls : List Lexeme} (k : Nat) (x : String) :
    Derives (.one (.expr .assignment) n) ls →
      Derives (.one .declarator (Shape.arrayItem k x (some n)).node)
        (stars k ++ .name x :: .mark .lbracket :: (ls ++ [.mark .rbracket]))
  | declaration {ns : List Node} {ls : List Lexeme} (b : Base) :
    Derives (.listed .declarator ns) ls →
      Derives (.one .declaration (Shape.varDec b ns).node) (b.lexemes ++ (ls ++ [.mark .semicolon]))
  | parameter {n : Node} {ls : List Lexeme} (b : Base) :
    Derives (.one .declarator n) ls →
      Derives (.one .parameter (Shape.param b n).node) (b.lexemes ++ ls)
  -- Statements.  A declaration stands wherever a statement may.
  | block {ns : List Node} {ls : List Lexeme} :
    Derives (.series (.statement true) ns) ls →
      Derives (.one .block (Shape.block ns).node) (.mark .lbrace :: (ls ++ [.mark .rbrace]))
  | blockStatement {d : Bool} {n : Node} {ls : List Lexeme} :
    Derives (.one .block n) ls → Derives (.one (.statement d) n) ls
  | declared {d : Bool} {n : Node} {ls : List Lexeme} :
    Derives (.one .declaration n) ls → Derives (.one (.statement d) n) ls
  | ifThen {c t : Node} {cs ts : List Lexeme} :
    Derives (.one (.expr .assignment) c) cs → Derives (.one (.statement true) t) ts →
      Derives (.one (.statement true) (Shape.ifElse c t none).node)
        (.keyword .if_ :: .mark .lparen :: (cs ++ .mark .rparen :: ts))
  | ifElse {d : Bool} {c t e : Node} {cs ts es : List Lexeme} :
    Derives (.one (.expr .assignment) c) cs → Derives (.one (.statement false) t) ts →
      Derives (.one (.statement d) e) es →
      Derives (.one (.statement d) (Shape.ifElse c t (some e)).node)
        (.keyword .if_ :: .mark .lparen :: (cs ++ .mark .rparen :: (ts ++ .keyword .else_ :: es)))
  | whileLoop {d : Bool} {c b : Node} {cs bs : List Lexeme} :
    Derives (.one (.expr .assignment) c) cs → Derives (.one (.statement d) b) bs →
      Derives (.one (.statement d) (Shape.whileLoop c b).node)
        (.keyword .while_ :: .mark .lparen :: (cs ++ .mark .rparen :: bs))
  | doWhile {d : Bool} {b c : Node} {bs cs : List Lexeme} :
    Derives (.one (.statement true) b) bs → Derives (.one (.expr .assignment) c) cs →
      Derives (.one (.statement d) (Shape.doWhile b c).node)
        (.keyword .do_ ::
          (bs ++ .keyword .while_ :: .mark .lparen :: (cs ++ [.mark .rparen, .mark .semicolon])))
  | forLoop {d : Bool} {i c s : Option Node} {b : Node} {is cs ss bs : List Lexeme} :
    Derives (.optional i) is → Derives (.optional c) cs → Derives (.optional s) ss →
      Derives (.one (.statement d) b) bs →
      Derives (.one (.statement d) (Shape.forLoop i c s b).node)
        (.keyword .for_ :: .mark .lparen ::
          (is ++ .mark .semicolon :: (cs ++ .mark .semicolon :: (ss ++ .mark .rparen :: bs))))
  | returns {d : Bool} {n? : Option Node} {ls : List Lexeme} :
    Derives (.optional n?) ls →
      Derives (.one (.statement d) (Shape.returns n?).node)
        (.keyword .return_ :: (ls ++ [.mark .semicolon]))
  | breaks {d : Bool} :
    Derives (.one (.statement d) Shape.breaks.node) [.keyword .break_, .mark .semicolon]
  | continues {d : Bool} :
    Derives (.one (.statement d) Shape.continues.node) [.keyword .continue_, .mark .semicolon]
  | empty {d : Bool} : Derives (.one (.statement d) Shape.empty.node) [.mark .semicolon]
  | exprStatement {d : Bool} {n : Node} {ls : List Lexeme} :
    Derives (.one (.expr .assignment) n) ls →
      Derives (.one (.statement d) (Shape.exprStatement n).node) (ls ++ [.mark .semicolon])
  -- Programs.
  | structDef {ns : List Node} {ls : List Lexeme} (x : String) :
    Derives (.series .declaration ns) ls →
      Derives (.one .item (Shape.structDef x ns).node)
        (.keyword .struct :: .name x :: .mark .lbrace :: (ls ++ [.mark .rbrace, .mark .semicolon]))
  | functionDef {ps : List Node} {n : Node} {ls bs : List Lexeme} (b : Base) (k : Nat)
    (x : String) :
    Derives (.parameters ps) ls → Derives (.one .block n) bs →
      Derives (.one .item (Shape.functionDef b k x ps n).node)
        (b.lexemes ++ (stars k ++ .name x :: .mark .lparen :: (ls ++ .mark .rparen :: bs)))
  | global {n : Node} {ls : List Lexeme} :
    Derives (.one .declaration n) ls → Derives (.one .item n) ls
  | program {ns : List Node} {ls : List Lexeme} :
    Derives (.series .item ns) ls → Derives (.one .program (Shape.program ns).node) ls
  -- Several constructs.
  | absent : Derives (.optional none) []
  | present {n : Node} {ls : List Lexeme} :
    Derives (.one (.expr .assignment) n) ls → Derives (.optional (some n)) ls
  | last {s : Category} {n : Node} {ls : List Lexeme} :
    Derives (.one s n) ls → Derives (.listed s [n]) ls
  | more {s : Category} {n : Node} {ns : List Node} {ls ms : List Lexeme} :
    Derives (.one s n) ls → Derives (.listed s ns) ms →
      Derives (.listed s (n :: ns)) (ls ++ .mark .comma :: ms)
  | noValues : Derives (.values []) []
  | someValues {ns : List Node} {ls : List Lexeme} :
    Derives (.listed (.expr .assignment) ns) ls → Derives (.values ns) ls
  | noParameters : Derives (.parameters []) []
  | voidParameters : Derives (.parameters []) [.keyword .void]
  | someParameters {ns : List Node} {ls : List Lexeme} :
    Derives (.listed .parameter ns) ls → Derives (.parameters ns) ls
  | nil {s : Category} : Derives (.series s []) []
  | cons {s : Category} {n : Node} {ns : List Node} {ls ms : List Lexeme} :
    Derives (.one s n) ls → Derives (.series s ns) ms → Derives (.series s (n :: ns)) (ls ++ ms)

/-- An identifier is an expression of every precedence. -/
theorem Derives.name (ℓ : Precedence) (x : String) :
    Derives (.one (.expr ℓ) (Shape.identifier x).node) [.name x] := by
  cases ℓ <;> repeat first | exact .identifier x | apply Derives.loosen

/-- A statement that leaves no `if` without its `else` may stand where others may. -/
theorem Derives.dangling {d : Bool} {n : Node} {ls : List Lexeme}
    (h : Derives (.one (.statement d) n) ls) : Derives (.one (.statement true) n) ls := by
  generalize hx : Phrase.one (.statement d) n = x at h
  induction h generalizing n d with
  | blockStatement h => cases hx; exact .blockStatement h
  | declared h => cases hx; exact .declared h
  | ifThen hc ht => cases hx; exact .ifThen hc ht
  | ifElse hc ht _ _ _ ihe => cases hx; exact .ifElse hc ht (ihe rfl)
  | whileLoop hc _ _ ihb => cases hx; exact .whileLoop hc (ihb rfl)
  | doWhile hb hc => cases hx; exact .doWhile hb hc
  | forLoop hi hc hs _ _ _ _ ihb => cases hx; exact .forLoop hi hc hs (ihb rfl)
  | returns h => cases hx; exact .returns h
  | breaks => cases hx; exact .breaks
  | continues => cases hx; exact .continues
  | empty => cases hx; exact .empty
  | exprStatement h => cases hx; exact .exprStatement h
  | _ => cases hx

/-- The tokens are a way to write the tree as a whole program, places aside. -/
def Node.RenderedAs (t : Node) (ts : List Token) : Prop :=
  Derives (.one .program t.unplaced) (ts.filterMap Token.lexeme?)

end MiniC
