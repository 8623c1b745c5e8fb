/-
  The rules of the grammar: how each production reads its tokens.

  The rules do not call each other; each is given the parser for the productions that it is made of
  (`Productions`), and `parseWithin` ties them together through the grammar, which decides what a
  production's name stands for.  Every rule that calls another without taking a token first goes
  down the list of productions, so a bounded number of calls per token is enough nesting.
-/
import MiniC.Node
import MiniC.Node.Cursor

namespace MiniC

/-- A parser for every production. -/
abbrev Productions := Production → Parse Node

/-- What a rule makes: parts for a node of its own, or a node that it hands on. -/
inductive Parsed where
  | parts (shape : Shape)
  | whole (node : Node)

namespace Rule

/-! ## Types and declarations -/

/-- A type: a word that names one, or `struct` and a name. -/
def type : Parse Parsed := do
  match ← Parse.peek with
  | .keyword .int => discard Parse.advance; return .parts (.type .int)
  | .keyword .char => discard Parse.advance; return .parts (.type .char)
  | .keyword .void => discard Parse.advance; return .parts (.type .void)
  | .keyword .struct =>
    discard Parse.advance
    return .parts (.type (.struct (← Parse.name)))
  | _ => Parse.refuse .type

/-- The base that a type names. -/
def base (parse : Productions) : Parse Base := do
  let node ← parse .type
  match node.shape with
  | .type base => return base
  | _ => Parse.fail ⟨.notAType, node.start⟩

/-- A declared name with its stars and, for an array, its brackets. -/
def varItem (parse : Productions) : Parse Parsed := do
  let stars ← Parse.stars
  let name ← Parse.name
  if ← Parse.accept (.punct .lbracket) then
    if ← Parse.accept (.punct .rbracket) then return .parts (.arrayItem stars name none)
    let size ← parse .expr
    discard (Parse.expect (.punct .rbracket))
    return .parts (.arrayItem stars name (some size))
  return .parts (.varItem stars name)

/-- A declaration of variables. -/
def varDec (parse : Productions) : Parse Parsed := do
  let type ← base parse
  let items ← Parse.commaList (parse .varItem)
  discard (Parse.expect (.punct .semicolon))
  return .parts (.varDec type items)

/-- A parameter of a function. -/
def param (parse : Productions) : Parse Parsed := do
  let type ← base parse
  let item ← parse .varItem
  return .parts (.param type item)

/-- The definition of a structure. -/
def structDef (parse : Productions) : Parse Parsed := do
  discard (Parse.expect (.keyword .struct))
  let name ← Parse.name
  discard (Parse.expect (.punct .lbrace))
  let members ← Parse.upTo (· = .punct .rbrace) (parse .varDec)
  discard (Parse.expect (.punct .rbrace))
  discard (Parse.expect (.punct .semicolon))
  return .parts (.structDef name members)

/-- The parameters between the parentheses of a definition; `void` alone stands for none. -/
def params (parse : Productions) : Parse (List Node) := do
  let next ← Parse.peek
  if next = .keyword .void ∧ (← Parse.peekAhead 1) = .punct .rparen then
    discard Parse.advance
    return []
  if next = .punct .rparen then return []
  Parse.commaList (parse .param)

/-- The definition of a function. -/
def functionDef (parse : Productions) : Parse Parsed := do
  let result ← base parse
  let stars ← Parse.stars
  let name ← Parse.name
  discard (Parse.expect (.punct .lparen))
  let params ← params parse
  discard (Parse.expect (.punct .rparen))
  let body ← parse .block
  return .parts (.functionDef result stars name params body)

/-- Whether the tokens from the cursor on begin the definition of a structure. -/
def startsStruct (c : Cursor) : Bool :=
  c.kind = .keyword .struct && c.kindAhead 1 = .identifier && c.kindAhead 2 = .punct .lbrace

/-- Whether the tokens from the cursor on begin the definition of a function: a type, stars, a name
and an opening parenthesis. -/
def startsFunction (c : Cursor) : Bool :=
  let behindType := (c.here :: c.later).drop (if c.kind = .keyword .struct then 2 else 1)
  match behindType.dropWhile fun t => t.kind = .punct .star with
  | name :: paren :: _ => name.kind = .identifier && paren.kind = .punct .lparen
  | _ => false

/-- The production that the next item of a program belongs to. -/
def itemProduction (c : Cursor) : Production :=
  if startsStruct c then .structDef else if startsFunction c then .functionDef else .varDec

/-- A program: definitions and declarations up to the end of the file. -/
def program (parse : Productions) : Parse Parsed := do
  let items ← Parse.upTo (· = .endOfFile) fun c => parse (itemProduction c) c
  return .parts (.program items)

/-! ## Statements -/

/-- The production that a statement belongs to, by its first token. -/
def statementProduction : TokenKind → Production
  | .punct .lbrace => .block
  | .keyword .if_ => .ifElse
  | .keyword .while_ => .whileLoop
  | .keyword .do_ => .doWhile
  | .keyword .for_ => .forLoop
  | .keyword .return_ => .returns
  | .keyword .break_ => .breaks
  | .keyword .continue_ => .continues
  | .punct .semicolon => .empty
  | kind => if kind.startsType then .varDec else .exprStatement

/-- Any statement. -/
def statement (parse : Productions) : Parse Parsed := do
  return .whole (← parse (statementProduction (← Parse.peek)))

/-- Statements in braces. -/
def block (parse : Productions) : Parse Parsed := do
  discard (Parse.expect (.punct .lbrace))
  let statements ←
    Parse.upTo (fun kind => kind = .punct .rbrace || kind = .endOfFile) (parse .statement)
  discard (Parse.expect (.punct .rbrace))
  return .parts (.block statements)

/-- An expression in parentheses. -/
def parenthesized (parse : Productions) : Parse Node := do
  discard (Parse.expect (.punct .lparen))
  let expr ← parse .expr
  discard (Parse.expect (.punct .rparen))
  return expr

/-- An expression, unless the token that would follow it is next. -/
def optional (parse : Productions) (follow : TokenKind) : Parse (Option Node) := do
  if (← Parse.peek) = follow then return none
  return some (← parse .expr)

/-- A conditional; an `else` belongs to the nearest `if`. -/
def ifElse (parse : Productions) : Parse Parsed := do
  discard (Parse.expect (.keyword .if_))
  let condition ← parenthesized parse
  let thenBranch ← parse .statement
  if ← Parse.accept (.keyword .else_) then
    return .parts (.ifElse condition thenBranch (some (← parse .statement)))
  return .parts (.ifElse condition thenBranch none)

/-- A loop that tests first. -/
def whileLoop (parse : Productions) : Parse Parsed := do
  discard (Parse.expect (.keyword .while_))
  let condition ← parenthesized parse
  let body ← parse .statement
  return .parts (.whileLoop condition body)

/-- A loop that tests last. -/
def doWhile (parse : Productions) : Parse Parsed := do
  discard (Parse.expect (.keyword .do_))
  let body ← parse .statement
  discard (Parse.expect (.keyword .while_))
  let condition ← parenthesized parse
  discard (Parse.expect (.punct .semicolon))
  return .parts (.doWhile body condition)

/-- A loop with a head of three optional expressions. -/
def forLoop (parse : Productions) : Parse Parsed := do
  discard (Parse.expect (.keyword .for_))
  discard (Parse.expect (.punct .lparen))
  let init ← optional parse (.punct .semicolon)
  discard (Parse.expect (.punct .semicolon))
  let condition ← optional parse (.punct .semicolon)
  discard (Parse.expect (.punct .semicolon))
  let increment ← optional parse (.punct .rparen)
  discard (Parse.expect (.punct .rparen))
  let body ← parse .statement
  return .parts (.forLoop init condition increment body)

/-- The end of a function's body. -/
def returns (parse : Productions) : Parse Parsed := do
  discard (Parse.expect (.keyword .return_))
  let value ← optional parse (.punct .semicolon)
  discard (Parse.expect (.punct .semicolon))
  return .parts (.returns value)

/-- A statement that is one keyword. -/
def jump (keyword : Keyword) (shape : Shape) : Parse Parsed := do
  discard (Parse.expect (.keyword keyword))
  discard (Parse.expect (.punct .semicolon))
  return .parts shape

/-- A lone semicolon. -/
def empty : Parse Parsed := do
  discard (Parse.expect (.punct .semicolon))
  return .parts .empty

/-- An expression as a statement. -/
def exprStatement (parse : Productions) : Parse Parsed := do
  let expr ← parse .expr
  discard (Parse.expect (.punct .semicolon))
  return .parts (.exprStatement expr)

/-! ## Expressions -/

/-- An assignment, which groups to the right, or what binds tighter. -/
def assignment (parse : Productions) : Parse Parsed := do
  let left ← parse .logicalOr
  if ← Parse.accept (.punct .assign) then
    let next ← Parse.peek
    let right ← parse (if next = .punct .lbrace then .arrayInit else .assignment)
    return .parts (.assign left right)
  return .whole left

/-- Values in braces. -/
def arrayInit (parse : Productions) : Parse Parsed := do
  discard (Parse.expect (.punct .lbrace))
  if ← Parse.accept (.punct .rbrace) then return .parts (.arrayInit [])
  let values ← Parse.commaList (parse .assignment)
  discard (Parse.expect (.punct .rbrace))
  return .parts (.arrayInit values)

/-- A level of binary operators: what it is made of and which marks are its operators. -/
structure Level where
  production : Production
  operand : Production
  operator? : TokenKind → Option BinaryOp

/-- Operators and operands behind a left operand, at most `fuel` of them; they group to the left. -/
def chain (parse : Productions) (level : Level) (start : Location) : Nat → Node → Parse Node
  | 0, _ => fun c => .error ⟨.tooDeep, c.loc⟩
  | fuel + 1, left => do
    match level.operator? (← Parse.peek) with
    | none => return left
    | some op =>
      discard Parse.advance
      let right ← parse level.operand
      chain parse level start fuel (.mk ⟨level.production, start⟩ (.binary op left right))

/-- A chain of operands of one level. -/
def binary (parse : Productions) (level : Level) : Parse Parsed := do
  let start ← Parse.here
  let left ← parse level.operand
  return .whole (← chain parse level start ((← Parse.remaining) + 1) left)

/-- The level of `||`. -/
def orLevel : Level where
  production := .logicalOr
  operand := .logicalAnd
  operator?
    | .punct .orOr => some .or
    | _ => none

/-- The level of `&&`. -/
def andLevel : Level where
  production := .logicalAnd
  operand := .equality
  operator?
    | .punct .andAnd => some .and
    | _ => none

/-- The level of `==` and `!=`. -/
def equalityLevel : Level where
  production := .equality
  operand := .relational
  operator?
    | .punct .eqEq => some .eq
    | .punct .notEq => some .ne
    | _ => none

/-- The level of the comparisons. -/
def relationalLevel : Level where
  production := .relational
  operand := .additive
  operator?
    | .punct .lt => some .lt
    | .punct .le => some .le
    | .punct .gt => some .gt
    | .punct .ge => some .ge
    | _ => none

/-- The level of `+` and `-`. -/
def additiveLevel : Level where
  production := .additive
  operand := .multiplicative
  operator?
    | .punct .plus => some .add
    | .punct .minus => some .sub
    | _ => none

/-- The level of `*`, `/` and `%`. -/
def multiplicativeLevel : Level where
  production := .multiplicative
  operand := .unary
  operator?
    | .punct .star => some .mul
    | .punct .slash => some .div
    | .punct .percent => some .mod
    | _ => none

/-- The size of a type in parentheses, or of an operand. -/
def sizeof (parse : Productions) : Parse Parsed := do
  discard (Parse.expect (.keyword .sizeof))
  if (← Parse.peek) = .punct .lparen ∧ (← Parse.peekAhead 1).startsType then
    discard Parse.advance
    let base ← base parse
    let stars ← Parse.stars
    discard (Parse.expect (.punct .rparen))
    return .parts (.sizeofType base stars)
  return .parts (.sizeofExpr (← parse .unary))

/-- An operator in front of its operand, or what binds tighter. -/
def unary (parse : Productions) : Parse Parsed := do
  match ← Parse.peek with
  | .punct .minus =>
    discard Parse.advance
    return .parts (.unary .neg (← parse .unary))
  | .punct .bang =>
    discard Parse.advance
    return .parts (.unary .not (← parse .unary))
  | .punct .star =>
    discard Parse.advance
    return .parts (.deref (← parse .unary))
  | .punct .amp =>
    discard Parse.advance
    return .parts (.addressOf (← parse .unary))
  | .keyword .sizeof => sizeof parse
  | _ => return .whole (← parse .suffix)

/-- Subscripts and member selections behind a node, at most `fuel` of them. -/
def suffixes (parse : Productions) (start : Location) : Nat → Node → Parse Node
  | 0, _ => fun c => .error ⟨.tooDeep, c.loc⟩
  | fuel + 1, node => do
    match ← Parse.peek with
    | .punct .lbracket =>
      discard Parse.advance
      let index ← parse .expr
      discard (Parse.expect (.punct .rbracket))
      suffixes parse start fuel (.mk ⟨.suffix, start⟩ (.index node index))
    | .punct .dot =>
      discard Parse.advance
      let field ← Parse.name
      suffixes parse start fuel (.mk ⟨.suffix, start⟩ (.member node field))
    | .punct .arrow =>
      discard Parse.advance
      let field ← Parse.name
      suffixes parse start fuel (.mk ⟨.suffix, start⟩ (.pointerMember node field))
    | _ => return node

/-- A primary with its subscripts and member selections. -/
def suffix (parse : Productions) : Parse Parsed := do
  let start ← Parse.here
  let node ← parse .primary
  return .whole (← suffixes parse start ((← Parse.remaining) + 1) node)

/-- A name, a call, a literal or an expression in parentheses. -/
def primary (parse : Productions) : Parse Parsed := do
  match ← Parse.peek with
  | .identifier =>
    let next ← Parse.peekAhead 1
    return .whole (← parse (if next = .punct .lparen then .call else .identifier))
  | .intLiteral | .charLiteral | .stringLiteral | .keyword .null =>
    return .whole (← parse .literal)
  | .punct .lparen => return .whole (← parenthesized parse)
  | _ => Parse.refuse .expression

/-- A function's name and its arguments. -/
def call (parse : Productions) : Parse Parsed := do
  let name ← Parse.name
  discard (Parse.expect (.punct .lparen))
  if ← Parse.accept (.punct .rparen) then return .parts (.call name [])
  let args ← Parse.commaList (parse .assignment)
  discard (Parse.expect (.punct .rparen))
  return .parts (.call name args)

/-- A variable's name. -/
def identifier : Parse Parsed := do return .parts (.identifier (← Parse.name))

/-- The word that a character literal stands for: the low byte of its first character. -/
def charValue (content : String) : Word :=
  Word.signedLowByte (Int32.ofNat ((content.toList.head?.map Char.toNat).getD 0))

/-- A literal: one token, whatever it is, which then has to be one that stands for a value. -/
def literal : Parse Parsed := do
  let token ← Parse.advance
  match token.kind with
  | .intLiteral =>
    match Word.ofText? token.content with
    | some value => return .parts (.intLiteral value)
    | none => Parse.fail ⟨.literalRange token.content, token.loc⟩
  | .charLiteral => return .parts (.charLiteral (charValue token.content))
  | .stringLiteral => return .parts (.stringLiteral token.content)
  | .keyword .null => return .parts .null
  | _ => Parse.fail ⟨.notALiteral token, token.loc⟩

/-! ## All rules -/

/-- The rule of a production. -/
def of (parse : Productions) (p : Production) : Parse Parsed :=
  match p with
  | .program => program parse
  | .structDef => structDef parse
  | .functionDef => functionDef parse
  | .param => param parse
  | .type => type
  | .varDec => varDec parse
  | .varItem => varItem parse
  | .statement => statement parse
  | .block => block parse
  | .ifElse => ifElse parse
  | .whileLoop => whileLoop parse
  | .doWhile => doWhile parse
  | .forLoop => forLoop parse
  | .returns => returns parse
  | .breaks => jump .break_ .breaks
  | .continues => jump .continue_ .continues
  | .empty => empty
  | .exprStatement => exprStatement parse
  | .expr => do return .whole (← parse .assignment)
  | .assignment => assignment parse
  | .arrayInit => arrayInit parse
  | .logicalOr => binary parse orLevel
  | .logicalAnd => binary parse andLevel
  | .equality => binary parse equalityLevel
  | .relational => binary parse relationalLevel
  | .additive => binary parse additiveLevel
  | .multiplicative => binary parse multiplicativeLevel
  | .unary => unary parse
  | .suffix => suffix parse
  | .primary => primary parse
  | .call => call parse
  | .identifier => identifier
  | .literal => literal
  | .other _ => fun c => .error ⟨.unknownProduction p, c.loc⟩

end Rule

/-- The node that a rule's result makes for the production `p` begun at `start`. -/
def Parsed.node (p : Production) (start : Location) : Parsed → Node
  | parts shape => .mk ⟨p, start⟩ shape
  | whole node => node

/-- One call of a production: its rule, if the grammar has it. -/
def parseStep (g : Grammar) (parse : Productions) (p : Production) : Parse Node := fun c =>
  if g.contains p then
    match Rule.of parse p c with
    | .ok (parsed, c') => .ok (parsed.node p c.loc, c')
    | .error e => .error e
  else .error ⟨.unknownProduction p, c.loc⟩

/-- The parser whose calls nest at most `fuel` deep. -/
def parseWithin (g : Grammar) : Nat → Productions
  | 0 => fun _ c => .error ⟨.tooDeep, c.loc⟩
  | fuel + 1 => fun p c => parseStep g (parseWithin g fuel) p c

/-- The most calls that nest without a token taken between them, with room to spare. -/
def callsPerToken : Nat := 32

/-- Read a production from the cursor on. -/
def parse (g : Grammar) (p : Production) : Parse Node := fun c =>
  parseWithin g ((c.later.length + 1) * callsPerToken) p c

end MiniC
