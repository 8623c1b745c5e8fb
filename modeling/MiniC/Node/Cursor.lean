/-
  A cursor in a list of tokens.

  The cursor stands on a token and never moves past one that ends the file; a list that does not
  end in such a token is given one, so there is always a token to stand on.  `Parse` is the type of
  everything that reads tokens: it moves the cursor or reports a syntax error.
-/
import MiniC.Grammar
import MiniC.Token

namespace MiniC

/-- What the parser would have taken. -/
inductive Wanted where
  | kind (k : TokenKind)
  | expression
  | type
  deriving Repr, DecidableEq

/-- The name of what was wanted. -/
def Wanted.text : Wanted → String
  | kind k => k.text
  | expression => "an expression"
  | type => "a type"

/-- What can be wrong with the tokens of a source. -/
inductive SyntaxCause where
  | unknownProduction (p : Production)
  | unexpected (wanted : Wanted) (found : Token)
  | notALiteral (found : Token)
  | literalRange (digits : String)
  | notAType
  /-- More nesting than the tokens have room for; it does not occur. -/
  | tooDeep
  deriving Repr, DecidableEq

/-- The message of a cause. -/
def SyntaxCause.message : SyntaxCause → String
  | unknownProduction p => "unknown grammar production '" ++ p.name ++ "'"
  | unexpected wanted found =>
    if found.kind = .endOfFile then "expected " ++ wanted.text ++ ", but reached end of file"
    else "expected " ++ wanted.text ++ ", but found " ++ found.text
  | notALiteral found => "expected a literal, but found " ++ found.text
  | literalRange digits => "integer literal '" ++ digits ++ "' is out of range"
  | notAType => "expected a type"
  | tooDeep => "nesting is too deep"

/-- A fault in the tokens of a source. -/
abbrev SyntaxError := Located SyntaxCause

/-- The token that is next and those behind it. -/
structure Cursor where
  here : Token
  later : List Token
  deriving Repr, DecidableEq

namespace Cursor

/-- The token that closes a list which ends in `last`. -/
def closing (last : Option Token) : Token :=
  ⟨.endOfFile, "", (last.map Token.loc).getD .nowhere⟩

/-- The cursor on the first of some tokens.  A list that does not end with the end of the file is
closed by one at the place of its last token. -/
def ofTokens (ts : List Token) : Cursor :=
  let closed := if ts.getLast?.map Token.kind = some .endOfFile then ts
    else ts ++ [closing ts.getLast?]
  match closed with
  | [] => ⟨closing none, []⟩
  | t :: ts => ⟨t, ts⟩

/-- The kind of the next token. -/
def kind (c : Cursor) : TokenKind := c.here.kind

/-- Where the next token starts. -/
def loc (c : Cursor) : Location := c.here.loc

/-- Whether the tokens are over. -/
def atEnd (c : Cursor) : Bool := c.kind = .endOfFile

/-- The kind of the token `n` places ahead. -/
def kindAhead (c : Cursor) (n : Nat) : TokenKind :=
  match (c.here :: c.later)[n]? with
  | some t => t.kind
  | none => .endOfFile

/-- The cursor behind the next token, unless that ends the file. -/
def advance (c : Cursor) : Cursor :=
  if c.atEnd then c
  else
    match c.later with
    | [] => c
    | t :: ts => ⟨t, ts⟩

/-- The fault that something else was wanted here. -/
def unexpected (c : Cursor) (wanted : Wanted) : SyntaxError := ⟨.unexpected wanted c.here, c.loc⟩

/-- The number of stars from the token `t` on, and the cursor behind them. -/
def skipStars (t : Token) : List Token → Nat × Cursor
  | [] => (0, ⟨t, []⟩)
  | u :: us =>
    if t.kind = .punct .star then
      let (n, c) := skipStars u us
      (n + 1, c)
    else (0, ⟨t, u :: us⟩)

end Cursor

/-- A reader of tokens. -/
abbrev Parse := StateT Cursor (Except SyntaxError)

namespace Parse

/-- Report a fault. -/
def fail {α : Type} (e : SyntaxError) : Parse α := fun _ => .error e

/-- Report that something else was wanted here. -/
def refuse {α : Type} (wanted : Wanted) : Parse α := fun c => .error (c.unexpected wanted)

/-- The kind of the next token. -/
def peek : Parse TokenKind := fun c => .ok (c.kind, c)

/-- The kind of the token `n` places ahead. -/
def peekAhead (n : Nat) : Parse TokenKind := fun c => .ok (c.kindAhead n, c)

/-- Where the next token starts. -/
def here : Parse Location := fun c => .ok (c.loc, c)

/-- The number of tokens behind the next one. -/
def remaining : Parse Nat := fun c => .ok (c.later.length, c)

/-- Take the next token, whatever it is. -/
def advance : Parse Token := fun c => .ok (c.here, c.advance)

/-- Take a token of a given kind. -/
def expect (kind : TokenKind) : Parse Token := fun c =>
  if c.kind = kind then .ok (c.here, c.advance) else .error (c.unexpected (.kind kind))

/-- Take a token of a given kind if it is next, and say whether it was. -/
def accept (kind : TokenKind) : Parse Bool := fun c =>
  if c.kind = kind then .ok (true, c.advance) else .ok (false, c)

/-- Take the stars that are next and count them. -/
def stars : Parse Nat := fun c => .ok (Cursor.skipStars c.here c.later)

/-- Take an identifier and give its name. -/
def name : Parse String := do return (← expect .identifier).content

/-- Read items until a token of a kind that ends them, at most `fuel` times. -/
def itemsUntil {α : Type} (ends : TokenKind → Bool) (item : Parse α) : Nat → Parse (List α)
  | 0 => fun c => .error ⟨.tooDeep, c.loc⟩
  | fuel + 1 => do
    if ends (← peek) then return []
    let first ← item
    let rest ← itemsUntil ends item fuel
    return first :: rest

/-- Read items until a token of a kind that ends them. -/
def upTo {α : Type} (ends : TokenKind → Bool) (item : Parse α) : Parse (List α) := do
  itemsUntil ends item ((← remaining) + 1)

/-- Read at least one item, with a comma between one and the next, at most `fuel` of them. -/
def separated {α : Type} (item : Parse α) : Nat → Parse (List α)
  | 0 => fun c => .error ⟨.tooDeep, c.loc⟩
  | fuel + 1 => do
    let first ← item
    if ← accept (.punct .comma) then
      let rest ← separated item fuel
      return first :: rest
    else return [first]

/-- Read at least one item, with a comma between one and the next. -/
def commaList {α : Type} (item : Parse α) : Parse (List α) := do
  separated item ((← remaining) + 1)

end Parse

end MiniC
