/-
  Reading a source text as tokens.

  A `Reader` is the text that is left together with the place where it starts.  `Reader.step` looks
  at what stands first: the end, something that separates tokens (a blank, a comment, a line that
  begins with `#`), a token, or a fault.  `tokenize` takes steps until the end; each step but the
  last consumes at least one character, so as many steps as there are characters, and one for the
  end, are enough.
-/
import MiniC.Token
import MiniC.Word

namespace MiniC

/-- What can be wrong with the characters of a source. -/
inductive LexicalCause where
  | unrecognized (c : Char)
  | unknownEscape (c : Char)
  | endInString
  | unterminatedString
  | endInCharacter
  | unclosedCharacter
  | integerRange (digits : String)
  | unterminatedComment
  deriving Repr, DecidableEq

/-- The message of a cause. -/
def LexicalCause.message : LexicalCause → String
  | unrecognized c => "Unrecognized token '" ++ String.singleton c ++ "'"
  | unknownEscape c => "Unknown escape sequence: \\" ++ String.singleton c
  | endInString => "Unexpected end of file in string literal"
  | unterminatedString => "Unterminated string literal"
  | endInCharacter => "Unexpected end of file in character literal"
  | unclosedCharacter => "Expected closing quote in character literal"
  | integerRange digits => "Invalid integer literal: " ++ digits
  | unterminatedComment => "Unterminated block comment"

/-- A fault in the characters of a source. -/
abbrev LexicalError := Located LexicalCause

/-! ## Character classes -/

/-- The characters that separate tokens and mean nothing else. -/
def isBlank (c : Char) : Bool := c = ' ' || c = '\t' || c = '\r' || c = '\n'

/-- The characters that an identifier can begin with. -/
def isIdentStart (c : Char) : Bool := c.isAlpha || c = '_'

/-- The characters that an identifier can go on with. -/
def isIdentRest (c : Char) : Bool := c.isAlphanum || c = '_'

/-- The character that an escape denotes. -/
def unescape? : Char → Option Char
  | 'n' => some '\n'
  | 't' => some '\t'
  | 'r' => some '\r'
  | '\\' => some '\\'
  | '"' => some '"'
  | '\'' => some '\''
  | '0' => some '\x00'
  | _ => none

/-- The mark that begins with the character `c` where the character after it may be `next`. -/
def punct? (c : Char) (next : Option Char) : Option Punct :=
  let pair (d : Char) (both single : Punct) : Punct := if next = some d then both else single
  match c with
  | '+' => some .plus
  | '-' => some (pair '>' .arrow .minus)
  | '*' => some .star
  | '/' => some .slash
  | '%' => some .percent
  | '=' => some (pair '=' .eqEq .assign)
  | '!' => some (pair '=' .notEq .bang)
  | '<' => some (pair '=' .le .lt)
  | '>' => some (pair '=' .ge .gt)
  | '&' => some (pair '&' .andAnd .amp)
  | '|' => if next = some '|' then some .orOr else none
  | '.' => some .dot
  | '(' => some .lparen
  | ')' => some .rparen
  | '\x7b' => some .lbrace
  | '\x7d' => some .rbrace
  | '[' => some .lbracket
  | ']' => some .rbracket
  | ';' => some .semicolon
  | ',' => some .comma
  | _ => none

/-! ## Readers -/

/-- A text that is left to read, and the place of its first character. -/
structure Reader where
  rest : List Char
  loc : Location
  deriving Repr, DecidableEq

/-- What a reader finds first. -/
inductive Step where
  /-- The text is over. -/
  | done
  /-- Something that separates tokens ends where `next` begins. -/
  | skip (next : Reader)
  /-- A token ends where `next` begins. -/
  | token (t : Token) (next : Reader)
  | fault (e : LexicalError)
  deriving Repr

namespace Reader

/-- The reader at the start of a text. -/
def ofString (source : String) : Reader := ⟨source.toList, .start⟩

/-- The characters up to and with the first newline, and those after it. -/
def splitLine : List Char → List Char × List Char
  | [] => ([], [])
  | c :: cs =>
    if c = '\n' then ([c], cs)
    else
      let (line, rest) := splitLine cs
      (c :: line, rest)

/-- The characters up to and with the first closing of a comment, and those after it. -/
def splitComment : List Char → Option (List Char × List Char)
  | [] => none
  | '*' :: '/' :: cs => some (['*', '/'], cs)
  | c :: cs => (splitComment cs).map fun (comment, rest) => (c :: comment, rest)

/-- The rest of a string literal after `loc`: the text it denotes and the reader behind its closing
quote.  `opened` is where the literal starts. -/
def scanString (opened : Location) (loc : Location) :
    List Char → Except LexicalError (List Char × Reader)
  | [] => .error ⟨.unterminatedString, opened⟩
  | '"' :: cs => .ok ([], ⟨cs, loc.advance '"'⟩)
  | '\n' :: _ => .error ⟨.unterminatedString, opened⟩
  | ['\\'] => .error ⟨.endInString, loc.advance '\\'⟩
  | '\\' :: e :: cs =>
    let loc := (loc.advance '\\').advance e
    match unescape? e with
    | none => .error ⟨.unknownEscape e, loc⟩
    | some c => (scanString opened loc cs).map fun (text, next) => (c :: text, next)
  | c :: cs => (scanString opened (loc.advance c) cs).map fun (text, next) => (c :: text, next)

/-- The closing quote of a character literal that denotes `c`. -/
def closeChar (c : Char) (loc : Location) : List Char → Except LexicalError (Char × Reader)
  | [] => .error ⟨.unclosedCharacter, loc⟩
  | '\'' :: cs => .ok (c, ⟨cs, loc.advance '\''⟩)
  | d :: _ => .error ⟨.unclosedCharacter, loc.advance d⟩

/-- The rest of a character literal after `loc`: the character it denotes and the reader behind
its closing quote. -/
def scanChar (loc : Location) : List Char → Except LexicalError (Char × Reader)
  | [] => .error ⟨.endInCharacter, loc⟩
  | ['\\'] => .error ⟨.endInCharacter, loc.advance '\\'⟩
  | '\\' :: e :: cs =>
    let loc := (loc.advance '\\').advance e
    match unescape? e with
    | none => .error ⟨.unknownEscape e, loc⟩
    | some c => closeChar c loc cs
  | c :: cs => closeChar c (loc.advance c) cs

/-- The step that consumes `cs` and leaves `rest` for a token of the given kind and content. -/
def emit (r : Reader) (kind : TokenKind) (content : String) (cs rest : List Char) : Step :=
  .token ⟨kind, content, r.loc⟩ ⟨rest, r.loc.advanceAll cs⟩

/-- The step of a literal that has been scanned. -/
def emitScanned (r : Reader) (kind : TokenKind) : Except LexicalError (List Char × Reader) → Step
  | .ok (text, next) => .token ⟨kind, String.ofList text, r.loc⟩ next
  | .error e => .fault e

/-- A token that begins with the character `c`, with `cs` behind it. -/
def lexeme (r : Reader) (c : Char) (cs : List Char) : Step :=
  if c = '"' then r.emitScanned .stringLiteral (scanString r.loc (r.loc.advance c) cs)
  else if c = '\'' then
    r.emitScanned .charLiteral ((scanChar (r.loc.advance c) cs).map fun (d, next) => ([d], next))
  else if c.isDigit then
    let (digits, rest) := cs.span Char.isDigit
    let text := String.ofList (c :: digits)
    match Word.ofText? text with
    | none => .fault ⟨.integerRange text, r.loc⟩
    | some _ => r.emit .intLiteral text (c :: digits) rest
  else if isIdentStart c then
    let (letters, rest) := cs.span isIdentRest
    let text := String.ofList (c :: letters)
    let kind := match Keyword.ofText? text with
      | some k => TokenKind.keyword k
      | none => .identifier
    r.emit kind text (c :: letters) rest
  else
    match punct? c cs.head? with
    | none => .fault ⟨.unrecognized c, r.loc⟩
    | some p =>
      let spelling := p.text.toList
      r.emit (.punct p) p.text spelling ((c :: cs).drop spelling.length)

/-- What stands first in the text. -/
def step (r : Reader) : Step :=
  match r.rest with
  | [] => .done
  | '/' :: '/' :: cs =>
    let (line, rest) := splitLine ('/' :: '/' :: cs)
    .skip ⟨rest, r.loc.advanceAll line⟩
  | '/' :: '*' :: cs =>
    match splitComment cs with
    | none => .fault ⟨.unterminatedComment, r.loc⟩
    | some (comment, rest) => .skip ⟨rest, r.loc.advanceAll ('/' :: '*' :: comment)⟩
  | '#' :: cs =>
    let (line, rest) := splitLine ('#' :: cs)
    .skip ⟨rest, r.loc.advanceAll line⟩
  | c :: cs => if isBlank c then .skip ⟨cs, r.loc.advance c⟩ else r.lexeme c cs

/-- The tokens that a number of steps find, with the one that ends the file. -/
def tokens : Nat → Reader → Except LexicalError (List Token)
  | 0, r => .ok [⟨.endOfFile, "", r.loc⟩]
  | fuel + 1, r =>
    match r.step with
    | .done => .ok [⟨.endOfFile, "", r.loc⟩]
    | .skip next => tokens fuel next
    | .token t next => (tokens fuel next).map (t :: ·)
    | .fault e => .error e

end Reader

/-- The tokens of a source text, closed by one for the end of the file. -/
def tokenize (source : String) : Except LexicalError (List Token) :=
  let r := Reader.ofString source
  r.tokens r.rest.length

end MiniC
