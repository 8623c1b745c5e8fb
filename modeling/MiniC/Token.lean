/-
  Tokens: the words of the language.

  A token has a kind, a content and the place where it starts.  Keywords and marks have one fixed
  spelling each; the content of a string or character literal is the text that it denotes, with
  its escapes resolved.
-/
import MiniC.Text.Location

namespace MiniC

/-- The reserved words. -/
inductive Keyword where
  | int | char | void | struct
  | if_ | else_ | while_ | do_ | for_ | break_ | continue_ | return_
  | sizeof | null
  deriving Repr, DecidableEq, Inhabited

namespace Keyword

/-- The reserved words in the order of their declaration. -/
def all : List Keyword :=
  [int, char, void, struct, if_, else_, while_, do_, for_, break_, continue_, return_, sizeof, null]

/-- The spelling of a reserved word. -/
def text : Keyword → String
  | int => "int" | char => "char" | void => "void" | struct => "struct"
  | if_ => "if" | else_ => "else" | while_ => "while" | do_ => "do" | for_ => "for"
  | break_ => "break" | continue_ => "continue" | return_ => "return"
  | sizeof => "sizeof" | null => "NULL"

/-- The reserved word with a given spelling. -/
def ofText? (s : String) : Option Keyword := all.find? fun k => k.text = s

/-- Whether a type can begin with this word. -/
def startsType : Keyword → Bool
  | int | char | void | struct => true
  | _ => false

end Keyword

/-- Operators and punctuation. -/
inductive Punct where
  | plus | minus | star | slash | percent
  | eqEq | notEq | lt | le | gt | ge | andAnd | orOr | bang | amp | assign | dot | arrow
  | lparen | rparen | lbrace | rbrace | lbracket | rbracket | semicolon | comma
  deriving Repr, DecidableEq, Inhabited

namespace Punct

/-- The marks in the order of their declaration. -/
def all : List Punct :=
  [plus, minus, star, slash, percent, eqEq, notEq, lt, le, gt, ge, andAnd, orOr, bang, amp, assign,
    dot, arrow, lparen, rparen, lbrace, rbrace, lbracket, rbracket, semicolon, comma]

/-- The spelling of a mark. -/
def text : Punct → String
  | plus => "+" | minus => "-" | star => "*" | slash => "/" | percent => "%"
  | eqEq => "==" | notEq => "!=" | lt => "<" | le => "<=" | gt => ">" | ge => ">="
  | andAnd => "&&" | orOr => "||" | bang => "!" | amp => "&" | assign => "=" | dot => "."
  | arrow => "->" | lparen => "(" | rparen => ")" | lbrace => "\x7b" | rbrace => "\x7d"
  | lbracket => "[" | rbracket => "]" | semicolon => ";" | comma => ","

end Punct

/-- The kinds of token. -/
inductive TokenKind where
  | intLiteral
  | charLiteral
  | stringLiteral
  | identifier
  | keyword (k : Keyword)
  | punct (p : Punct)
  | endOfFile
  deriving Repr, DecidableEq, Inhabited

namespace TokenKind

/-- The name of a kind in messages. -/
def text : TokenKind → String
  | intLiteral => "int literal"
  | charLiteral => "char literal"
  | stringLiteral => "string literal"
  | identifier => "identifier"
  | keyword k => "'" ++ k.text ++ "'"
  | punct p => "'" ++ p.text ++ "'"
  | endOfFile => "end of file"

/-- Whether a type can begin with a token of this kind. -/
def startsType : TokenKind → Bool
  | keyword k => k.startsType
  | _ => false

end TokenKind

/-- A word of the source: its kind, its content and where it starts. -/
structure Token where
  kind : TokenKind
  content : String
  loc : Location
  deriving Repr, DecidableEq, Inhabited

/-- The description of a token in messages. -/
def Token.text (t : Token) : String :=
  match t.kind with
  | .identifier => "identifier '" ++ t.content ++ "'"
  | .intLiteral => "int literal " ++ t.content
  | .stringLiteral => "string literal \"" ++ t.content ++ "\""
  | kind => kind.text

end MiniC
