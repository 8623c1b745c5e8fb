/-
  Building a program from its source: tokens, then the tree, then the tables.

  The first stage that finds a fault decides the error, which says where in the source it is.
-/
import MiniC.Lowering
import MiniC.Node.Parser
import MiniC.Program.Builtins
import MiniC.Token.Lexer

namespace MiniC

/-- Why a source cannot be built, by the stage that refuses it. -/
inductive BuildError where
  | lexical (e : LexicalError)
  | syntactic (e : SyntaxError)
  | compilation (e : CompileError)
  deriving Repr, DecidableEq

namespace BuildError

/-- The message of an error. -/
def message : BuildError → String
  | lexical e => e.cause.message
  | syntactic e => e.cause.message
  | compilation e => e.cause.message

/-- Where in the source an error was found. -/
def loc : BuildError → Location
  | lexical e => e.loc
  | syntactic e => e.loc
  | compilation e => e.loc

/-- The message with the stage in front of it. -/
def text : BuildError → String
  | lexical e => "lexical error: " ++ e.cause.message
  | syntactic e => "syntax error: " ++ e.cause.message
  | compilation e => "compilation error: " ++ e.cause.message

end BuildError

/-- The tree of a production at the start of a source. -/
def Node.ofSource (g : Grammar) (p : Production) (source : String) : Except BuildError Node :=
  match tokenize source with
  | .error e => .error (.lexical e)
  | .ok tokens =>
    match parse g p (.ofTokens tokens) with
    | .error e => .error (.syntactic e)
    | .ok (node, _) => .ok node

/-- The program that a source adds to the entries of `p`. -/
def Program.extend (p : Program) (g : Grammar) (source : String) : Except BuildError Program :=
  match Node.ofSource g .program source with
  | .error e => .error e
  | .ok root =>
    match lowerProgram g p root with
    | .error e => .error (.compilation e)
    | .ok p => .ok p

/-- The program of a source, with the builtin functions before it. -/
def Program.ofSource (g : Grammar) (source : String) : Except BuildError Program :=
  Program.initial.extend g source

end MiniC
