/-
  Programs: the tables that lowering fills and the machine reads.

  A program lists variables, structures, functions and string literals.  Entries are known by
  their number and are never taken away, so code can hold numbers.  Beside each table stands a map
  by which globals, structures and functions are found by their name and strings by their text; an
  entry and its name are added together.
-/
import MiniC.Code

namespace MiniC

/-- The length of an array and the expression that gives it. -/
structure ArraySpec where
  length : Nat
  lengthExpr : Expr

/-- A variable: its name, type and storage.  An array has the type of a pointer to its elements. -/
structure Symbol where
  name : String
  ty : Ty
  size : Nat
  array : Option ArraySpec
  declaredAt : Location

namespace Symbol

instance : Inhabited Symbol := ⟨⟨"", Ty.int, 0, none, .nowhere⟩⟩

/-- Whether a variable is an array. -/
def isArray (s : Symbol) : Bool := s.array.isSome

/-- The type of an array's elements. -/
def elementType? (s : Symbol) : Option Ty := s.array.bind fun _ => s.ty.pointee

end Symbol

/-- A member of a structure and where it lies in it. -/
structure Member where
  name : String
  ty : Ty
  size : Nat
  offset : Nat
  arrayLength : Option Nat
  deriving Repr, DecidableEq

/-- A structure: its members one behind the other, and the bytes they take together. -/
structure Layout where
  name : String
  members : List Member
  size : Nat
  deriving Repr, DecidableEq, Inhabited

/-- The member with a given name. -/
def Layout.member? (l : Layout) (name : String) : Option Member :=
  l.members.find? fun m => m.name = name

/-- What the functions do that every program has; each reads its parameters from their storage. -/
inductive Builtin where
  | highlightIndex (array index color : SymbolId)
  | clearHighlight (array : SymbolId)
  | malloc (size : SymbolId)
  | free (pointer : SymbolId)
  deriving Repr, DecidableEq

/-- The body of a function. -/
inductive Body where
  /-- The body is still to come. -/
  | declared
  | compiled (body : Stmt)
  | builtin (b : Builtin)

/-- A function: its result, its parameters and all its variables, parameters included. -/
structure Function where
  name : String
  result : Ty
  params : List SymbolId
  locals : List SymbolId
  body : Body
  definedAt : Location

namespace Function

instance : Inhabited Function := ⟨⟨"", Ty.void, [], [], .declared, .nowhere⟩⟩

/-- Whether a function is one that every program has. -/
def isBuiltin (f : Function) : Bool :=
  match f.body with
  | .builtin _ => true
  | _ => false

/-- Whether a call of the function has a value. -/
def returnsValue (f : Function) : Bool := !f.result.isVoid

end Function

/-- Numbers of entries by their names; the first entry of a name counts. -/
abbrev NameMap := List (String × Nat)

namespace NameMap

/-- The number of a name. -/
def find? (map : NameMap) (name : String) : Option Nat := map.lookup name

/-- The map in which `name` has the number `id`, whatever it had before. -/
def insert (map : NameMap) (name : String) (id : Nat) : NameMap := (name, id) :: map

end NameMap

/-- The tables of a program, and the maps by which their entries are found. -/
structure Program where
  symbols : Array Symbol
  globals : List SymbolId
  structs : Array Layout
  functions : Array Function
  strings : Array String
  globalNames : NameMap
  structNames : NameMap
  functionNames : NameMap
  stringIds : NameMap

namespace Program

/-- The program without entries. -/
def empty : Program := ⟨#[], [], #[], #[], #[], [], [], [], []⟩

/-- A variable by its number. -/
def symbol (p : Program) (id : SymbolId) : Symbol := p.symbols.getD id default

/-- A structure by its number. -/
def layout (p : Program) (id : StructId) : Layout := p.structs.getD id default

/-- A function by its number. -/
def function (p : Program) (id : FunctionId) : Function := p.functions.getD id default

/-- A string literal by its number. -/
def string (p : Program) (id : StringId) : String := p.strings.getD id ""

/-- Add a variable, which takes the next number. -/
def addSymbol (p : Program) (s : Symbol) : SymbolId × Program :=
  (p.symbols.size, { p with symbols := p.symbols.push s })

/-- Add a global. -/
def addGlobal (p : Program) (s : Symbol) : Program :=
  let (id, p) := p.addSymbol s
  { p with globals := p.globals ++ [id], globalNames := p.globalNames.insert s.name id }

/-- Add a structure. -/
def addStruct (p : Program) (l : Layout) : StructId × Program :=
  let id := p.structs.size
  (id, { p with structs := p.structs.push l, structNames := p.structNames.insert l.name id })

/-- Add a function. -/
def addFunction (p : Program) (f : Function) : FunctionId × Program :=
  let id := p.functions.size
  (id, { p with
    functions := p.functions.push f
    functionNames := p.functionNames.insert f.name id })

/-- Change a function. -/
def modifyFunction (p : Program) (id : FunctionId) (change : Function → Function) : Program :=
  { p with functions := p.functions.modify id change }

/-- The global with a given name. -/
def global? (p : Program) (name : String) : Option SymbolId := p.globalNames.find? name

/-- The structure with a given name. -/
def struct? (p : Program) (name : String) : Option StructId := p.structNames.find? name

/-- The layout of the structure with a given name. -/
def layout? (p : Program) (name : String) : Option Layout := (p.struct? name).map p.layout

/-- The function with a given name. -/
def function? (p : Program) (name : String) : Option FunctionId := p.functionNames.find? name

/-- The string literal with a given text. -/
def string? (p : Program) (text : String) : Option StringId := p.stringIds.find? text

/-- The number of a string literal, which is added if its text is new. -/
def internString (p : Program) (text : String) : StringId × Program :=
  match p.string? text with
  | some id => (id, p)
  | none =>
    let id := p.strings.size
    (id, { p with strings := p.strings.push text, stringIds := p.stringIds.insert text id })

/-- The storage that a type takes. -/
def sizeOf? (p : Program) (t : Ty) : Option Nat :=
  match t.fixedSize? with
  | some size => some size
  | none =>
    match t.base with
    | .struct name => (p.layout? name).map Layout.size
    | _ => none

end Program

end MiniC
