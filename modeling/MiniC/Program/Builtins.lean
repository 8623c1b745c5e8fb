/-
  The functions that every program has:

    void highlight_index(int *arr, int index, char *color)
    void clear_highlight(int *arr)
    void *malloc(int size)
    void free(void *ptr)

  They are ordinary functions whose body is a single operation, so that calls of them are checked
  and run like any other call.
-/
import MiniC.Program

namespace MiniC.Program

/-- Add the variable of a parameter. -/
def addParameter (p : Program) (name : String) (ty : Ty) : SymbolId × Program :=
  p.addSymbol ⟨name, ty, ty.fixedSize?.getD 4, none, .nowhere⟩

/-- Add a function whose variables are its parameters. -/
def addBuiltin (p : Program) (name : String) (result : Ty) (params : List SymbolId) (b : Builtin) :
    Program :=
  (p.addFunction ⟨name, result, params, params, .builtin b, .nowhere⟩).2

/-- Add the functions that every program has. -/
def installBuiltins (p : Program) : Program :=
  let (array, p) := p.addParameter "arr" Ty.int.pointer
  let (index, p) := p.addParameter "index" Ty.int
  let (color, p) := p.addParameter "color" Ty.char.pointer
  let p := p.addBuiltin "highlight_index" Ty.void [array, index, color]
    (.highlightIndex array index color)
  let (array, p) := p.addParameter "arr" Ty.int.pointer
  let p := p.addBuiltin "clear_highlight" Ty.void [array] (.clearHighlight array)
  let (size, p) := p.addParameter "size" Ty.int
  let p := p.addBuiltin "malloc" Ty.voidPointer [size] (.malloc size)
  let (pointer, p) := p.addParameter "ptr" Ty.voidPointer
  p.addBuiltin "free" Ty.void [pointer] (.free pointer)

/-- The program that holds the builtin functions and nothing else. -/
def initial : Program := empty.installBuiltins

end MiniC.Program
