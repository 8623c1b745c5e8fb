/-
  Lowering of declarations: what programs, structures, functions and variables put in the tables.
-/
import MiniC.Lowering.Stmt
import MiniC.Code.Constant

namespace MiniC.Lower

/-- Lower nodes one after the other for what they declare. -/
def all (lower : Lowering) : List Node → Lower Unit
  | [] => pure ()
  | node :: nodes => do
    discard (lower node)
    all lower nodes

/-- A program. -/
def program (lower : Lowering) (node : Node) : Lower Lowered := do
  match node.shape with
  | .program items =>
    all lower items
    return .declared
  | _ => malformed node

/-- The definition of a structure. -/
def structDef (lower : Lowering) (node : Node) : Lower Lowered := do
  match node.shape with
  | .structDef name members =>
    if members.isEmpty then fail (.emptyStruct name) node.start
    beginStruct name node.start
    all lower members
    discard (finishStruct node.start)
    return .declared
  | _ => malformed node

/-- The definition of a function. -/
def functionDef (lower : Lowering) (node : Node) : Lower Lowered := do
  match node.shape with
  | .functionDef base stars name params body =>
    let result ← resolveType base stars node.start
    if result.structName?.isSome then fail (.structResult name result) node.start
    discard (beginFunction name result node.start)
    all lower params
    let b ← stmt lower body
    finishFunction b
    return .declared
  | _ => malformed node

/-- Declare a parameter, which holds a single word or character. -/
def declareParam (base : Base) (stars : Nat) (name : String) (loc : Location) : Lower Lowered := do
  let ty ← resolveType base stars loc
  if ty.isVoid then fail (.voidParameter name) loc
  if ty.structName?.isSome then fail (.structParameter name ty) loc
  let size ← sizeOf ty loc
  declare name ty size none true loc
  return .declared

/-- A parameter; one that is written as an array is a pointer. -/
def param (node : Node) : Lower Lowered := do
  match node.shape with
  | .param base item =>
    match item.shape with
    | .varItem stars name => declareParam base stars name item.start
    | .arrayItem stars name _ => declareParam base (stars + 1) name item.start
    | _ => malformed item
  | _ => malformed node

/-- The type of a variable or of the elements of an array. -/
def variableType (base : Base) (stars : Nat) (name : String) (loc : Location) : Lower Ty := do
  let ty ← resolveType base stars loc
  if ty.isVoid then fail (.voidVariable name) loc
  return ty

/-- The length of an array: a positive constant. -/
def arrayLength (lower : Lowering) (name : String) (size : Node) (loc : Location) :
    Lower ArraySpec := do
  let e ← expr lower size
  if ¬ e.ty.isArithmetic then fail (.arraySizeType name) loc
  let length ← require e.constant? .arraySizeNotConstant loc
  if length.toInt ≤ 0 then fail (.arraySizeNotPositive length) loc
  return ⟨length.toInt.toNat, e⟩

/-- Declare one variable of a declaration. -/
def variableItem (lower : Lowering) (base : Base) (item : Node) : Lower Unit := do
  let loc := item.start
  match item.shape with
  | .varItem stars name =>
    let ty ← variableType base stars name loc
    let size ← sizeOf ty loc
    declare name ty size none false loc
  | .arrayItem stars name size? =>
    let ty ← variableType base stars name loc
    match size? with
    | none => fail (.arraySizeMissing name) loc
    | some part =>
      let spec ← arrayLength lower name part loc
      let element ← sizeOf ty loc
      let size := spec.length * element
      if 4294967296 ≤ size then fail (.arrayTooLarge name) loc
      declare name ty.pointer size (some spec) false loc
  | _ => malformed item

/-- Declare the variables of a declaration one after the other. -/
def variableItems (lower : Lowering) (base : Base) : List Node → Lower Unit
  | [] => pure ()
  | item :: items => do
    variableItem lower base item
    variableItems lower base items

/-- A declaration of variables. -/
def varDec (lower : Lowering) (node : Node) : Lower Lowered := do
  match node.shape with
  | .varDec base items =>
    variableItems lower base items
    return .declared
  | _ => malformed node

end MiniC.Lower
