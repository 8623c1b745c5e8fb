/-
  Runs: the rules of execution tied together by fuel.

  Each call of a rule from a rule takes one unit of fuel, and so does each round of a loop.  A run
  that ends with some fuel ends in the same way with more; one that ends for want of fuel says so
  (`Stop.exhausted`) and is no statement about the program.
-/
import MiniC.Machine.Engine

namespace MiniC

mutual

/-- Execute an expression with the given fuel. -/
def execute (env : Env) : Nat → Expr → Run Resolved
  | 0, _ => throw .exhausted
  | n + 1, e => Engine.executeRule env ⟨execute env n, perform env n, iterate env n⟩ e

/-- Perform a statement with the given fuel. -/
def perform (env : Env) : Nat → Stmt → Run Unit
  | 0, _ => throw .exhausted
  | n + 1, s => Engine.performRule ⟨execute env n, perform env n, iterate env n⟩ s

/-- Go on with a loop with the given fuel. -/
def iterate (env : Env) : Nat → Loop → Run Unit
  | 0, _ => throw .exhausted
  | n + 1, l => Engine.iterateRule ⟨execute env n, perform env n, iterate env n⟩ l

end

/-- The engine with the given fuel. -/
def engine (env : Env) (fuel : Nat) : Engine := ⟨execute env fuel, perform env fuel, iterate env fuel⟩

namespace Run

/-- Give storage to the globals. -/
def allocateGlobals (env : Env) (engine : Engine) : List SymbolId → Run Unit
  | [] => pure ()
  | id :: ids => do
    let symbol := env.program.symbol id
    let a ← allocate symbol.size symbol.declaredAt
    modify fun m => { m with frames := m.frames.bindGlobal id a symbol.size }
    engine.registerArray symbol a
    allocateGlobals env engine ids

/-- Give storage to string literals and write them, each closed by a zero. -/
def allocateStrings : List String → Run Unit
  | [] => pure ()
  | text :: texts => do
    let bytes := Utf8.encode text ++ [0]
    let a ← allocate bytes.length .nowhere
    modify fun m => { m with strings := m.strings.push a }
    writeBytes a (.overflow "add") .nowhere bytes
    allocateStrings texts

/-- Set up what every run needs: the globals and then the string literals. -/
def start (env : Env) (engine : Engine) : Run Unit := do
  allocateGlobals env engine env.program.globals
  allocateStrings env.program.strings.toList

/-- Give up what every run needs, whether or not memory agrees. -/
def finish : Run Unit := do
  let globals := (← get).frames.globals
  modify fun m => { m with frames := m.frames.dropGlobals }
  discard (releaseAll (globals.reverse.map Binding.address))
  let strings := (← get).strings
  modify fun m => { m with strings := #[] }
  discard (releaseAll strings.toList)
  modify fun m => { m with callStack := [], pending := none, flow := .normal }

/-- A run from start to finish: call a function of the program with words as its arguments. -/
def call (env : Env) (fuel : Nat) (name : String) (args : List Word) : Run (Option Word) := do
  let id ← require (env.program.function? name) (.noEntryPoint name)
  let f := env.program.function id
  if f.params.length ≠ args.length then
    fault (.argumentCount name f.params.length args.length)
  let values := List.zipWith (fun p w => Value.mk (env.program.symbol p).ty w) f.params args
  let engine := engine env fuel
  let outcome ← attempt do
    start env engine
    noted id (Engine.named f.name (engine.invoke env id values f.definedAt))
  finish
  let returned ← conclude outcome
  return returned.map Value.word

end Run

end MiniC
