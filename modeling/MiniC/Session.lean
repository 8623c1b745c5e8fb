/-
  Sessions: a program, the machine that it runs on, and what has been seen of it.

  A session compiles sources and runs functions, one after the other.  A source that does not
  compile leaves the session as it was; one that does gives up all storage of the program before
  it.  Between runs only heap blocks stay allocated.
-/
import MiniC.Machine.Run
import MiniC.Program.Build
import MiniC.Text.Report

namespace MiniC

/-- A program with the machine that it runs on. -/
structure Session where
  env : Env
  machine : Machine
  /-- The source that has last been compiled. -/
  source : String
  /-- Whether events that are meant for a picture are seen. -/
  pictured : Bool

namespace Session

/-- The fuel of a run, more than any run can use up. -/
def fuel : Nat := 1000000000000000000

/-- A session with no program but the builtin functions. -/
def new (config : Config) : Session where
  env := ⟨.full, config, .initial⟩
  machine := .idle config.capacity
  source := ""
  pictured := true

/-- A session that sees all writes to memory, or none. -/
def watching (s : Session) (watched : Bool) : Session :=
  { s with machine := { s.machine with memory := { s.machine.memory with watched } } }

/-- A session whose runs are under the given control. -/
def controlled (s : Session) (control : Control) : Session :=
  { s with machine := { s.machine with control } }

/-- Run a program in place of the one before it, on a machine without storage. -/
def load (s : Session) (program : Program) : Session :=
  { s with env := { s.env with program }, machine := s.machine.reset }

/-- Forget the program and all storage. -/
def reset (s : Session) : Session := s.load .initial

/-- Compile a source and load it. -/
def compile (s : Session) (source : String) : Except BuildError Session := do
  let program ← Program.ofSource s.env.grammar source
  return { s.load program with source }

/-- Call a function with words as its arguments, on the given fuel. -/
def callWithin (s : Session) (fuel : Nat) (name : String) (args : List Word) :
    Except Stop (Option Word) × Session :=
  match Run.call s.env fuel name args s.machine with
  | .ok w machine => (.ok w, { s with machine })
  | .error stop machine => (.error stop, { s with machine })

/-- Call a function with words as its arguments. -/
def call (s : Session) (name : String) (args : List Word) :
    Except Stop (Option Word) × Session :=
  s.callWithin fuel name args

/-- Call the entry point. -/
def run (s : Session) : Except Stop (Option Word) × Session := s.call s.env.config.entry []

/-- Whether a function is known. -/
def defines (s : Session) (name : String) : Bool := (s.env.program.function? name).isSome

/-- What has been seen since the last time that it was asked, in order. -/
def observe (s : Session) : List Event × Session :=
  let seen := s.machine.events.filter fun e => s.pictured || !e.isVisual
  (seen, { s with machine := { s.machine with log := [] } })

/-- The report of a fault: with the line of the source where it has a location. -/
def report (s : Session) (f : Fault) : String :=
  match f.loc? with
  | some loc => Report.render s.source loc f.message
  | none => f.message

end Session

end MiniC
