/-
  Execution control: what decides, before each statement, whether the program goes on.

  A stepper answers from a queue of commands.  While paused it lets one statement pass for each
  `step` or `resume` and aborts when the queue is dry; while running it looks through the queue
  for a `pause` or an `abort` and goes on when there is none.  A budget in front of the control
  admits a number of checkpoints and aborts at all later ones.
-/
namespace MiniC

/-- The answer of a checkpoint. -/
inductive Verdict where
  | proceed
  | abort
  deriving Repr, DecidableEq

/-- What a stepper can be told. -/
inductive Command where
  | step
  | resume
  | pause
  | abort
  deriving Repr, DecidableEq

/-- A control driven by commands.  `closed` says that no command can follow those queued. -/
structure Stepper where
  paused : Bool
  queue : List Command
  closed : Bool
  deriving Repr, DecidableEq

namespace Stepper

/-- The verdict on a queue of commands, with the mode and the commands that are left. -/
def decide : Bool → List Command → Verdict × Bool × List Command
  | true, [] => (.abort, true, [])
  | true, .step :: q => (.proceed, true, q)
  | true, .resume :: q => (.proceed, false, q)
  | true, .pause :: q => decide true q
  | true, .abort :: q => (.abort, true, q)
  | false, [] => (.proceed, false, [])
  | false, .pause :: q => decide true q
  | false, .abort :: q => (.abort, false, q)
  | false, .step :: q => decide false q
  | false, .resume :: q => decide false q

/-- One checkpoint of a stepper. -/
def checkpoint (s : Stepper) : Verdict × Stepper :=
  let (verdict, paused, queue) := decide s.paused s.queue
  (verdict, { s with paused, queue })

/-- Queue a command, unless the stepper is closed. -/
def send? (s : Stepper) (c : Command) : Option Stepper :=
  if s.closed then none else some { s with queue := s.queue ++ [c] }

/-- Let no command follow. -/
def close (s : Stepper) : Stepper := { s with closed := true }

end Stepper

/-- The ways of controlling a run. -/
inductive Mode where
  /-- Never stops. -/
  | free
  /-- Stops while the flag is up. -/
  | flag (aborted : Bool)
  /-- Asks a stepper. -/
  | stepper (s : Stepper)
  deriving Repr, DecidableEq

/-- One checkpoint of a mode. -/
def Mode.checkpoint : Mode → Verdict × Mode
  | .free => (.proceed, .free)
  | .flag aborted => (if aborted then .abort else .proceed, .flag aborted)
  | .stepper s =>
    let (verdict, s) := s.checkpoint
    (verdict, .stepper s)

/-- A mode behind a budget of checkpoints; without a budget every checkpoint reaches the mode. -/
structure Control where
  mode : Mode
  budget : Option Nat
  deriving Repr, DecidableEq

namespace Control

/-- The control that never stops a run. -/
def unlimited : Control := ⟨.free, none⟩

/-- One checkpoint: a spent budget aborts without asking the mode. -/
def checkpoint (c : Control) : Verdict × Control :=
  match c.budget with
  | some 0 => (.abort, c)
  | some (n + 1) =>
    let (verdict, mode) := c.mode.checkpoint
    (verdict, ⟨mode, some n⟩)
  | none =>
    let (verdict, mode) := c.mode.checkpoint
    (verdict, ⟨mode, none⟩)

end Control

end MiniC
