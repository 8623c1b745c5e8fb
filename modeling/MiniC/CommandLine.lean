/-
  The command line: run the program in a file.

  The arguments are the file and the options `--entry`, `--memory`, `--max-depth` (each with a
  value), `--watch-writes` and `--step`.  `parse` reads them, and `execute` runs the source and
  says what is written and with which code the command ends.

  An option is recognized by its name after any number of leading dashes.  Its value follows an
  equals sign or is the next argument; where that is an option too, the option has no value and
  means its default.  After `--` every argument is a file.  No option may be given twice.
-/
import MiniC.Session
import MiniC.Text.Blank

namespace MiniC.CommandLine

/-- What the arguments ask for. -/
structure Options where
  file : String
  config : Config
  /-- Whether every write to memory is printed. -/
  watch : Bool
  /-- Whether to pause before each statement and to read commands. -/
  step : Bool
  deriving Repr, DecidableEq

/-- Why nothing is run. -/
inductive Refusal where
  /-- The arguments ask for help or for the version. -/
  | help
  /-- The arguments make no sense. -/
  | usage
  deriving Repr, DecidableEq

/-! ## Arguments -/

/-- The options that take a value. -/
inductive Setting where
  | entry
  | memory
  | maxDepth
  deriving Repr, DecidableEq

/-- The options that take none. -/
inductive Switch where
  | watchWrites
  | step
  deriving Repr, DecidableEq

/-- The setting of a name. -/
def Setting.ofName? (name : String) : Option Setting :=
  if name = "entry" then some .entry
  else if name = "memory" then some .memory
  else if name = "max-depth" then some .maxDepth
  else none

/-- The switch of a name. -/
def Switch.ofName? (name : String) : Option Switch :=
  if name = "watch-writes" then some .watchWrites
  else if name = "step" then some .step
  else none

/-- One thing that the arguments say. -/
inductive Item where
  | file (path : String)
  | setting (s : Setting) (value : Option String)
  | switch (s : Switch)
  deriving Repr, DecidableEq

/-- What an argument is, seen alone. -/
inductive Argument where
  | value (text : String)
  | separator
  | setting (s : Setting) (value : Option String)
  | switch (s : Switch)
  | help
  | unknown
  deriving Repr, DecidableEq

/-- A long option: its name, and what follows an equals sign. -/
def longArgument (body : List Char) : Argument :=
  let (name, rest) := body.span fun c => c ≠ '='
  let name := String.ofList name
  let value := if rest.isEmpty then none else some (String.ofList (rest.dropWhile fun c => c = '='))
  match Setting.ofName? name, Switch.ofName? name with
  | some s, _ => .setting s value
  | none, some s => .switch s
  | none, none => if name = "help" ∨ name = "version" then .help else .unknown

/-- What an argument is.  A dash alone is a value. -/
def Argument.ofText (text : String) : Argument :=
  match text.toList with
  | ['-', '-'] => .separator
  | '-' :: '-' :: cs => longArgument (cs.dropWhile fun c => c = '-')
  | '-' :: c :: _ => if c = 'h' ∨ c = 'V' then .help else .unknown
  | _ => .value text

/-- What arguments say, from left to right; `hasFile` tells whether a file has come before. -/
def scan (hasFile : Bool) : List String → Except Refusal (List Item)
  | [] => .ok []
  | arg :: rest =>
    match Argument.ofText arg with
    | .value path =>
      if hasFile then .error .usage else (scan true rest).map (.file path :: ·)
    | .separator => .ok (rest.map .file)
    | .switch s => (scan hasFile rest).map (.switch s :: ·)
    | .help => .error .help
    | .unknown => .error .usage
    | .setting s (some v) => (scan hasFile rest).map (.setting s (some v) :: ·)
    | .setting s none =>
      match rest with
      | [] => .ok [.setting s none]
      | next :: later =>
        match Argument.ofText next with
        | .value v => (scan hasFile later).map (.setting s (some v) :: ·)
        | _ => (scan hasFile (next :: later)).map (.setting s none :: ·)

/-! ## Options -/

/-- Reads a value of a setting, which may be given once; without one it is `default`. -/
def setting {α : Type} (items : List Item) (s : Setting) (default : α)
    (read : String → Option α) : Except Refusal α :=
  let given := items.filterMap fun
    | .setting t v => if t = s then some v else none
    | _ => none
  match given with
  | [] | [none] => .ok default
  | [some text] => ((read text).map Except.ok).getD (.error .usage)
  | _ => .error .usage

/-- Whether a switch is given, which may be once. -/
def switch (items : List Item) (s : Switch) : Except Refusal Bool :=
  match items.count (.switch s) with
  | 0 => .ok false
  | 1 => .ok true
  | _ => .error .usage

/-- The one file. -/
def theFile (items : List Item) : Except Refusal String :=
  let files := items.filterMap fun
    | .file path => some path
    | _ => none
  match files with
  | [path] => .ok path
  | _ => .error .usage

/-- A number of memory bytes. -/
def readCapacity (text : String) : Option UInt32 :=
  match Decimal.ofChars? text.toList with
  | some n => if n < 4294967296 then some (UInt32.ofNat n) else none
  | none => none

/-- A number of nested calls. -/
def readDepth (text : String) : Option Nat :=
  match Decimal.ofChars? text.toList with
  | some n => if n < 18446744073709551616 then some n else none
  | none => none

/-- What the arguments ask for. -/
def parse (args : List String) : Except Refusal Options := do
  let items ← scan false args
  let file ← theFile items
  let entry ← setting items .entry Config.standard.entry some
  let capacity ← setting items .memory Config.standard.capacity readCapacity
  let maxDepth ← setting items .maxDepth Config.standard.maxDepth readDepth
  let watch ← switch items .watchWrites
  let step ← switch items .step
  return ⟨file, ⟨capacity, maxDepth, entry⟩, watch, step⟩

/-! ## Commands -/

/-- The lines of a text, without their newlines; `line` is what has been read of the first one,
    in reverse. -/
def linesFrom (line : List Char) : List Char → List (List Char)
  | [] => if line.isEmpty then [] else [line.reverse]
  | c :: cs => if c = '\n' then line.reverse :: linesFrom [] cs else linesFrom (c :: line) cs

/-- The commands that lines stand for: `q` aborts, `c` resumes and all else steps.  Nothing is
    read after an abort. -/
def commands : List (List Char) → List Command
  | [] => []
  | line :: lines =>
    match trim line with
    | ['q'] => [.abort]
    | ['c'] => .resume :: commands lines
    | _ => .step :: commands lines

/-- The control that pauses before each statement and is driven by a text. -/
def stepping (input : String) : Control :=
  ⟨.stepper ⟨true, commands (linesFrom [] input.toList), true⟩, none⟩

/-! ## Execution -/

/-- What a command writes and the code that it ends with. -/
structure Outcome where
  exit : UInt8
  stdout : String
  stderr : String
  deriving Repr, DecidableEq

/-- Why a source file cannot be read. -/
inductive FileError where
  | missing
  | denied
  | directory
  | notText
  deriving Repr, DecidableEq

/-- The message of an error. -/
def FileError.message : FileError → String
  | missing => "No such file or directory (os error 2)"
  | denied => "Permission denied (os error 13)"
  | directory => "Is a directory (os error 21)"
  | notText => "stream did not contain valid UTF-8"

/-- The end of a command that could not do its work. -/
def failed (stdout message : String) : Outcome := ⟨1, stdout, message ++ "\n"⟩

/-- The end of a command whose arithmetic has overflowed. -/
def overflowed (stdout message : String) : Outcome := ⟨101, stdout, message ++ "\n"⟩

/-- What is printed of an event. -/
def eventLine : Event → String
  | .wrote a w => "write " ++ a.text ++ " <- " ++ w.text ++ "\n"
  | _ => ""

/-- The session that the options ask for. -/
def Options.session (o : Options) (input : String) : Session :=
  let s := { (Session.new o.config).watching o.watch with pictured := false }
  if o.step then s.controlled (stepping input) else s

/-- Run a source; `input` is what stands on the standard input. -/
def execute (o : Options) (source : Except FileError String) (input : String) : Outcome :=
  match source with
  | .error e => failed "" e.message
  | .ok source =>
    match (o.session input).compile source with
    | .error (.compilation ⟨.overflow, _⟩) => overflowed "" CompileCause.overflow.message
    | .error e => failed "" ("Compilation failed\n" ++ Report.render source e.loc e.message)
    | .ok s =>
      let (result, s) := s.run
      let writes := String.join (s.observe.1.map eventLine)
      match result with
      | .ok (some w) => ⟨0, writes ++ o.config.entry ++ " returned " ++ w.text ++ "\n", ""⟩
      | .ok none => ⟨0, writes ++ o.config.entry ++ " finished\n", ""⟩
      | .error (.fault (.memory (.overflow operation) _)) =>
        overflowed writes (MemoryError.overflow operation).message
      | .error (.fault f) => failed writes ("Runtime error\n" ++ s.report f)
      | .error .aborted | .error .exhausted => ⟨0, writes, "execution aborted\n"⟩

end MiniC.CommandLine
