/-
  The command that runs the program in a file.  It reads the file and the standard input and
  writes what the command line says.
-/
import MiniC.CommandLine

namespace MiniC.CommandLine

/-- How the command is called. -/
def usage : String :=
  "usage: minic FILE [--entry NAME] [--memory BYTES] [--max-depth CALLS] [--watch-writes] [--step]"

/-- The text of a file. -/
def readSource (path : String) : IO (Except FileError String) := do
  try
    let bytes ← IO.FS.readBinFile path
    match String.fromUTF8? bytes with
    | some text => return .ok text
    | none => return .error .notText
  catch e =>
    match e with
    | .permissionDenied .. => return .error .denied
    | .inappropriateType .. => return .error .directory
    | _ => return .error .missing

/-- What a stream still holds, after the text read from it before. -/
partial def readRest (stream : IO.FS.Stream) (before : String) : IO String := do
  let line ← stream.getLine
  if line.isEmpty then return before
  readRest stream (before ++ line)

/-- Run the command. -/
def command (args : List String) : IO UInt32 := do
  match parse args with
  | .error .help =>
    IO.println usage
    return 0
  | .error .usage =>
    IO.eprintln usage
    return 1
  | .ok options =>
    let source ← readSource options.file
    let input ← if options.step then readRest (← IO.getStdin) "" else pure ""
    let outcome := execute options source input
    IO.print outcome.stdout
    IO.eprint outcome.stderr
    return outcome.exit.toUInt32

end MiniC.CommandLine

/-- The command. -/
def main (args : List String) : IO UInt32 := MiniC.CommandLine.command args
