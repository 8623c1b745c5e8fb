/-
  Reports that show a fault under the source line it belongs to.

  `Report.render` writes the message, the numbered line and a caret below the column.  A position
  past the last character is reported as the end of the file instead.  Lines end at a newline, a
  carriage return right before it is dropped with it, and nothing else breaks a line.
-/
import MiniC.Text.Location

namespace MiniC.Report

/-- The characters up to the first newline, and what follows that newline if there is one. -/
def splitLine : List Char → List Char × Option (List Char)
  | [] => ([], none)
  | c :: cs =>
    if c = '\n' then ([], some cs)
    else
      let (line, rest) := splitLine cs
      (c :: line, rest)

/-- A line that a newline ended, without the carriage return before that newline. -/
def dropReturn (line : List Char) : List Char :=
  if line.getLast? = some '\r' then line.dropLast else line

/-- Line number `n`, from 0; a text that ends in a newline has no empty line after it. -/
def line (cs : List Char) : Nat → List Char
  | 0 =>
    match splitLine cs with
    | (first, some _) => dropReturn first
    | (first, none) => first
  | n + 1 =>
    match splitLine cs with
    | (_, some rest) => line rest n
    | (_, none) => []

/-- `n` in decimal, padded with zeros to four digits. -/
def gutter (n : Nat) : String :=
  let digits := toString n
  String.ofList (List.replicate (4 - digits.length) '0') ++ digits

/-- The report of a message at a location of `source`. -/
def render (source : String) (loc : Location) (message : String) : String :=
  if ¬ source.isEmpty ∧ source.length ≤ loc.offset then
    message ++ "\nUnexpected end of file"
  else
    let number := max loc.line 1
    message ++ "\n" ++ gutter number ++ " | " ++ String.ofList (line source.toList (number - 1)) ++ "\n"
      ++ "     | " ++ String.ofList (List.replicate (loc.column - 1) ' ') ++ "^"

end MiniC.Report
