import Reckon.CommandLine

/-!
# The program

`reckon [-f] [-v PATH] [-s] EXPRESSION` reads the files that its arguments name, runs the
invocation and prints what it answers.
-/

namespace Reckon.CommandLine

/-- The arguments of the program. -/
structure Arguments where
  /-- Whether the expression is read from a file. -/
  fromFile : Bool := false
  /-- The file with the values. -/
  valuesPath : Option String := none
  /-- Whether the symbols are printed. -/
  printSymbols : Bool := false
  /-- The expression, or the file with it. -/
  contents : Option String := none

/-- How the program is used. -/
def usage : String := "Usage: reckon [-f] [-v PATH] [-s] EXPRESSION"

/-- Reads the arguments, in any order; `none` if they are not as the usage says. -/
def Arguments.read (arguments : Arguments) : List String → Option Arguments
  | [] => if arguments.contents.isSome then some arguments else none
  | "-f" :: rest | "--file" :: rest => { arguments with fromFile := true }.read rest
  | "-s" :: rest | "--print-symbols" :: rest => { arguments with printSymbols := true }.read rest
  | "-v" :: path :: rest | "--values" :: path :: rest =>
    { arguments with valuesPath := some path }.read rest
  | "--" :: text :: [] => { arguments with contents := some text }.read []
  | text :: rest =>
    if arguments.contents.isSome || text.startsWith "-" then none
    else { arguments with contents := some text }.read rest

/-- Opens a file. -/
def File.open (path : String) : IO File := do
  let content ← (some <$> IO.FS.readBinFile path) <|> pure none
  return { path, content }

end Reckon.CommandLine

open Reckon.CommandLine in
/-- Runs the program on its arguments. -/
def main (arguments : List String) : IO UInt32 := do
  match Arguments.read {} arguments with
  | none =>
    IO.eprintln usage
    return 2
  | some a =>
    let contents := a.contents.getD ""
    let expression ← if a.fromFile then Origin.firstLine <$> File.open contents
      else pure (.argument contents)
    let values ← a.valuesPath.mapM File.open
    let out := Invocation.run { expression, values, printSymbols := a.printSymbols }
    IO.print out.stdout
    IO.eprint out.stderr
    return UInt32.ofNat out.code
