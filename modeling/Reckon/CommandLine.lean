import Reckon.Expression

/-!
# The command line

What the program does with its arguments, given the contents of the files that they name: it reads
an expression, builds its symbols, loads values, prints the symbols if that is asked for, and prints
the value. `Invocation.run` is a function, so what is printed depends on nothing else.
-/

namespace Reckon.CommandLine

/-- A file that is named on the command line. -/
structure File where
  path : String
  /-- The bytes of the file; `none` if it cannot be opened. -/
  content : Option ByteArray

/-- Where the expression is found. -/
inductive Origin where
  /-- The expression is an argument. -/
  | argument (text : String)
  /-- The expression is the first line of a file. -/
  | firstLine (file : File)

/-- What the program is asked to do. -/
structure Invocation where
  expression : Origin
  values : Option File := none
  /-- Whether the symbols are printed before the value. -/
  printSymbols : Bool := false

/-- What the program prints, and how it ends. -/
structure Output where
  code : Nat := 0
  stdout : String := ""
  stderr : String := ""
deriving DecidableEq

namespace Output

/-- Prints a line. -/
def print (out : Output) (line : String) : Output :=
  { out with stdout := out.stdout ++ line ++ "\n" }

/-- Prints a line about an error. -/
def complain (out : Output) (line : String) : Output :=
  { out with stderr := out.stderr ++ line ++ "\n" }

/-- Ends with an error. -/
def fail (out : Output) (line : String) : Output :=
  { out.complain line with code := 1 }

end Output

/-- The text of the expression, or what is printed if the file with it cannot be read. -/
def Origin.read : Origin → Except String String
  | argument text => .ok text
  | firstLine file =>
    match file.content.bind String.fromUTF8? with
    | some text => .ok (String.ofList (Text.firstLine text.toList))
    | none =>
      .error s!"Failed to read the input file '{file.path}'. Perhaps this file does not exist?"

namespace Invocation

/-- Prints the symbols, if that is asked for, and the value. -/
def finish (inv : Invocation) (x : Expression) (out : Output) : Output :=
  let out :=
    if inv.printSymbols then
      (x.table.scalarTexts ++ x.table.arrayTexts).foldl Output.print out
    else out
  match x.eval.result with
  | .ok value => out.print (Decimal.text value)
  | .error fault => out.fail fault.message

/-- Loads the values, if there are any, and goes on. Errors of the values do not end the program,
but a file that cannot be opened does. -/
def loadAndFinish (inv : Invocation) (x : Expression) (out : Output) : Output :=
  match inv.values with
  | none => inv.finish x out
  | some ⟨path, none⟩ =>
    out.fail s!"Failed to open the values file '{path}'. Perhaps this file does not exist?"
  | some ⟨_, some bytes⟩ =>
    let (x, outcome) := (x.load (.ofBytes bytes) #[]).1
    let errors := match outcome with
      | .ok () => []
      | .error error => error.errors
    inv.finish x (errors.foldl (fun out error => out.complain error.message) out)

/-- Runs the program. -/
def run (inv : Invocation) : Output :=
  match inv.expression.read with
  | .error line => Output.fail {} line
  | .ok text =>
    let x := Expression.ofText (String.ofList (Text.trim text.toList))
    match x.build.result with
    | .error fault => Output.fail {} fault.message
    | .ok x => inv.loadAndFinish x {}

end Invocation

end Reckon.CommandLine
