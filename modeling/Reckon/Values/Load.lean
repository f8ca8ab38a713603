import Reckon.Event
import Reckon.Values.Setting
import Reckon.Values.Source

/-!
# Loading values

The lines of a source are applied to a table one after the other. A line that fails is skipped, and
leaves the table as it is; what it fails with is collected.
-/

namespace Reckon.Values

/-- What loading leaves. -/
structure Loaded where
  /-- The table after all lines that did not fail. -/
  table : Table
  /-- The errors of the lines that failed, in the order of the lines. -/
  errors : Array LoadError := #[]

namespace Loaded

/-- Whether the source was loaded without error, or the error that stands for all. -/
def outcome (loaded : Loaded) : Except LoadError Unit :=
  LoadError.fold loaded.errors.toList

/-- What is reported of a line that sets a symbol. -/
def eventOf (number : Nat) : Setting → Event
  | .scalar name value => .scalarSet number name value
  | .array name length _ => .arraySet number name length

/-- Loads a line with a number. A line that is accepted is applied, as there is always room for the
cells of an array. -/
def load (loaded : Loaded) (number : Nat) (line : String) : Logging Loaded := do
  match Line.read loaded.table.kind? line with
  | .ok .blank => return loaded
  | .ok (.unknown word) =>
    report (.unknownSymbol number word)
    return loaded
  | .ok (.sets setting) =>
    report (eventOf number setting)
    return { loaded with table := setting.applyTo loaded.table }
  | .error cause =>
    let error := .onLine number cause
    report (.lineSkipped number error)
    return { loaded with errors := loaded.errors.push error }

/-- Loads lines, the first of which has a given number. -/
def loadLines (loaded : Loaded) (number : Nat) : List String → Logging Loaded
  | [] => return loaded
  | line :: lines => do
    let loaded ← loaded.load number line
    loaded.loadLines (number + 1) lines

end Loaded

/-- Loads what can be read of a source. -/
def Reading.load (reading : Reading) (table : Table) : Logging Loaded := do
  let loaded ← Loaded.loadLines { table } 1 reading.lines
  match reading.fault with
  | none => return loaded
  | some fault =>
    let error := .onLine (reading.lines.length + 1) (.unreadable fault)
    return { loaded with errors := loaded.errors.push error }

/-- Loads a source into a table. -/
def Source.load (source : Source) (table : Table) : Logging Loaded :=
  source.read.load table

end Reckon.Values
