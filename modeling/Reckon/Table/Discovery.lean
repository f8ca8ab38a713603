import Reckon.Event
import Reckon.Fault
import Reckon.Token

/-!
# The symbols of an expression

A name directly before an opening square bracket is that of an array, any other name that of a
scalar. A name may occur any number of times, but always as the same kind.
-/

namespace Reckon.Table

/-- What a name is, by the tokens that follow it. -/
def kindBefore : List Placed → Kind
  | ⟨.bracket .square .opening, _⟩ :: _ => .array
  | _ => .scalar

/-- Adds a symbol of a kind that a table has not. -/
def insert (table : Table) (kind : Kind) (name : String) : Table :=
  match kind with
  | .scalar => table.insertScalar name
  | .array => table.insertArray name

/-- Adds the symbols of a row of tokens to a table. -/
def discover (table : Table) : List Placed → Logged Fault Table
  | [] => return table
  | ⟨.name name, offset⟩ :: rest => do
    let kind := kindBefore rest
    match table.kind? name with
    | none => do
      report (.discovered kind name offset)
      discover (table.insert kind name) rest
    | some known =>
      if known = kind then discover table rest
      else throw ⟨offset, .kindConflict name⟩
  | _ :: rest => discover table rest

/-- The table of the symbols of a row of tokens, in the order of their first use. Scalars are zero
and arrays have no cells. -/
def ofTokens (tokens : Array Placed) : Logged Fault Table :=
  discover {} tokens.toList

/-- The table of the symbols of a text. -/
def ofText (text : String) : Except Fault Table :=
  (ofTokens (Token.scan text)).result

end Reckon.Table
