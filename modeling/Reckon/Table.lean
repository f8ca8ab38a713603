import Reckon.Table.Bindings
import Reckon.Decimal

/-!
# The table of symbols

A symbol is a scalar, which has a value, or an array, which has cells once it has been loaded. A
table keeps both in the order of their insertion. A name that is in no table reads zero, and so does
every cell of an array that was never loaded.
-/

namespace Reckon

/-- The two kinds of symbols. -/
inductive Kind where
  | scalar
  | array
deriving DecidableEq, Repr

/-- The cells of an array. -/
inductive Cells where
  /-- The array was never loaded: it has no length and reads zero everywhere. -/
  | unloaded
  /-- The cells of a loaded array. -/
  | loaded (values : Array Float)
deriving BEq, DecidableEq

namespace Cells

/-- The length of a loaded array. -/
def length? : Cells → Option Nat
  | unloaded => none
  | loaded values => some values.size

/-- The cell at an index; `none` if it is not below the length. -/
def get? (cells : Cells) (index : Nat) : Option Float :=
  match cells with
  | unloaded => some 0
  | loaded values => values[index]?

/-- Whether the array is loaded and has no cells. -/
def isEmpty (cells : Cells) : Bool :=
  cells.length? = some 0

/-- The values of the cells in their order; none if the array was never loaded. -/
def toList : Cells → List Float
  | unloaded => []
  | loaded values => values.toList

/-- Whether there is a cell at an index that can be written. -/
def has (cells : Cells) (index : Nat) : Bool :=
  match cells with
  | unloaded => false
  | loaded values => index < values.size

/-- Writes the cell at an index, if there is one. -/
def set (cells : Cells) (index : Nat) (value : Float) : Cells :=
  match cells with
  | unloaded => unloaded
  | loaded values => loaded (values.setIfInBounds index value)

/-- The greatest number of bytes that cells can take up, at eight bytes a cell. -/
def greatestSize : Nat := 0x7FFFFFFFFFFFFFFF

/-- A row of zeros; `none` if it would take up more bytes than there can be. -/
def allocate? (length : Nat) : Option Cells :=
  if length * 8 ≤ greatestSize then some (loaded (Array.replicate length 0)) else none

end Cells

/-- The scalars and arrays of an expression, both in the order of their insertion. -/
structure Table where
  scalars : Bindings Float := {}
  arrays : Bindings Cells := {}
deriving BEq, DecidableEq

namespace Table

/-- The number of symbols. -/
def size (table : Table) : Nat :=
  table.scalars.size + table.arrays.size

/-- Whether a table has no symbols. -/
def isEmpty (table : Table) : Bool :=
  table.scalars.entries.isEmpty && table.arrays.entries.isEmpty

/-- What a name is: a scalar before an array, should it be both. -/
def kind? (table : Table) (name : String) : Option Kind :=
  if table.scalars.contains name then some .scalar
  else if table.arrays.contains name then some .array
  else none

/-- The value of a scalar; a name that is no scalar reads zero. -/
def scalarValue (table : Table) (name : String) : Float :=
  (table.scalars.get? name).getD 0

/-- The cells of an array; a name that is no array reads like an array that was never loaded. -/
def cells (table : Table) (name : String) : Cells :=
  (table.arrays.get? name).getD .unloaded

/-! ## Kinds -/

section

variable {table : Table} {name : String}

/-- A name is no symbol exactly if it is neither a scalar nor an array. -/
theorem kind?_eq_none_iff :
    table.kind? name = none ↔
      table.scalars.get? name = none ∧ table.arrays.get? name = none := by
  unfold kind? Bindings.contains
  split
  · next hs => simp [Option.isSome_iff_ne_none.mp hs]
  · next hs =>
    split
    · next ha => simp [Option.isSome_iff_ne_none.mp ha]
    · next ha => simp [Option.not_isSome_iff_eq_none.mp hs, Option.not_isSome_iff_eq_none.mp ha]

/-- A name that is a scalar has a value. -/
theorem exists_scalar_of_kind? (h : table.kind? name = some .scalar) :
    ∃ value, table.scalars.get? name = some value := by
  unfold kind? at h
  split at h
  · next hs => exact Option.isSome_iff_exists.mp hs
  · split at h <;> exact nomatch h

/-- A name that is an array has cells. -/
theorem exists_cells_of_kind? (h : table.kind? name = some .array) :
    ∃ cells, table.arrays.get? name = some cells := by
  unfold kind? at h
  split at h
  · exact nomatch h
  · split at h
    · next ha => exact Option.isSome_iff_exists.mp ha
    · exact nomatch h

end

/-! ## Changes -/

/-- Adds a scalar of value zero, unless the name is a scalar already. -/
def insertScalar (table : Table) (name : String) : Table :=
  { table with scalars := table.scalars.insertNew name 0 }

/-- Adds an array without cells, unless the name is an array already. -/
def insertArray (table : Table) (name : String) : Table :=
  { table with arrays := table.arrays.insertNew name .unloaded }

/-- Gives a scalar a value, if the name is one. -/
def setScalar (table : Table) (name : String) (value : Float) : Table :=
  { table with scalars := table.scalars.update name fun _ => value }

/-- Gives an array its cells, if the name is one. -/
def setCells (table : Table) (name : String) (cells : Cells) : Table :=
  { table with arrays := table.arrays.update name fun _ => cells }

/-- Writes a cell of an array, if the name is one and there is such a cell. -/
def setCell (table : Table) (name : String) (index : Nat) (value : Float) : Table :=
  { table with arrays := table.arrays.update name (·.set index value) }

/-! ## Text -/

/-- The scalars, each as its name and its value. -/
def scalarTexts (table : Table) : List String :=
  table.scalars.entries.map fun (name, value) => s!"{name}={Decimal.text value}"

/-- The arrays, each as its name and the values of its cells. -/
def arrayTexts (table : Table) : List String :=
  table.arrays.entries.map fun (name, cells) =>
    let values := ", ".intercalate (cells.toList.map Decimal.text)
    s!"{name}=[{values}]"

end Table

end Reckon
