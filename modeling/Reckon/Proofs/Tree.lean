import Reckon.Evaluation
import Reckon.Proofs.Denotation
import Reckon.Proofs.Logging

/-!
# Parse trees and their values

What an expression means, by recursion on its parse tree and without any stacks. A tree is `Valid`
with the values of a table if each of its subscripts is, and then it has a `value`. `Tree.eval` is
the same recursion with faults: it goes from left to right, and ends with the fault of the first
subscript that is not valid.

## Key results

- `Tree.eval_eq_ok_iff`: a tree evaluates to a value exactly if it is valid and has that value
-/

namespace Reckon

/-- The parse tree of an expression. A subscript keeps the byte offset of the name of its array,
    at which its faults show. -/
inductive Tree where
  /-- A number. -/
  | number (value : Float)
  /-- The name of a scalar. -/
  | scalar (name : String)
  /-- The name of an array and its subscript in square brackets. -/
  | cell (name : String) (offset : Nat) (subscript : Tree)
  /-- An expression in round brackets. -/
  | group (inner : Tree)
  /-- An operator between its operands. -/
  | binary (op : Operator) (left right : Tree)

namespace Table

/-- Whether a subscript is valid: the integer part of the number that it denotes is a signed 64 bit
    word that is not negative and, if the array is loaded, below its length. -/
def Accepts (table : Table) (name : String) (subscript : Float) : Prop :=
  ∃ q, Binary64.number? subscript = some q ∧
    0 ≤ Binary64.integerPart q ∧ Binary64.integerPart q ≤ 2 ^ 63 - 1 ∧
    ∀ length : Nat, (table.cells name).length? = some length → Binary64.integerPart q < length

/-- The cell of an array at a subscript: zero if the array is absent or was never loaded. -/
def cellAt (table : Table) (name : String) (subscript : Float) : Float :=
  match Binary64.number? subscript with
  | some q => ((table.cells name).get? (Binary64.integerPart q).toNat).getD 0
  | none => 0

/-- The cell of an array at a subscript, or the fault of the subscript. -/
def read (table : Table) (name : String) (offset : Nat) (subscript : Float) : Except Fault Float :=
  match Binary64.truncate? subscript with
  | none => .error ⟨offset, .invalidIndex name subscript⟩
  | some index =>
    match index.toNat?.bind (table.cells name).get? with
    | none => .error ⟨offset, .indexOutOfRange name index (table.cells name).length?⟩
    | some value => .ok value

end Table

namespace Cells

/-- An index is that of a cell unless the array is loaded and the index is not below its length. -/
theorem isSome_get?_iff {cells : Cells} {index : Nat} :
    (cells.get? index).isSome ↔ ∀ length, cells.length? = some length → index < length := by
  cases cells with
  | unloaded => simp [get?, length?]
  | loaded values => simp [get?, length?]

end Cells

namespace Table

variable {table : Table} {name : String} {offset : Nat} {subscript v : Float}

/-- A subscript is valid exactly if it is the index of a cell. -/
theorem accepts_iff :
    table.Accepts name subscript ↔
      ∃ i : Nat, Binary64.truncate? subscript = some (i : Int) ∧
        ((table.cells name).get? i).isSome := by
  simp only [Cells.isSome_get?_iff, Binary64.truncate?_eq_some_iff]
  constructor
  · rintro ⟨q, hq, hnonneg, hle, hlength⟩
    obtain ⟨i, hi⟩ := Int.eq_ofNat_of_zero_le hnonneg
    rw [hi] at hle hlength
    exact ⟨i, ⟨q, hq, hi, by omega, hle⟩, fun length h => Int.ofNat_lt.mp (hlength length h)⟩
  · rintro ⟨i, ⟨q, hq, hi, -, hle⟩, hlength⟩
    rw [← hi] at hle
    refine ⟨q, hq, hi ▸ Int.natCast_nonneg i, hle, fun length h => ?_⟩
    rw [hi]
    exact Int.ofNat_lt.mpr (hlength length h)

/-- What is read at an index. -/
theorem cellAt_of_truncate? {index : Int} (h : Binary64.truncate? subscript = some index) :
    table.cellAt name subscript = ((table.cells name).get? index.toNat).getD 0 := by
  obtain ⟨q, hq, rfl, -⟩ := Binary64.truncate?_eq_some_iff.mp h
  simp only [cellAt, hq]

/-- A cell can be read exactly at a valid subscript. -/
theorem read_eq_ok_iff :
    table.read name offset subscript = .ok v ↔
      table.Accepts name subscript ∧ table.cellAt name subscript = v := by
  rw [accepts_iff, read]
  cases hindex : Binary64.truncate? subscript with
  | none => simp
  | some index =>
    rw [cellAt_of_truncate? hindex]
    cases index with
    | ofNat i =>
      -- an index that is not negative is valid if the array has a cell there
      have hnat : (i : Int).toNat? = some i := rfl
      simp only [Int.ofNat_eq_natCast, hnat, Option.bind_some, Int.toNat_natCast,
        Option.some.injEq, Int.natCast_inj, exists_eq_left']
      cases (table.cells name).get? i <;> simp
    | negSucc i =>
      -- a negative one is no natural number, so there is no cell
      have hneg : ∀ n : Nat, Int.negSucc i ≠ (n : Int) := fun n => by omega
      simp [Int.toNat?, hneg]

/-- Where there is no cell, it is the subscript that is wrong, which shows at the name. -/
theorem read_eq_error {fault : Fault} (h : table.read name offset subscript = .error fault) :
    fault.offset = offset ∧ (fault.cause = .invalidIndex name subscript ∨
      ∃ index length, fault.cause = .indexOutOfRange name index length) := by
  unfold read at h
  split at h
  · obtain rfl := Except.error.inj h
    exact ⟨rfl, Or.inl rfl⟩
  · split at h
    · obtain rfl := Except.error.inj h
      exact ⟨rfl, Or.inr ⟨_, _, rfl⟩⟩
    · exact nomatch h

end Table

namespace Tree

/-- How many groups and subscripts are nested in one another. -/
def depth : Tree → Nat
  | number _ | scalar _ => 0
  | cell _ _ subscript => subscript.depth + 1
  | group inner => inner.depth + 1
  | binary _ left right => max left.depth right.depth

/-- The value of a tree with the values of a table. -/
def value (table : Table) : Tree → Float
  | number v => v
  | scalar name => table.scalarValue name
  | cell name _ subscript => table.cellAt name (subscript.value table)
  | group inner => inner.value table
  | binary op left right => op.apply (left.value table) (right.value table)

/-- Whether all subscripts in a tree are valid with the values of a table. -/
def Valid (table : Table) : Tree → Prop
  | number _ | scalar _ => True
  | cell name _ subscript => subscript.Valid table ∧ table.Accepts name (subscript.value table)
  | group inner => inner.Valid table
  | binary _ left right => left.Valid table ∧ right.Valid table

/-- The value of a tree with the values of a table, or the fault of the first of its subscripts
    that is not valid, from left to right and the inner ones first. -/
def eval (table : Table) : Tree → Except Fault Float
  | number v => .ok v
  | scalar name => .ok (table.scalarValue name)
  | cell name offset subscript => do
    let v ← subscript.eval table
    table.read name offset v
  | group inner => inner.eval table
  | binary op left right => do
    let l ← left.eval table
    let r ← right.eval table
    return op.apply l r

/-- A tree evaluates to a value exactly if its subscripts are valid and it has that value. -/
theorem eval_eq_ok_iff {table : Table} {t : Tree} {v : Float} :
    t.eval table = .ok v ↔ t.Valid table ∧ t.value table = v := by
  -- Induction on the tree: each node is a sequence of its parts, and ends as they do.
  induction t generalizing v with
  | number _ => simp [eval, Valid, value]
  | scalar _ => simp [eval, Valid, value]
  | cell name offset subscript ih =>
    simp only [eval, bind_eq_ok_iff, ih, Table.read_eq_ok_iff, Valid, value, and_assoc]
    constructor
    · rintro ⟨s, hv, rfl, ha, hc⟩
      exact ⟨hv, ha, hc⟩
    · rintro ⟨hv, ha, hc⟩
      exact ⟨_, hv, rfl, ha, hc⟩
  | group inner ih => exact ih
  | binary op left right ihl ihr =>
    simp only [eval, bind_eq_ok_iff, ihl, ihr, Valid, value]
    constructor
    · rintro ⟨l, ⟨hl, rfl⟩, r, ⟨hr, rfl⟩, hv⟩
      exact ⟨⟨hl, hr⟩, Except.ok.inj hv⟩
    · rintro ⟨⟨hl, hr⟩, rfl⟩
      exact ⟨_, ⟨hl, rfl⟩, _, ⟨hr, rfl⟩, rfl⟩

end Tree

end Reckon
