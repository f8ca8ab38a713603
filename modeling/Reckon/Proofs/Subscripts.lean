import Reckon.Proofs.Evaluation

/-!
# Subscripts

A subscript is a double, and the index of a cell is the integer part of the number that it denotes.
The lemmas on `Table.read` say which of the two faults a subscript has, and what is read if it has
none, without the conversions in between.

## Key results

- `Evaluation.operand_subscript`: what a name and a subscript that has been evaluated give
-/

namespace Reckon

open Binary64 Logged

/-- There is no cell at an index exactly if the array is loaded and the index is not below its
    length. -/
theorem Cells.get?_eq_none_iff {cells : Cells} {index : Nat} :
    cells.get? index = none ↔ ∃ length, cells.length? = some length ∧ length ≤ index := by
  rw [← Option.not_isSome_iff_eq_none, isSome_get?_iff]
  push Not
  rfl

namespace Table

variable {table : Table} {name : String} {offset : Nat} {subscript : Float}

/-- A subscript is no index exactly if it is not finite or its integer part is no signed 64 bit
    word. -/
theorem read_eq_invalidIndex_iff :
    table.read name offset subscript = .error ⟨offset, .invalidIndex name subscript⟩ ↔
      subscript.isNaN ∨ subscript.isInf ∨
        ∃ q, number? subscript = some q ∧
          ¬(-2 ^ 63 ≤ integerPart q ∧ integerPart q ≤ 2 ^ 63 - 1) := by
  rw [← truncate?_eq_none_iff, read]
  cases truncate? subscript with
  | none => simp
  | some index =>
    dsimp only
    split <;> simp

/-- A negative index is out of range, whatever the array is. -/
theorem read_of_neg {index : Int} (h : truncate? subscript = some index) (hneg : index < 0) :
    table.read name offset subscript =
      .error ⟨offset, .indexOutOfRange name index (table.cells name).length?⟩ := by
  have hnat : index.toNat? = none := by
    cases index with
    | ofNat i => exact absurd (Int.natCast_nonneg i) (Int.not_le.mpr hneg)
    | negSucc i => rfl
  simp only [read, h, hnat, Option.bind_none]

/-- An index that is not negative is looked up among the cells. -/
theorem read_natCast {index : Nat} (h : truncate? subscript = some (index : Int)) :
    table.read name offset subscript =
      match (table.cells name).get? index with
      | none => .error ⟨offset, .indexOutOfRange name index (table.cells name).length?⟩
      | some value => .ok value := by
  have hnat : (index : Int).toNat? = some index := rfl
  cases hcell : (table.cells name).get? index <;>
    simp only [read, h, hnat, Option.bind_some, hcell]

/-- A subscript that is an index is out of range exactly if it is negative or, in a loaded array,
    not below the length. -/
theorem read_eq_indexOutOfRange_iff {index : Int} (h : truncate? subscript = some index) :
    table.read name offset subscript =
        .error ⟨offset, .indexOutOfRange name index (table.cells name).length?⟩ ↔
      index < 0 ∨ ∃ length : Nat, (table.cells name).length? = some length ∧ length ≤ index := by
  rcases Int.lt_or_le index 0 with hneg | hnonneg
  · exact iff_of_true (read_of_neg h hneg) (Or.inl hneg)
  · obtain ⟨i, rfl⟩ := Int.eq_ofNat_of_zero_le hnonneg
    have hnot : ¬(i : Int) < 0 := Int.not_lt.mpr hnonneg
    rw [read_natCast h]
    simp only [hnot, false_or, Int.ofNat_le, ← Cells.get?_eq_none_iff]
    cases (table.cells name).get? i <;> simp

/-- In a loaded array, an index below the length is that of a cell. -/
theorem read_loaded {values : Array Float} (hcells : table.cells name = .loaded values)
    {index : Nat} (hlt : index < values.size) (h : truncate? subscript = some (index : Int)) :
    table.read name offset subscript = .ok values[index] := by
  simp only [read_natCast h, hcells, Cells.get?, Array.getElem?_eq_getElem hlt]

/-- An array that was never loaded reads zero at each index that is not negative. -/
theorem read_unloaded (hcells : table.cells name = .unloaded) {index : Nat}
    (h : truncate? subscript = some (index : Int)) :
    table.read name offset subscript = .ok 0 := by
  simp only [read_natCast h, hcells, Cells.get?]

end Table

namespace Evaluation

variable {e : Evaluation} {room index stop first last offset : Nat} {h : stop ≤ e.tokens.size}
  {name : String} {s : Float}

/-- With the subscript evaluated, what is left is to read a cell. -/
theorem operand_cell_result (hlt : index < stop)
    (htok : e.tokens[index]? = some ⟨.name name, offset⟩)
    (hopens : e.opensSubscript (index + 1) stop h)
    (hpair : Bracket.square.pairWithin e.tokens (index + 1) stop h = .ok (first, last))
    (hsub : (e.evalSpan room (index + 2) (index + 1 + last)).result = .ok s) :
    (e.operand (some (e.evalSpan room)) index stop h hlt).result =
      e.table.read name offset s >>= fun v => .ok ⟨v, last + 1⟩ := by
  obtain ⟨_, hget⟩ := Array.getElem?_eq_some_iff.mp htok
  have hname : e.tokens[index].token = .name name := by rw [hget]
  have hgroup : (e.group (some (e.evalSpan room)) .square (index + 1) stop h).result =
      .ok (s, last) := by
    rw [group_result (evalSpan_appends room), hpair, ok_bind]
    show ((e.evalSpan room (index + 2) (index + 1 + last)).result >>= fun v => .ok (v, last)) = _
    rw [hsub, ok_bind]
  rw [operand_cell hname hopens,
    result_bind fun _ => (cell_appends ..).bind fun _ => appends_pure _, hgroup, ok_bind,
    result_bind fun _ => appends_pure _, cell_result, hget]
  rfl

/-- A name with a subscript that evaluates to a double. It is no index exactly if the double is not
    finite or the integer part of the number that it denotes is no signed 64 bit word. If it is an
    index, it is out of range exactly if it is negative or, in a loaded array, not below the length.
    If it is in range, the operand is the content of the cell, or zero if the array is absent or was
    never loaded. -/
theorem operand_subscript (hlt : index < stop)
    (htok : e.tokens[index]? = some ⟨.name name, offset⟩)
    (hopens : e.opensSubscript (index + 1) stop h)
    (hpair : Bracket.square.pairWithin e.tokens (index + 1) stop h = .ok (first, last))
    (hsub : (e.evalSpan room (index + 2) (index + 1 + last)).result = .ok s) :
    let result := (e.operand (some (e.evalSpan room)) index stop h hlt).result
    let cells := e.table.cells name
    (result = .error ⟨offset, .invalidIndex name s⟩ ↔
      s.isNaN ∨ s.isInf ∨
        ∃ q, number? s = some q ∧ ¬(-2 ^ 63 ≤ integerPart q ∧ integerPart q ≤ 2 ^ 63 - 1)) ∧
    ∀ q, number? s = some q → -2 ^ 63 ≤ integerPart q → integerPart q ≤ 2 ^ 63 - 1 →
      (result = .error ⟨offset, .indexOutOfRange name (integerPart q) cells.length?⟩ ↔
        integerPart q < 0 ∨ ∃ length : Nat, cells.length? = some length ∧ length ≤ integerPart q) ∧
      ∀ i : Nat, integerPart q = i →
        (∀ values, cells = .loaded values → ∀ hi : i < values.size,
          result = .ok ⟨values[i], last + 1⟩) ∧
        (cells = .unloaded → result = .ok ⟨0, last + 1⟩) := by
  intro result cells
  have hresult : result = e.table.read name offset s >>= fun v => .ok ⟨v, last + 1⟩ :=
    operand_cell_result hlt htok hopens hpair hsub
  have herror : ∀ fault, result = .error fault ↔ e.table.read name offset s = .error fault := by
    intro fault
    rw [hresult, bind_eq_error_iff]
    simp
  refine ⟨(herror _).trans Table.read_eq_invalidIndex_iff, ?_⟩
  intro q hq hleast hgreatest
  have hindex : truncate? s = some (integerPart q) :=
    truncate?_eq_some_iff.mpr ⟨q, hq, rfl, hleast, hgreatest⟩
  refine ⟨(herror _).trans (Table.read_eq_indexOutOfRange_iff hindex), ?_⟩
  intro i hi
  rw [hi] at hindex
  refine ⟨fun values hcells hlt => ?_, fun hcells => ?_⟩
  · rw [hresult, Table.read_loaded hcells hlt hindex, ok_bind]
  · rw [hresult, Table.read_unloaded hcells hindex, ok_bind]

/-- A fraction between minus one and zero is the index zero, and the greatest double below
    `2 ^ 63` is an index, which is out of range in a short array. -/
theorem operand_subscript_extreme :
    let table : Table :=
      { scalars := ⟨[("x", Float.ofBits 0xBFE0000000000000),
          ("y", Float.ofBits 0x43DFFFFFFFFFFFFF)]⟩
        arrays := ⟨[("A", .loaded #[7, 8])]⟩ }
    let e : Evaluation := { Formula.ofText "A[x] + A[y]" with table }
    ∃ h : 9 ≤ e.tokens.size,
      (e.operand (some (e.evalSpan 8)) 0 9 h (by decide)).result = .ok ⟨7, 3⟩ ∧
      (e.operand (some (e.evalSpan 8)) 5 9 h (by decide)).result =
        .error ⟨7, .indexOutOfRange "A" 9223372036854774784 (some 2)⟩ := by
  intro table e
  have hopens : ∀ h, e.opensSubscript 1 9 h ∧ e.opensSubscript 6 9 h := by decide +kernel
  have h : 9 ≤ e.tokens.size := by decide +kernel
  have hx : (e.evalSpan 8 2 3).result = .ok (Float.ofBits 0xBFE0000000000000) :=
    toOption_eq_some_iff.mp (by decide +kernel)
  have hy : (e.evalSpan 8 7 8).result = .ok (Float.ofBits 0x43DFFFFFFFFFFFFF) :=
    toOption_eq_some_iff.mp (by decide +kernel)
  have hfirst : e.tokens[0]? = some ⟨.name "A", 0⟩ := by with_unfolding_all rfl
  have hsecond : e.tokens[5]? = some ⟨.name "A", 7⟩ := by with_unfolding_all rfl
  have hpairs : ∀ h, Bracket.square.pairWithin e.tokens 1 9 h = .ok (0, 2) ∧
      Bracket.square.pairWithin e.tokens 6 9 h = .ok (0, 2) :=
    fun _ => ⟨by with_unfolding_all rfl, by with_unfolding_all rfl⟩
  refine ⟨h, ?_, ?_⟩
  · obtain ⟨-, hindex⟩ := operand_subscript (by decide) hfirst (hopens h).1 (hpairs h).1 hx
    exact ((hindex (-1 / 2) (by decide +kernel) (by decide +kernel) (by decide +kernel)).2 0
      (by decide +kernel)).1 #[7, 8] rfl (by decide)
  · obtain ⟨-, hindex⟩ := operand_subscript (by decide) hsecond (hopens h).2 (hpairs h).2 hy
    have hrange := (hindex 9223372036854774784 (by decide +kernel) (by decide +kernel)
      (by decide +kernel)).1
    have hpart : integerPart 9223372036854774784 = 9223372036854774784 := by decide +kernel
    rw [hpart] at hrange
    exact hrange.mpr (Or.inr ⟨2, rfl, by decide⟩)

end Evaluation

end Reckon
