import Reckon.Proofs.Evaluation

/-!
# Walks over a tree

`Evaluation.walk` evaluates a parse tree by recursion and reports as it goes: both operands of an
operator before it is applied, the left one first, and a subscript before the cell is read. Its
result is that of the tree, and what it reports is `Tree.events`, of which `Tree.postorder` are the
operators that are applied and the cells that are read.

## Key results

- `Evaluation.walk_result`: a walk ends as the tree does
- `Evaluation.walk_gives`: a walk that ends with a value reports the events of the tree
-/

namespace Reckon

open Logged

/-! ## Events -/

namespace Event

/-- Whether an event is a step of a calculation: an operator is applied, or a cell is read. -/
def isStep : Event → Bool
  | applied .. | cellRead .. => true
  | _ => false

/-- The operator that is put on the stack, if one is. -/
def pushedOperator? : Event → Option Operator
  | operatorPushed op => some op
  | _ => none

/-- The operand that is put on the stack, if one is. -/
def pushedOperand? : Event → Option Float
  | operandPushed value => some value
  | _ => none

end Event

namespace Tree

/-- The cell that is read at a subscript, with the integer part of the number that it denotes. -/
def cellEvent (table : Table) (name : String) (subscript : Float) : Event :=
  .cellRead name (((Binary64.number? subscript).map Binary64.integerPart).getD 0)
    (table.cellAt name subscript)

/-- The steps of the calculation of a tree in post-order: a node after all that is below it, and
    the left operand of an operator before the right one. -/
def postorder (table : Table) : Tree → List Event
  | number _ | scalar _ => []
  | cell name _ subscript =>
    subscript.postorder table ++ [cellEvent table name (subscript.value table)]
  | group inner => inner.postorder table
  | binary op left right =>
    left.postorder table ++ right.postorder table ++
      [.applied (left.value table) op (right.value table)
        (op.apply (left.value table) (right.value table))]

/-- The values of the numbers, scalars, cells and groups of a tree in post-order. -/
def operands (table : Table) : Tree → List Float
  | number v => [v]
  | scalar name => [table.scalarValue name]
  | cell name offset subscript =>
    subscript.operands table ++ [(cell name offset subscript).value table]
  | group inner => inner.operands table ++ [inner.value table]
  | binary _ left right => left.operands table ++ right.operands table

/-- All that is reported of a tree. An operator is put on the stack between its operands. -/
def events (table : Table) : Tree → List Event
  | number v => [.operandPushed v]
  | scalar name => [.operandPushed (table.scalarValue name)]
  | cell name offset subscript =>
    subscript.events table ++ [cellEvent table name (subscript.value table),
      .operandPushed ((cell name offset subscript).value table)]
  | group inner => inner.events table ++ [.operandPushed (inner.value table)]
  | binary op left right =>
    left.events table ++ .operatorPushed op :: right.events table ++
      [.applied (left.value table) op (right.value table)
        (op.apply (left.value table) (right.value table))]

/-- The steps among the events of a tree are those of its post-order. -/
theorem filter_isStep_events (table : Table) (t : Tree) :
    (t.events table).filter Event.isStep = t.postorder table := by
  induction t with
  | number v => rfl
  | scalar name => rfl
  | cell name offset subscript ih =>
    simp [events, postorder, ih, cellEvent, List.filter_cons, Event.isStep]
  | group inner ih => simp [events, postorder, ih, Event.isStep]
  | binary op left right ihl ihr => simp [events, postorder, ihl, ihr, Event.isStep]

/-- Each number, scalar, cell and group of a tree is put on the stack once. -/
theorem filterMap_pushedOperand?_events (table : Table) (t : Tree) :
    (t.events table).filterMap Event.pushedOperand? = t.operands table := by
  induction t with
  | number v => rfl
  | scalar name => rfl
  | cell name offset subscript ih =>
    simp [events, operands, ih, cellEvent, List.filterMap_cons, Event.pushedOperand?]
  | group inner ih => simp [events, operands, ih, Event.pushedOperand?]
  | binary op left right ihl ihr =>
    simp [events, operands, ihl, ihr, List.filterMap_cons, Event.pushedOperand?]

end Tree

/-! ## Walks -/

namespace Evaluation

/-- Puts the value of a computation on the stack of operands, as far as the log shows. -/
def pushed (x : Logged Fault Float) : Logged Fault Float := do
  let v ← x
  report (.operandPushed v)
  return v

/-- Evaluates a tree by recursion, and reports as an evaluation of its tokens does. -/
def walk (e : Evaluation) : Tree → Logged Fault Float
  | .number v => pushed (pure v)
  | .scalar name => pushed (pure (e.table.scalarValue name))
  | .cell name offset subscript => pushed do
    let v ← e.walk subscript
    e.cell name offset v
  | .group inner => pushed (e.walk inner)
  | .binary op left right => do
    let l ← e.walk left
    report (.operatorPushed op)
    let r ← e.walk right
    report (.applied l op r (op.apply l r))
    return op.apply l r

variable {e : Evaluation} {inner : Inner} {stop : Nat} {h : stop ≤ e.tokens.size}

theorem pushed_appends {x : Logged Fault Float} (hx : x.Appends) : (pushed x).Appends :=
  hx.bind fun _ => (appends_report _).bind fun _ => appends_pure _

/-- What is put on a stack is the value of the computation. -/
theorem pushed_result (x : Logged Fault Float) : (pushed x).result = x.result := by
  rw [pushed, result_bind fun _ => (appends_report _).bind fun _ => appends_pure _]
  cases x.result <;> rfl

/-- Where an operand is expected, one is evaluated and put on the stack. -/
theorem run_of_operand {index : Nat} {hlt : index < stop} {x : Logged Fault Float} {more : Nat}
    (hx : e.operand inner index stop h hlt = (do let v ← x; return ⟨v, more⟩)) (pending : Stacks) :
    e.run inner stop h index pending = (do
      let v ← pushed x
      e.resume inner h (index + 1 + more) { pending with operands := v :: pending.operands }) := by
  simp only [run_eq hlt, hx, pushed, Stacks.pushOperand, bind_assoc, pure_bind]

theorem walk_appends (e : Evaluation) (t : Tree) : (e.walk t).Appends := by
  induction t with
  | number v => exact pushed_appends (appends_pure _)
  | scalar name => exact pushed_appends (appends_pure _)
  | cell name offset subscript ih => exact pushed_appends (ih.bind fun _ => cell_appends ..)
  | group inner ih => exact pushed_appends ih
  | binary op left right ihl ihr =>
    exact ihl.bind fun _ => (appends_report _).bind fun _ => ihr.bind fun _ =>
      (appends_report _).bind fun _ => appends_pure _

/-- A walk ends as the tree does. -/
theorem walk_result (e : Evaluation) (t : Tree) : (e.walk t).result = t.eval e.table := by
  induction t with
  | number v => exact pushed_result _
  | scalar name => exact pushed_result _
  | cell name offset subscript ih =>
    rw [walk, pushed_result, result_bind fun _ => cell_appends .., ih]
    simp only [cell_result, Tree.eval]
  | group inner ih => rw [walk, pushed_result, ih, Tree.eval]
  | binary op left right ihl ihr =>
    -- what comes after the left operand, which the result passes over but for the right one
    have happlied : ∀ l r : Float, (do
        report (.applied l op r (op.apply l r))
        return op.apply l r : Logged Fault Float).Appends :=
      fun _ _ => (appends_report _).bind fun _ => appends_pure _
    rw [walk, Tree.eval, result_bind fun l => (appends_report _).bind fun _ =>
      (walk_appends e right).bind (happlied l), ihl]
    congr 1
    funext l
    rw [result_bind fun _ => (walk_appends e right).bind (happlied l), result_report, ok_bind,
      result_bind (happlied l), ihr]
    rfl

/-! ## The log of a walk -/

theorem pushed_gives {x : Logged Fault Float} {v : Float} {events : List Event}
    (hx : x.Gives v events) : (pushed x).Gives v (events ++ [.operandPushed v]) := by
  apply hx.bind
  exact (gives_report _).bind (gives_pure v)

/-- A cell that can be read is reported with the integer part of its subscript. -/
theorem cell_gives {name : String} {offset : Nat} {subscript v : Float}
    (hread : e.table.read name offset subscript = .ok v) :
    (e.cell name offset subscript).Gives v [Tree.cellEvent e.table name subscript] := by
  have hcell := (Table.read_eq_ok_iff.mp hread).2
  unfold Table.read at hread
  unfold cell Tree.cellEvent
  cases htrunc : Binary64.truncate? subscript with
  | none =>
    rw [htrunc] at hread
    exact nomatch hread
  | some index =>
    obtain ⟨q, hq, hindex, -⟩ := Binary64.truncate?_eq_some_iff.mp htrunc
    simp only [htrunc] at hread
    cases hvalue : index.toNat?.bind (e.table.cells name).get? with
    | none =>
      rw [hvalue] at hread
      exact nomatch hread
    | some value =>
      rw [hvalue] at hread
      obtain rfl : value = v := Except.ok.inj hread
      simp only [hvalue, hq, hindex, Option.map_some, Option.getD_some, hcell]
      exact (gives_report _).bind (gives_pure value)

/-- A walk that ends with a value reports the events of the tree. -/
theorem walk_gives {t : Tree} (hvalid : t.Valid e.table) :
    (e.walk t).Gives (t.value e.table) (t.events e.table) := by
  induction t with
  | number v => exact pushed_gives (gives_pure v)
  | scalar name => exact pushed_gives (gives_pure _)
  | cell name offset subscript ih =>
    have hread : e.table.read name offset (subscript.value e.table) =
        .ok (e.table.cellAt name (subscript.value e.table)) :=
      Table.read_eq_ok_iff.mpr ⟨hvalid.2, rfl⟩
    have hcell := pushed_gives ((ih hvalid.1).bind (cell_gives hread))
    rw [List.append_assoc] at hcell
    exact hcell
  | group inner ih => exact pushed_gives (ih hvalid)
  | binary op left right ihl ihr =>
    have hright : ∀ l : Float, (do
        let r ← e.walk right
        report (.applied l op r (op.apply l r))
        return op.apply l r : Logged Fault Float).Gives (op.apply l (right.value e.table))
          (right.events e.table ++
            [.applied l op (right.value e.table) (op.apply l (right.value e.table))]) := by
      intro l
      apply (ihr hvalid.2).bind
      exact (gives_report _).bind (gives_pure _)
    rw [Tree.events, List.append_assoc]
    apply (ihl hvalid.1).bind
    exact (gives_report (.operatorPushed op)).bind (hright (left.value e.table))

end Evaluation

end Reckon
