import Reckon.Proofs.Nesting

/-!
# The points that an evaluation reaches

An evaluation goes through the operands of a span and into the brackets that it meets, until it has
a value or a fault. `Evaluation.Reaches` says at which points it expects an operand on its way: in
which span, at which index, with how many levels of brackets left, and with which operands and
operators waiting. `Evaluation.Searches` says for which brackets it looks for a partner.

Every point that is reached satisfies `Evaluation.Point`, which is shown once, by induction on how
it is reached, and is what every later statement about points needs.

## Key results

- `Reaches.point`: the invariant of the points that an evaluation reaches
- `Stacks.reduce_of_balanced`: operators that wait never lack their operands
-/

namespace Reckon

open Logged

/-! ## Balanced stacks -/

namespace Stacks

/-- Whether there is one operand more than there are operators. -/
def Balanced (pending : Stacks) : Prop :=
  pending.operands.length = pending.operators.length + 1

theorem reduceFrom_of_balanced (applies : Operator → Bool) (offset : Nat) {vs : List Float}
    {ops : List Operator} (h : vs.length = ops.length + 1) :
    ∃ pending, (reduceFrom applies offset vs ops).result = .ok pending ∧ pending.Balanced := by
  -- Induction on the operators: applying one takes away an operand, too.
  induction ops generalizing vs with
  | nil => exact ⟨⟨vs, []⟩, rfl, h⟩
  | cons op ops ih =>
    rw [reduceFrom]
    split
    · rcases vs with _ | ⟨r, _ | ⟨l, vs⟩⟩
      · simp at h
      · simp at h
      · rw [result_bind fun _ => reduceFrom_appends ..]
        exact ih (by simpa using h)
    · exact ⟨⟨vs, op :: ops⟩, rfl, h⟩

/-- Operators that wait never lack their operands, whichever of them are applied. -/
theorem reduce_of_balanced {pending : Stacks} (h : pending.Balanced) (applies : Operator → Bool)
    (offset : Nat) :
    ∃ pending', (pending.reduce applies offset).result = .ok pending' ∧ pending'.Balanced :=
  reduceFrom_of_balanced applies offset h

/-- When all operators are applied, one operand is left. -/
theorem reduceFrom_all_of_balanced (offset : Nat) {vs : List Float} {ops : List Operator}
    (h : vs.length = ops.length + 1) :
    ∃ v, (reduceFrom (fun _ => true) offset vs ops).result = .ok ⟨[v], []⟩ := by
  induction ops generalizing vs with
  | nil =>
    obtain ⟨v, rfl⟩ := List.length_eq_one_iff.mp h
    exact ⟨v, rfl⟩
  | cons op ops ih =>
    rw [reduceFrom, if_pos rfl]
    rcases vs with _ | ⟨r, _ | ⟨l, vs⟩⟩
    · simp at h
    · simp at h
    · rw [result_bind fun _ => reduceFrom_appends ..]
      exact ih (by simpa using h)

theorem reduce_all_of_balanced {pending : Stacks} (h : pending.Balanced) (offset : Nat) :
    ∃ v, (pending.reduce (fun _ => true) offset).result = .ok ⟨[v], []⟩ :=
  reduceFrom_all_of_balanced offset h

/-- At the end, there is a value. -/
theorem drain_of_balanced {pending : Stacks} (h : pending.Balanced) (offset : Nat) :
    ∃ v, (pending.drain offset).result = .ok v := by
  obtain ⟨v, hreduce⟩ := reduce_all_of_balanced h offset
  rw [drain_result, hreduce]
  exact ⟨v, rfl⟩

end Stacks

namespace Evaluation

variable (e : Evaluation)

/-! ## Points -/

/-- How spans are evaluated inside brackets, if these may be nested `room` deep. -/
def innerOf : (room : Nat) → Inner
  | 0 => none
  | room + 1 => some (e.evalSpan room)

theorem evalSpan_eq (room : Nat) : e.evalSpan room = e.span (e.innerOf room) := by
  cases room <;> rfl

/-- Whether the operand at an index has brackets, of which kind they are, and where they open. -/
inductive Opens (stop index : Nat) : Bracket → Nat → Prop
  /-- An expression in brackets. -/
  | group (hlt : index < e.tokens.size) :
      e.tokens[index].token = .bracket .round .opening → Opens stop index .round index
  /-- The name of an array and its subscript. -/
  | subscript {name : String} (h : stop ≤ e.tokens.size) (hlt : index < e.tokens.size) :
      e.tokens[index].token = .name name → e.opensSubscript (index + 1) stop h = true →
      Opens stop index .square (index + 1)

/-- The points at which an evaluation of all tokens expects an operand: with `room` levels of
    brackets left, in the span from `start` to `stop`, at an index, and with what waits on the
    stacks. -/
inductive Reaches : (room start stop index : Nat) → Stacks → Prop
  /-- The start of all tokens. -/
  | all : Reaches e.limit 0 e.tokens.size 0 {}
  /-- An operand has been evaluated, and an operator comes after it. -/
  | next {room start stop index : Nat} {pending pending' : Stacks} {operand : Operand}
      {op : Operator} (h : stop ≤ e.tokens.size) (hlt : index < stop)
      (hnext : index + 1 + operand.more < stop) : Reaches room start stop index pending →
      (e.operand (e.innerOf room) index stop h hlt).result = .ok operand →
      e.tokens[index + 1 + operand.more].token = .operator op →
      (Stacks.reduce { pending with operands := operand.value :: pending.operands }
        (·.reducesBefore op) e.tokens[index + 1 + operand.more].offset).result = .ok pending' →
      Reaches room start stop (index + 1 + operand.more + 1)
        { pending' with operators := op :: pending'.operators }
  /-- The operand has brackets, whose partner has been found. -/
  | inside {room start stop index bracket first last : Nat} {pending : Stacks} {kind : Bracket}
      (h : stop ≤ e.tokens.size) (hlt : index < stop) :
      Reaches (room + 1) start stop index pending → e.Opens stop index kind bracket →
      kind.pairWithin e.tokens bracket stop h = .ok (first, last) →
      Reaches room (bracket + 1) (bracket + last) (bracket + 1) {}

/-- The searches for a partner that an evaluation makes: for the bracket of a kind at an index,
    which has to come before `stop`. -/
def Searches (kind : Bracket) (bracket stop : Nat) : Prop :=
  ∃ room start index pending, e.Reaches (room + 1) start stop index pending ∧ index < stop ∧
    e.Opens stop index kind bracket

/-- What holds at every point that an evaluation reaches. -/
structure Point (start stop index : Nat) (pending : Stacks) : Prop where
  /-- The span is one of those that an evaluation can enter. -/
  enters : e.Enters start stop
  start_le : start ≤ index
  le_stop : index ≤ stop
  /-- An operand is expected at the start of the span and after an operator. -/
  expects : index = start ∨ ∃ before op, index = before + 1 ∧ start ≤ before ∧
    ∃ hlt : before < e.tokens.size, e.tokens[before].token = .operator op
  /-- The brackets of the operands so far are properly nested. -/
  nested : Nested (slice e.tokens start index)
  /-- Each operator that waits lacks its right operand only. -/
  balanced : pending.operands.length = pending.operators.length

variable {e} {room start stop index bracket : Nat} {pending : Stacks} {kind : Bracket}

theorem innerOf_appends (room : Nat) : (e.innerOf room).Appends := by
  cases room with
  | zero => exact inner_none_appends
  | succ room => exact inner_some_appends fun _ _ => evalSpan_appends ..

theorem innerOf_parses (room : Nat) : Inner.Parses e (e.innerOf room) room := by
  intro f hf start stop v hstop hok
  cases room with
  | zero => exact nomatch hf
  | succ room =>
    obtain rfl : e.evalSpan room = f := Option.mem_some_iff.mp hf
    obtain ⟨t, ht, hd⟩ := spans_of_evalSpan_ok hstop hok
    exact ⟨t, ht, Nat.lt_succ_of_le hd⟩

/-- The brackets of an operand open within its span. -/
theorem Opens.opening (h : e.Opens stop index kind bracket) (hstop : stop ≤ e.tokens.size)
    (hlt : index < stop) : index ≤ bracket ∧ bracket < stop ∧
      ∃ hsize : bracket < e.tokens.size, e.tokens[bracket].token = .bracket kind .opening := by
  cases h with
  | group hsize hopen => exact ⟨Nat.le_refl _, hlt, hsize, hopen⟩
  | subscript _ hsize hname hopens =>
    obtain ⟨o, qs, hslice⟩ := opensSubscript_iff.mp hopens
    obtain ⟨hb, hopen, -⟩ := getElem_of_slice_eq_cons hslice hstop
    exact ⟨Nat.le_succ _, hb, Nat.lt_of_lt_of_le hb hstop, by rw [hopen]⟩

/-- An operand that has been evaluated is properly nested and ends within its span. -/
theorem nested_of_operand_ok {h : stop ≤ e.tokens.size} {hlt : index < stop} {operand : Operand}
    (hok : (e.operand (e.innerOf room) index stop h hlt).result = .ok operand) :
    index + 1 + operand.more ≤ stop ∧ Nested (slice e.tokens index (index + 1 + operand.more)) := by
  obtain ⟨hle, t, ht, -⟩ := spans_of_operand_ok (innerOf_appends room) (innerOf_parses room) hok
  exact ⟨hle, ht.nested⟩

/-- At the start of a span that is entered, nothing has been evaluated, and nothing waits. -/
theorem point_start (hent : e.Enters start stop) (hle : start ≤ stop) :
    e.Point start stop start {} where
  enters := hent
  start_le := Nat.le_refl _
  le_stop := hle
  expects := Or.inl rfl
  nested := by
    rw [slice_of_le (Nat.le_refl _)]
    exact .nil
  balanced := rfl

/-- The invariant of the points that an evaluation reaches. -/
theorem Reaches.point (h : e.Reaches room start stop index pending) :
    e.Point start stop index pending := by
  -- Induction on how the point is reached: the invariant is kept by each step to another operand.
  induction h with
  | all => exact point_start .all (Nat.zero_le _)
  | @next room start stop index pending pending' operand op hstop hlt hnext _ hoperand htok
      hreduce ih =>
    have hstart := ih.start_le
    obtain ⟨hle, hoperand⟩ := nested_of_operand_ok hoperand
    refine ⟨ih.enters, by omega, hnext, Or.inr ⟨_, op, rfl, by omega, by omega, htok⟩, ?_, ?_⟩
    · -- the operand and the operator come after what was nested before
      have hop : Nested [e.tokens[index + 1 + operand.more]] := .singleton (by rw [htok]; rfl)
      rw [← slice_succ (by omega)] at hop
      have hbefore := ih.nested.append hoperand
      rw [slice_append hstart (by omega)] at hbefore
      have hall := hbefore.append hop
      rwa [slice_append (by omega) (by omega)] at hall
    · have hpushed : Stacks.Balanced
          { pending with operands := operand.value :: pending.operands } :=
        congrArg (· + 1) ih.balanced
      obtain ⟨_, hreduced, hbalanced⟩ := Stacks.reduce_of_balanced hpushed (·.reducesBefore op)
        e.tokens[index + 1 + operand.more].offset
      obtain rfl := Except.ok.inj (hreduce.symm.trans hreduced)
      exact hbalanced
  | inside hstop hlt _ hopens hpair ih =>
    have hstart := ih.start_le
    obtain ⟨hle, hb, hsize, hopen⟩ := hopens.opening hstop hlt
    obtain ⟨rfl, -⟩ := Bracket.pairWithin_ok_of_opening hb hsize hopen hpair
    obtain ⟨hpos, -⟩ := Bracket.pairWithin_ok_lt hb hsize hopen hpair
    exact point_start (.inside hstop hb ih.enters (by omega) hopen hpair) (by omega)

/-- An evaluation looks for the partners of opening brackets only, each within a span that it has
    entered. -/
theorem Searches.opening (h : e.Searches kind bracket stop) :
    stop ≤ e.tokens.size ∧ bracket < stop ∧ (∃ start, e.Enters start stop ∧ start ≤ bracket) ∧
      ∃ hsize : bracket < e.tokens.size, e.tokens[bracket].token = .bracket kind .opening := by
  obtain ⟨room, start, index, pending, hreach, hlt, hopens⟩ := h
  have hpoint := hreach.point
  have hstart := hpoint.start_le
  obtain ⟨hstop, -⟩ := hpoint.enters.closed
  obtain ⟨hle, hb, hopen⟩ := hopens.opening hstop hlt
  exact ⟨hstop, hb, ⟨start, hpoint.enters, by omega⟩, hopen⟩

end Evaluation

end Reckon
