import Reckon.Proofs.Reach

/-!
# Where faults come from

An evaluation that ends with a fault has met it at one of the points that it reaches.
`Evaluation.Raises` has a rule for each place of the evaluator at which it can fail, with what is
known there. There is no rule for stacks that lack an operand, because none does.

Brackets are the first use of the rules: where they are properly nested, no rule blames one of them
for the lack of a partner.

## Key results

- `Evaluation.evalSpan_raises`: a span that ends with a fault has met it where a rule says
- `Formula.eval_raises`: so does a whole formula
- `evaluate_of_nested`: what it means for an evaluation that all brackets are properly nested
-/

namespace Reckon

open Logged

namespace Evaluation

/-- The faults that an evaluation can end with, and where it meets them. -/
inductive Raises (e : Evaluation) : Fault → Prop
  /-- A span without tokens is entered. -/
  | empty {start : Nat} : e.Enters start start → Raises e ⟨e.offsetAt start, .emptyExpression⟩
  /-- A span ends where an operand is expected. -/
  | unfinished {start stop : Nat} {pending : Stacks} : e.Point start stop stop pending →
      start < stop → Raises e ⟨e.offsetAt stop, .missingOperand⟩
  /-- There is an operator where an operand is expected. -/
  | operator {start stop index : Nat} {pending : Stacks} {op : Operator}
      (hlt : index < e.tokens.size) : e.Point start stop index pending → index < stop →
      e.tokens[index].token = .operator op → Raises e ⟨e.tokens[index].offset, .missingOperand⟩
  /-- There is a token that is no operator where one is expected, or that starts no operand where
      one is expected. -/
  | misplaced {start stop index : Nat} (hlt : index < e.tokens.size) : e.Enters start stop →
      start ≤ index → index < stop → Nested (slice e.tokens start index) →
      e.tokens[index].token.operator? = none → Raises e (misplaced e.tokens[index])
  /-- Brackets open where no level of them is left. -/
  | tooDeep {start stop index bracket : Nat} {pending : Stacks} {kind : Bracket}
      (hlt : bracket < e.tokens.size) : e.Reaches 0 start stop index pending → index < stop →
      e.Opens stop index kind bracket → e.tokens[bracket].token = .bracket kind .opening →
      Raises e ⟨e.tokens[bracket].offset, .nestingTooDeep e.limit⟩
  /-- A search finds no partner. -/
  | unclosed {kind : Bracket} {bracket stop : Nat} {fault : Fault} (h : stop ≤ e.tokens.size) :
      e.Searches kind bracket stop → kind.pairWithin e.tokens bracket stop h = .error fault →
      Raises e fault
  /-- There is no cell at the value of a subscript. -/
  | subscript {room start stop index last : Nat} {pending : Stacks} {name : String} {v : Float}
      {fault : Fault} (h : stop ≤ e.tokens.size) (hlt : index < stop)
      (hsize : index < e.tokens.size) :
      e.Reaches room start stop index pending → e.Opens stop index .square (index + 1) →
      e.tokens[index].token = .name name →
      (e.group (e.innerOf room) .square (index + 1) stop h).result = .ok (v, last) →
      e.table.read name e.tokens[index].offset v = .error fault → Raises e fault

variable {e : Evaluation} {room start stop index : Nat} {pending : Stacks} {fault : Fault}
  {h : stop ≤ e.tokens.size}

theorem offsetAt_of_lt (h : index < e.tokens.size) : e.offsetAt index = e.tokens[index].offset := by
  rw [offsetAt, Array.getElem?_eq_getElem h]

theorem offsetAt_size : e.offsetAt e.tokens.size = e.length := by
  rw [offsetAt, Array.getElem?_size]

variable (e) in
/-- Whether the spans inside brackets meet their faults where a rule says. -/
def InnerRaises (room : Nat) : Prop :=
  ∀ room', room = room' + 1 → ∀ start stop fault, e.Reaches room' start stop start {} →
    (e.evalSpan room' start stop).result = .error fault → e.Raises fault

/-- How a group fails: no level of brackets is left, the bracket has no partner, or what is between
    the two has no value. -/
theorem group_error_cases {kind : Bracket} {bracket : Nat}
    (hfault : (e.group (e.innerOf room) kind bracket stop h).result = .error fault) :
    (room = 0 ∧ fault = ⟨e.offsetAt bracket, .nestingTooDeep e.limit⟩) ∨
    ∃ room', room = room' + 1 ∧
      (kind.pairWithin e.tokens bracket stop h = .error fault ∨
        ∃ first last, kind.pairWithin e.tokens bracket stop h = .ok (first, last) ∧
          (e.evalSpan room' (bracket + 1) (bracket + last)).result = .error fault) := by
  cases room with
  | zero => exact Or.inl ⟨rfl, (Except.error.inj hfault).symm⟩
  | succ room =>
    rw [innerOf, group_result fun _ _ => evalSpan_appends .., bind_eq_error_iff] at hfault
    rcases hfault with hpair | ⟨⟨first, last⟩, hpair, hfault⟩
    · exact Or.inr ⟨room, rfl, Or.inl hpair⟩
    · rcases bind_eq_error_iff.mp hfault with hspan | ⟨v, -, hv⟩
      · exact Or.inr ⟨room, rfl, Or.inr ⟨first, last, hpair, hspan⟩⟩
      · exact nomatch hv

/-- How an operand fails: at an operator or a token that cannot stand there, in its brackets, or for
    lack of a cell. -/
theorem operand_error_cases (hsize : index < e.tokens.size) {hlt : index < stop}
    (hfault : (e.operand (e.innerOf room) index stop h hlt).result = .error fault) :
    (∃ op, e.tokens[index].token = .operator op ∧
      fault = ⟨e.tokens[index].offset, .missingOperand⟩) ∨
    (e.tokens[index].token.operator? = none ∧ fault = misplaced e.tokens[index]) ∨
    (∃ kind bracket, e.Opens stop index kind bracket ∧
      (e.group (e.innerOf room) kind bracket stop h).result = .error fault) ∨
    ∃ name v last, e.Opens stop index .square (index + 1) ∧ e.tokens[index].token = .name name ∧
      (e.group (e.innerOf room) .square (index + 1) stop h).result = .ok (v, last) ∧
      e.table.read name e.tokens[index].offset v = .error fault := by
  -- The first token tells which operand it is, or that it is none.
  cases htok : e.tokens[index].token with
  | number v =>
    rw [operand_number htok] at hfault
    exact nomatch hfault
  | name name =>
    cases hopens : e.opensSubscript (index + 1) stop h with
    | false =>
      rw [operand_scalar htok hopens] at hfault
      exact nomatch hfault
    | true =>
      have hopens' : e.Opens stop index .square (index + 1) := .subscript h hsize htok hopens
      rw [operand_cell htok hopens,
        result_bind fun _ => (cell_appends ..).bind fun _ => appends_pure _,
        bind_eq_error_iff] at hfault
      rcases hfault with hgroup | ⟨⟨v, last⟩, hgroup, hfault⟩
      · exact Or.inr (Or.inr (Or.inl ⟨.square, index + 1, hopens', hgroup⟩))
      · -- the subscript has a value, and the fault is that of the cell
        rw [result_bind fun _ => appends_pure _, cell_result, bind_eq_error_iff] at hfault
        rcases hfault with hread | ⟨w, -, hw⟩
        · exact Or.inr (Or.inr (Or.inr ⟨name, v, last, hopens', rfl, hgroup, hread⟩))
        · exact nomatch hw
  | bracket kind side =>
    cases kind with
    | round =>
      cases side with
      | opening =>
        rw [operand_group htok, result_bind fun _ => appends_pure _, bind_eq_error_iff] at hfault
        rcases hfault with hgroup | ⟨p, -, hp⟩
        · exact Or.inr (Or.inr (Or.inl ⟨.round, index, .group hsize htok, hgroup⟩))
        · exact nomatch hp
      | closing =>
        simp only [operand, htok, result_throw, Except.error.injEq] at hfault
        exact Or.inr (Or.inl ⟨rfl, hfault.symm⟩)
    | square =>
      simp only [operand, htok, result_throw, Except.error.injEq] at hfault
      exact Or.inr (Or.inl ⟨rfl, hfault.symm⟩)
  | operator op =>
    simp only [operand, htok, result_throw, Except.error.injEq] at hfault
    exact Or.inl ⟨op, rfl, hfault.symm⟩
  | unrecognized text =>
    simp only [operand, htok, result_throw, Except.error.injEq] at hfault
    exact Or.inr (Or.inl ⟨rfl, hfault.symm⟩)

theorem group_raises {kind : Bracket} {bracket : Nat} (hinner : e.InnerRaises room)
    (hreach : e.Reaches room start stop index pending) (hlt : index < stop)
    (hopens : e.Opens stop index kind bracket)
    (hfault : (e.group (e.innerOf room) kind bracket stop h).result = .error fault) :
    e.Raises fault := by
  obtain ⟨-, -, hsize, hopen⟩ := hopens.opening h hlt
  rcases group_error_cases hfault with
    ⟨rfl, rfl⟩ | ⟨room, rfl, hpair | ⟨first, last, hpair, hspan⟩⟩
  · rw [offsetAt_of_lt hsize]
    exact .tooDeep hsize hreach hlt hopens hopen
  · exact .unclosed h ⟨room, start, index, pending, hreach, hlt, hopens⟩ hpair
  · exact hinner room rfl _ _ _ (.inside h hlt hreach hopens hpair) hspan

theorem operand_raises (hinner : e.InnerRaises room)
    (hreach : e.Reaches room start stop index pending) {hlt : index < stop}
    (hfault : (e.operand (e.innerOf room) index stop h hlt).result = .error fault) :
    e.Raises fault := by
  have hpoint := hreach.point
  have hsize : index < e.tokens.size := Nat.lt_of_lt_of_le hlt h
  rcases operand_error_cases hsize hfault with ⟨op, htok, rfl⟩ | ⟨htok, rfl⟩ |
    ⟨kind, bracket, hopens, hgroup⟩ | ⟨name, v, last, hopens, htok, hgroup, hread⟩
  · exact .operator hsize hpoint hlt htok
  · exact .misplaced hsize hpoint.enters hpoint.start_le hlt hpoint.nested htok
  · exact group_raises hinner hreach hlt hopens hgroup
  · exact .subscript h hlt hsize hreach hopens htok hgroup hread

theorem run_raises (hinner : e.InnerRaises room) (hspan : start < stop)
    (hreach : e.Reaches room start stop index pending)
    (hfault : (e.run (e.innerOf room) stop h index pending).result = .error fault) :
    e.Raises fault := by
  have hin := innerOf_appends (e := e) room
  -- Induction along the recursion of `run`, from one point that is reached to the next.
  induction index, pending using run.induct e stop with
  | case1 index pending hlt ih =>
    have hpoint := hreach.point
    have hstart := hpoint.start_le
    rw [run_result hin hlt, bind_eq_error_iff] at hfault
    rcases hfault with hoperand | ⟨operand, hoperand, hfault⟩
    · exact operand_raises hinner hreach hoperand
    · obtain ⟨hle, hnested⟩ := nested_of_operand_ok hoperand
      have hbalanced : Stacks.Balanced
          { pending with operands := operand.value :: pending.operands } :=
        congrArg (· + 1) hpoint.balanced
      by_cases hnext : index + 1 + operand.more < stop
      · cases htok : e.tokens[index + 1 + operand.more].token.operator? with
        | none =>
          rw [resume_of_misplaced hnext htok] at hfault
          obtain rfl := Except.error.inj hfault
          have hbefore := hpoint.nested.append hnested
          rw [slice_append hstart (by omega)] at hbefore
          exact .misplaced (by omega) hpoint.enters (by omega) hnext hbefore htok
        | some op =>
          have htok' := Token.operator?_eq_some_iff.mp htok
          obtain ⟨pending', hreduce, -⟩ := Stacks.reduce_of_balanced hbalanced
            (·.reducesBefore op) e.tokens[index + 1 + operand.more].offset
          rw [resume_result_operator hin hnext htok', hreduce, ok_bind] at hfault
          exact ih operand hnext _ (.next h hlt hnext hreach hoperand htok' hreduce) hfault
      · -- the operand is the last in the span, and there is a value
        obtain ⟨v, hdrain⟩ := Stacks.drain_of_balanced hbalanced (e.offsetAt stop)
        rw [resume_of_le (Nat.not_lt.mp hnext), hdrain] at hfault
        cases hfault
  | case2 index pending hge =>
    have hpoint := hreach.point
    have hend : index = stop := Nat.le_antisymm hpoint.le_stop (Nat.not_lt.mp hge)
    subst hend
    rw [run_of_le (Nat.le_refl _)] at hfault
    obtain rfl := Except.error.inj hfault
    exact .unfinished hpoint hspan

theorem span_raises (hinner : e.InnerRaises room) (hreach : e.Reaches room start stop start {})
    (hfault : (e.span (e.innerOf room) start stop).result = .error fault) : e.Raises fault := by
  have hpoint := hreach.point
  obtain ⟨hstop, -⟩ := hpoint.enters.closed
  rcases Nat.lt_or_eq_of_le hpoint.le_stop with hlt | rfl
  · rw [span_of_lt hstop hlt] at hfault
    exact run_raises hinner hlt hreach hfault
  · rw [span_of_le (Nat.le_refl _)] at hfault
    obtain rfl := Except.error.inj hfault
    exact .empty hpoint.enters

/-- A span that ends with a fault has met it where a rule says. -/
theorem evalSpan_raises (hreach : e.Reaches room start stop start {})
    (hfault : (e.evalSpan room start stop).result = .error fault) : e.Raises fault := by
  -- Induction on the room, as there is less of it inside brackets.
  induction room generalizing start stop fault with
  | zero =>
    rw [evalSpan_eq] at hfault
    exact span_raises (fun _ hroom => absurd hroom (Nat.succ_ne_zero _).symm) hreach hfault
  | succ room ih =>
    rw [evalSpan_eq] at hfault
    refine span_raises (fun room' hroom start stop fault hreach hfault => ?_) hreach hfault
    obtain rfl := Nat.succ.inj hroom
    exact ih hreach hfault

end Evaluation

/-- A formula that ends with a fault has met it where a rule says. -/
theorem Formula.eval_raises {f : Formula} {table : Table} {fault : Fault}
    (hfault : (f.eval table).result = .error fault) :
    ({ f with table } : Evaluation).Raises fault :=
  Evaluation.evalSpan_raises (e := { f with table }) .all hfault

/-! ## Unbalanced brackets -/

namespace Evaluation

variable {e : Evaluation}

/-- The fault of a token that cannot stand where it does tells whether it is a closing bracket. -/
theorem misplaced_eq (p : Placed) :
    (∃ kind, p.token = .bracket kind .closing ∧
      misplaced p = ⟨p.offset, .unbalanced kind .closing⟩) ∨
    (∀ kind, p.token ≠ .bracket kind .closing) ∧
      misplaced p = ⟨p.offset, .unexpectedToken p.token.text⟩ := by
  unfold misplaced
  split
  · next kind htok => exact Or.inl ⟨kind, htok, rfl⟩
  · next hne => exact Or.inr ⟨hne, rfl⟩

/-- If all brackets are properly nested, a search finds the partner of its bracket, which is the
    only one in the sense of both kinds. -/
theorem Searches.pairWithin_of_nested {kind : Bracket} {bracket stop : Nat}
    (hsearch : e.Searches kind bracket stop) (hnested : Nested e.tokens.toList) :
    ∃ (h : stop ≤ e.tokens.size) (last : Nat),
      kind.pairWithin e.tokens bracket stop h = .ok (0, last) ∧
      ∀ j, kind.Partners e.tokens bracket j ↔ j = bracket + last := by
  obtain ⟨h, hlt, ⟨start, hent, hle⟩, hsize, hopen⟩ := hsearch.opening
  obtain ⟨last, hpair, -, hpartners⟩ :=
    Bracket.pairWithin_of_nested (h := h) (hent.nested hnested) hle hlt hsize hopen
  refine ⟨h, last, hpair, fun j => ⟨fun hj => hj.unique hpartners, ?_⟩⟩
  rintro rfl
  exact hpartners

/-- If all brackets are properly nested, a span is evaluated by what is between partners. -/
theorem span_congr_of_partners {start stop : Nat} (hnested : Nested e.tokens.toList)
    (hent : e.Enters start stop) {f g : Nat → Nat → Logged Fault Float}
    (hagree : ∀ (kind : Bracket) i j, kind.Partners e.tokens i j → f (i + 1) j = g (i + 1) j) :
    e.span (some f) start stop = e.span (some g) start stop := by
  refine span_congr_of_agreeIn (u := e.table) (Table.agreeOn_refl _ _) ?_ hent
  intro kind index last h hlt hle hopen hpair
  have hsize := Nat.lt_of_lt_of_le hlt h
  obtain ⟨last', hfound, -, hpartners⟩ :=
    Bracket.pairWithin_of_nested (h := h) (hent.nested hnested) hle hlt hsize hopen
  obtain rfl : last = last' := by simpa using hpair.symm.trans hfound
  exact hagree kind index _ hpartners

/-- If all brackets are properly nested, no fault is that of a bracket without a partner. -/
theorem Raises.cause_ne_unbalanced {fault : Fault} (h : e.Raises fault)
    (hnested : Nested e.tokens.toList) (kind : Bracket) (side : Side) :
    fault.cause ≠ .unbalanced kind side := by
  cases h with
  | empty | unfinished | operator | tooDeep => exact nofun
  | @misplaced start stop index hlt hent hle hltStop hbefore _ =>
    rcases misplaced_eq e.tokens[index] with ⟨kind', htok, -⟩ | ⟨-, hfault⟩
    · -- nothing is open before a closing bracket that nothing in its span has opened
      have hspan := hent.nested hnested
      rw [← slice_append hle (Nat.le_of_lt hltStop), slice_eq_cons hltStop hent.closed.1] at hspan
      have hclosing : e.tokens[index] = ⟨.bracket kind' .closing, e.tokens[index].offset⟩ := by
        rw [← htok]
      rw [hclosing] at hspan
      exact absurd hspan (hbefore.not_append_closing _ _ _)
    · rw [hfault]
      exact nofun
  | unclosed hstop hsearch hpair =>
    obtain ⟨_, last, hfound, -⟩ := hsearch.pairWithin_of_nested hnested
    rw [hfound] at hpair
    exact nomatch hpair
  | subscript _ _ _ _ _ _ _ hread =>
    rcases (Table.read_eq_error hread).2 with hcause | ⟨index, length, hcause⟩ <;> rw [hcause] <;>
      exact nofun

end Evaluation

/-- If the brackets of a text are properly nested, none of them is found to lack a partner: each
    search finds the one bracket that is the partner in the sense of both kinds, although it counts
    one kind only, and what is evaluated inside brackets is what is between partners. If they are
    not properly nested, there is no value. -/
theorem evaluate_of_nested (text : String) (table : Table) :
    let e : Evaluation := { Formula.ofText text with table }
    (Nested e.tokens.toList →
      (∀ offset kind side, evaluate text table ≠ .error ⟨offset, .unbalanced kind side⟩) ∧
      (∀ kind bracket stop, e.Searches kind bracket stop →
        ∃ (h : stop ≤ e.tokens.size) (last : Nat),
          kind.pairWithin e.tokens bracket stop h = .ok (0, last) ∧
          ∀ j, kind.Partners e.tokens bracket j ↔ j = bracket + last) ∧
      ∀ start stop, e.Enters start stop → ∀ f g : Nat → Nat → Logged Fault Float,
        (∀ (kind : Bracket) i j, kind.Partners e.tokens i j → f (i + 1) j = g (i + 1) j) →
        e.span (some f) start stop = e.span (some g) start stop) ∧
    (¬ Nested e.tokens.toList → ∃ fault, evaluate text table = .error fault) := by
  intro e
  refine ⟨fun hnested => ⟨fun offset kind side hfault => ?_, ?_, ?_⟩, fun hnested => ?_⟩
  · exact (Formula.eval_raises hfault).cause_ne_unbalanced hnested kind side rfl
  · exact fun kind bracket stop hsearch => hsearch.pairWithin_of_nested hnested
  · exact fun start stop hent f g => Evaluation.span_congr_of_partners hnested hent
  · cases hvalue : evaluate text table with
    | error fault => exact ⟨fault, rfl⟩
    | ok v =>
      -- a value has a tree, and the grammar derives properly nested brackets only
      obtain ⟨t, ht, -⟩ := Evaluation.spans_of_evalSpan_ok (e := e) (Nat.le_refl _) hvalue
      rw [slice_zero_size] at ht
      exact absurd ht.nested hnested

/-- The first bracket of `(A[1])`, which is properly nested, is looked for and has one partner, and
    `(A[)]` is not properly nested, although the brackets of each kind are balanced. -/
theorem evaluate_of_nested_crossing :
    let e : Evaluation := { Formula.ofText "(A[1])" with table := {} }
    (∀ offset kind side, evaluate "(A[1])" {} ≠ .error ⟨offset, .unbalanced kind side⟩) ∧
    (∃ (h : e.tokens.size ≤ e.tokens.size) (last : Nat),
      Bracket.round.pairWithin e.tokens 0 e.tokens.size h = .ok (0, last) ∧
      ∀ j, Bracket.round.Partners e.tokens 0 j ↔ j = 0 + last) ∧
    ∃ fault, evaluate "(A[)]" {} = .error fault := by
  intro e
  have hsize : 0 < e.tokens.size := by decide +kernel
  have hopen : e.tokens[0].token = .bracket .round .opening := by with_unfolding_all rfl
  obtain ⟨hvalue, hpartner, -⟩ := (evaluate_of_nested "(A[1])" {}).1 (by decide +kernel)
  refine ⟨hvalue, hpartner .round 0 e.tokens.size ?_, ?_⟩
  · exact ⟨255, 0, 0, {}, .all, hsize, .group hsize hopen⟩
  · exact (evaluate_of_nested "(A[)]" {}).2 (by decide +kernel)

end Reckon
