import Reckon.Proofs.Logging
import Reckon.Proofs.Span
import Reckon.Proofs.Tree

/-!
# The steps of an evaluation

Every step of an evaluation only adds to the log, so the result of a sequence of steps is that of
its parts. The lemmas on results below say what each step gives, so that no later proof opens it.

`Evaluation.resume` is what `Evaluation.run` does after an operand. What a stack holds matters to
it only up to operators that would be applied anyway: `resume_apply`.
-/

namespace Reckon

open Logged

namespace Stacks

theorem pushOperand_appends (pending : Stacks) (v : Float) : (pending.pushOperand v).Appends :=
  (appends_report _).bind fun _ => appends_pure _

@[simp] theorem pushOperand_result (pending : Stacks) (v : Float) :
    (pending.pushOperand v).result = .ok { pending with operands := v :: pending.operands } := rfl

theorem pushOperator_appends (pending : Stacks) (op : Operator) :
    (pending.pushOperator op).Appends :=
  (appends_report _).bind fun _ => appends_pure _

@[simp] theorem pushOperator_result (pending : Stacks) (op : Operator) :
    (pending.pushOperator op).result = .ok { pending with operators := op :: pending.operators } :=
  rfl

theorem applyTop_appends (op : Operator) (offset : Nat) (vs : List Float) :
    (applyTop op offset vs).Appends := by
  unfold applyTop
  split
  · exact (appends_report _).bind fun _ => appends_pure _
  · exact appends_throw _

theorem reduceFrom_appends (applies : Operator → Bool) (offset : Nat) (vs : List Float)
    (ops : List Operator) : (reduceFrom applies offset vs ops).Appends := by
  -- Induction on the operators: applying one changes the operands, so these are not fixed.
  induction ops generalizing vs with
  | nil => exact appends_pure _
  | cons op ops ih =>
    rw [reduceFrom]
    split
    · exact (applyTop_appends op offset vs).bind fun _ => ih _
    · exact appends_pure _

theorem reduce_appends (pending : Stacks) (applies : Operator → Bool) (offset : Nat) :
    (pending.reduce applies offset).Appends :=
  reduceFrom_appends applies offset _ _

theorem drain_appends (pending : Stacks) (offset : Nat) : (pending.drain offset).Appends := by
  refine (reduce_appends ..).bind fun pending => ?_
  split
  · exact appends_pure _
  · exact appends_throw _

/-- The value of the stacks is the operand that is left when all operators are applied. -/
theorem drain_result (pending : Stacks) (offset : Nat) :
    (pending.drain offset).result =
      (pending.reduce (fun _ => true) offset).result >>= fun pending =>
        match pending.operands with
        | v :: _ => .ok v
        | [] => .error ⟨offset, .missingOperand⟩ := by
  unfold drain
  rw [result_bind]
  · congr 1
    funext pending
    cases pending.operands <;> rfl
  · intro pending
    split
    · exact appends_pure _
    · exact appends_throw _

/-- An operator that is to be applied is, and the rest of the stack is looked at with the result on
    top. -/
theorem reduce_apply {applies : Operator → Bool} {op : Operator} (h : applies op) (offset : Nat)
    (l r : Float) (vs : List Float) (ops : List Operator) :
    reduce ⟨r :: l :: vs, op :: ops⟩ applies offset = (do
      report (.applied l op r (op.apply l r))
      reduce ⟨op.apply l r :: vs, ops⟩ applies offset) := by
  simp only [reduce, reduceFrom, h, ↓reduceIte, applyTop, bind_assoc, pure_bind]

/-- A stack whose top operator is not to be applied stays as it is. -/
theorem reduce_of_not {applies : Operator → Bool} {pending : Stacks}
    (h : ∀ op ∈ pending.operators.head?, applies op = false) (offset : Nat) :
    pending.reduce applies offset = pure pending := by
  obtain ⟨vs, ops⟩ := pending
  cases ops with
  | nil => rfl
  | cons op ops =>
    have hop : applies op = false := h op rfl
    simp only [reduce, reduceFrom, hop, Bool.false_eq_true, ↓reduceIte]

/-- At the end, the operator on top is applied before the others. -/
theorem drain_apply (offset : Nat) (op : Operator) (l r : Float) (vs : List Float)
    (ops : List Operator) :
    drain ⟨r :: l :: vs, op :: ops⟩ offset = (do
      report (.applied l op r (op.apply l r))
      drain ⟨op.apply l r :: vs, ops⟩ offset) := by
  rw [drain, reduce_apply rfl, bind_assoc]
  rfl

@[simp] theorem drain_singleton (v : Float) (offset : Nat) :
    drain ⟨[v], []⟩ offset = pure v := rfl

end Stacks

namespace Evaluation

/-- Whether evaluating the spans inside brackets only adds to the log. -/
def Inner.Appends (inner : Inner) : Prop :=
  ∀ f ∈ inner, ∀ start stop, (f start stop).Appends

theorem inner_none_appends : Inner.Appends none := fun _ hf => nomatch hf

theorem inner_some_appends {f : Nat → Nat → Logged Fault Float}
    (hf : ∀ start stop, (f start stop).Appends) : Inner.Appends (some f) := by
  intro g hg
  obtain rfl : f = g := Option.mem_some_iff.mp hg
  exact hf

variable {e : Evaluation} {inner : Inner} {stop : Nat} {h : stop ≤ e.tokens.size}

/-! ## Operands -/

theorem group_appends (hin : inner.Appends) (kind : Bracket) (index : Nat) :
    (e.group inner kind index stop h).Appends := by
  unfold group
  cases inner with
  | none => exact appends_throw _
  | some f =>
    exact (appends_liftExcept _).bind fun _ => (hin f rfl _ _).bind fun _ => appends_pure _

/-- The value of a group is that of what is inside its brackets. -/
theorem group_result {f : Nat → Nat → Logged Fault Float} (hf : ∀ a b, (f a b).Appends)
    (kind : Bracket) (index : Nat) :
    (e.group (some f) kind index stop h).result =
      kind.pairWithin e.tokens index stop h >>= fun (_, last) =>
        (f (index + 1) (index + last)).result >>= fun v => .ok (v, last) := by
  unfold group
  dsimp only
  rw [result_bind fun (p : Nat × Nat) => (hf _ _).bind fun _ => appends_pure _, result_liftExcept]
  congr 1
  funext p
  exact result_bind fun _ => appends_pure _

/-- A bracket with a partner gives the value of what is between the two. -/
theorem group_of_pair {f : Nat → Nat → Logged Fault Float} {kind : Bracket}
    {index first last : Nat} (hpair : kind.pairWithin e.tokens index stop h = .ok (first, last)) :
    e.group (some f) kind index stop h = (do
      let v ← f (index + 1) (index + last)
      return (v, last)) := by
  simp only [group, hpair]
  rfl

theorem cell_appends (name : String) (offset : Nat) (subscript : Float) :
    (e.cell name offset subscript).Appends := by
  unfold cell
  split
  · exact appends_throw _
  · dsimp only
    split
    · exact appends_throw _
    · exact (appends_report _).bind fun _ => appends_pure _

/-- The evaluator reads a cell as a tree does. -/
@[simp] theorem cell_result (name : String) (offset : Nat) (subscript : Float) :
    (e.cell name offset subscript).result = e.table.read name offset subscript := by
  unfold cell Table.read
  cases Binary64.truncate? subscript with
  | none => rfl
  | some index =>
    -- what is reported is lost, and the two read the same cell
    dsimp only
    cases index.toNat?.bind (e.table.cells name).get? <;> rfl

/-- Whether a subscript opens at an index shows in the tokens of the span from there on. -/
theorem opensSubscript_iff {index : Nat} :
    e.opensSubscript index stop h = true ↔
      ∃ o qs, slice e.tokens index stop = ⟨.bracket .square .opening, o⟩ :: qs := by
  unfold opensSubscript
  split
  · next hlt =>
    rw [slice_eq_cons hlt h, decide_eq_true_eq, Token.side?_eq_some_iff]
    constructor
    · intro htok
      exact ⟨e.tokens[index].offset, slice e.tokens (index + 1) stop, by rw [← htok]⟩
    · rintro ⟨o, qs, hcons⟩
      rw [List.head_eq_of_cons_eq hcons]
  · next hge =>
    -- there is no next token, and the slice is empty
    rw [slice_of_le (Nat.not_lt.mp hge)]
    simp

section
variable {index : Nat} {hlt : index < stop} {name : String}

theorem operand_number {v : Float} (htok : e.tokens[index].token = .number v) :
    e.operand inner index stop h hlt = pure ⟨v, 0⟩ := by
  simp only [operand, htok]

theorem operand_scalar (htok : e.tokens[index].token = .name name)
    (hopens : e.opensSubscript (index + 1) stop h = false) :
    e.operand inner index stop h hlt = pure ⟨e.table.scalarValue name, 0⟩ := by
  simp only [operand, htok, hopens, Bool.false_eq_true, ↓reduceIte]

theorem operand_cell (htok : e.tokens[index].token = .name name)
    (hopens : e.opensSubscript (index + 1) stop h = true) :
    e.operand inner index stop h hlt = (do
      let (subscript, last) ← e.group inner .square (index + 1) stop h
      let value ← e.cell name e.tokens[index].offset subscript
      return ⟨value, last + 1⟩) := by
  simp only [operand, htok, hopens, ↓reduceIte]

theorem operand_group (htok : e.tokens[index].token = .bracket .round .opening) :
    e.operand inner index stop h hlt = (do
      let (value, last) ← e.group inner .round index stop h
      return ⟨value, last⟩) := by
  simp only [operand, htok]

end

theorem operand_appends (hin : inner.Appends) {index : Nat} (hlt : index < stop) :
    (e.operand inner index stop h hlt).Appends := by
  unfold operand
  dsimp only
  split
  · exact appends_pure _
  · split
    · exact (group_appends hin _ _).bind fun _ => (cell_appends ..).bind fun _ => appends_pure _
    · exact appends_pure _
  · exact (group_appends hin _ _).bind fun _ => appends_pure _
  · exact appends_throw _
  · exact appends_throw _

/-! ## Spans -/

variable (e inner h) in
/-- Goes on after an operand, with the token at an index. -/
def resume (next : Nat) (pending : Stacks) : Logged Fault Float := do
  if h' : next < stop then
    let placed := e.tokens[next]
    match placed.token.operator? with
    | some op =>
      let pending ← pending.reduce (·.reducesBefore op) placed.offset
      let pending ← pending.pushOperator op
      e.run inner stop h (next + 1) pending
    | none => throw (misplaced placed)
  else pending.drain (e.offsetAt stop)

/-- Where an operand is expected, one is evaluated and put on the stack. -/
theorem run_eq {index : Nat} (hlt : index < stop) (pending : Stacks) :
    e.run inner stop h index pending = (do
      let operand ← e.operand inner index stop h hlt
      let pending ← pending.pushOperand operand.value
      e.resume inner h (index + 1 + operand.more) pending) := by
  rw [run, dif_pos hlt]
  rfl

/-- Where an operand is expected, the end of the span is a fault. -/
theorem run_of_le {index : Nat} (hle : stop ≤ index) (pending : Stacks) :
    e.run inner stop h index pending = throw ⟨e.offsetAt stop, .missingOperand⟩ := by
  rw [run, dif_neg (Nat.not_lt.mpr hle)]

/-- After an operand, those operators are applied that bind at least as tightly as the next one. -/
theorem resume_operator {next : Nat} (hlt : next < stop) {op : Operator}
    (htok : e.tokens[next].token = .operator op) (pending : Stacks) :
    e.resume inner h next pending = (do
      let pending ← pending.reduce (·.reducesBefore op) e.tokens[next].offset
      let pending ← pending.pushOperator op
      e.run inner stop h (next + 1) pending) := by
  rw [resume, dif_pos hlt]
  simp only [htok, Token.operator?]

/-- A token that is no operator is a fault after an operand, whatever waits on the stacks. -/
theorem resume_of_misplaced {next : Nat} (hlt : next < stop)
    (htok : e.tokens[next].token.operator? = none) (pending : Stacks) :
    e.resume inner h next pending = throw (misplaced e.tokens[next]) := by
  rw [resume, dif_pos hlt]
  simp only [htok]

/-- At the end of the span, all operators are applied. -/
theorem resume_of_le {next : Nat} (hle : stop ≤ next) (pending : Stacks) :
    e.resume inner h next pending = pending.drain (e.offsetAt stop) := by
  rw [resume, dif_neg (Nat.not_lt.mpr hle)]

private theorem resume_appends_of_run {next : Nat}
    (hrun : next < stop → ∀ pending, (e.run inner stop h (next + 1) pending).Appends)
    (pending : Stacks) : (e.resume inner h next pending).Appends := by
  by_cases hlt : next < stop
  · cases htok : e.tokens[next].token.operator? with
    | none =>
      rw [resume_of_misplaced hlt htok]
      exact appends_throw _
    | some op =>
      rw [resume_operator hlt (Token.operator?_eq_some_iff.mp htok)]
      exact (Stacks.reduce_appends ..).bind fun _ =>
        (Stacks.pushOperator_appends ..).bind fun _ => hrun hlt _
  · rw [resume_of_le (Nat.not_lt.mp hlt)]
    exact Stacks.drain_appends ..

theorem run_appends (hin : inner.Appends) (index : Nat) (pending : Stacks) :
    (e.run inner stop h index pending).Appends := by
  -- Induction along the recursion of `run`: what comes after an operand and its operator is a run
  -- again, which is why `resume` has to be dealt with in between.
  induction index, pending using run.induct e stop with
  | case1 index pending hlt ih =>
    rw [run_eq hlt]
    exact (operand_appends hin hlt).bind fun operand =>
      (Stacks.pushOperand_appends ..).bind fun pending =>
        resume_appends_of_run (fun hnext => ih operand hnext) pending
  | case2 index pending hge =>
    rw [run_of_le (Nat.not_lt.mp hge)]
    exact appends_throw _

theorem resume_appends (hin : inner.Appends) (next : Nat) (pending : Stacks) :
    (e.resume inner h next pending).Appends :=
  resume_appends_of_run (fun _ => run_appends hin _) pending

/-- A span with tokens is run from its first one, with empty stacks. -/
theorem span_of_lt {start stop : Nat} (hstop : stop ≤ e.tokens.size) (hlt : start < stop) :
    e.span inner start stop = e.run inner stop hstop start {} := by
  -- `span` cuts off the end at the number of tokens, and carries a proof that it did
  have hrun : ∀ m (hm : m ≤ e.tokens.size), m = stop →
      e.run inner m hm start {} = e.run inner stop hstop start {} := by
    rintro m hm rfl
    rfl
  have hmin : min stop e.tokens.size = stop := Nat.min_eq_left hstop
  rw [span, if_pos (by omega)]
  exact hrun _ _ hmin

/-- A span without tokens is a fault. -/
theorem span_of_le {start stop : Nat} (hle : stop ≤ start) :
    e.span inner start stop = throw ⟨e.offsetAt start, .emptyExpression⟩ := by
  rw [span, if_neg]
  have := Nat.min_le_left stop e.tokens.size
  omega

theorem span_appends (hin : inner.Appends) (start stop : Nat) :
    (e.span inner start stop).Appends := by
  unfold span
  dsimp only
  split
  · exact run_appends hin ..
  · exact appends_throw _

theorem evalSpan_appends (room start stop : Nat) : (e.evalSpan room start stop).Appends := by
  -- Induction on the room: each level of brackets takes one away.
  induction room generalizing start stop with
  | zero => exact span_appends inner_none_appends start stop
  | succ room ih => exact span_appends (inner_some_appends ih) start stop

/-! ### Results -/

/-- Where an operand is expected, the evaluation ends as the operand does, or goes on after it. -/
theorem run_result (hin : inner.Appends) {index : Nat} (hlt : index < stop) (pending : Stacks) :
    (e.run inner stop h index pending).result =
      (e.operand inner index stop h hlt).result >>= fun operand =>
        (e.resume inner h (index + 1 + operand.more)
          { pending with operands := operand.value :: pending.operands }).result := by
  rw [run_eq hlt, result_bind fun _ => (Stacks.pushOperand_appends ..).bind fun _ =>
    resume_appends hin ..]
  congr 1
  funext operand
  rw [result_bind fun _ => resume_appends hin .., Stacks.pushOperand_result]
  rfl

/-- At an operator, those that bind at least as tightly are applied, and an operand is expected. -/
theorem resume_result_operator (hin : inner.Appends) {next : Nat} (hlt : next < stop)
    {op : Operator} (htok : e.tokens[next].token = .operator op) (pending : Stacks) :
    (e.resume inner h next pending).result =
      (pending.reduce (·.reducesBefore op) e.tokens[next].offset).result >>= fun pending =>
        (e.run inner stop h (next + 1) { pending with operators := op :: pending.operators }).result
    := by
  rw [resume_operator hlt htok, result_bind fun pending =>
    (Stacks.pushOperator_appends pending op).bind fun _ => run_appends hin ..]
  congr 1
  funext pending
  rw [result_bind fun _ => run_appends hin .., Stacks.pushOperator_result]
  rfl

/-! ### Operators that wait -/

/-- An operator that binds more tightly than the last one that waits is put on top of it. -/
theorem resume_push {next : Nat} (hlt : next < stop) {op : Operator}
    (htok : e.tokens[next].token = .operator op) {pending : Stacks}
    (hwait : ∀ op' ∈ pending.operators.head?, op'.reducesBefore op = false) :
    e.resume inner h next pending = (do
      report (.operatorPushed op)
      e.run inner stop h (next + 1) { pending with operators := op :: pending.operators }) := by
  rw [resume_operator hlt htok, Stacks.reduce_of_not hwait, pure_bind]
  simp only [Stacks.pushOperator, bind_assoc, pure_bind]

/-- An operator on the stack might as well be applied at once, if the next one does not bind more
    tightly. -/
theorem resume_apply {next : Nat} {op : Operator}
    (hnext : ∀ hlt : next < stop, ∃ op', e.tokens[next].token = .operator op' ∧
      op.reducesBefore op' = true) (l r : Float) (vs : List Float) (ops : List Operator) :
    e.resume inner h next ⟨r :: l :: vs, op :: ops⟩ = (do
      report (.applied l op r (op.apply l r))
      e.resume inner h next ⟨op.apply l r :: vs, ops⟩) := by
  -- it is applied next in any case: before the next operator, or at the end of the span
  by_cases hlt : next < stop
  · obtain ⟨op', htok, happlies⟩ := hnext hlt
    rw [resume_operator hlt htok, resume_operator hlt htok,
      @Stacks.reduce_apply (·.reducesBefore op') op happlies, bind_assoc]
  · rw [resume_of_le (Nat.not_lt.mp hlt), resume_of_le (Nat.not_lt.mp hlt), Stacks.drain_apply]

end Evaluation

end Reckon
