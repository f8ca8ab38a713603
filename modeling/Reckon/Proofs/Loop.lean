import Mathlib.Logic.Relation
import Reckon.Proofs.Faults

/-!
# The loop over a span

A span is evaluated in a loop, which expects an operand and an operator in turn. `Evaluation.Step`
is one turn of it: an operand is evaluated, the operator on top of its stack is applied, or an
operator is put there. `Evaluation.Ends` says in which states the loop ends and with which result,
and has a rule for each place at which an operand might be lacking. Steps lead to the result that
`Evaluation.evalSpan` has, and to no other. While `Evaluation.Reaches` follows the evaluation of all
tokens from one operand to the next, the loop may be that of any span, and is seen at every step.

The stacks stay low whatever the operators are, because an operator is put only on one that binds
less tightly: `Evaluation.Shape`. So the operands of an operator that is applied are never lacking,
and the only faults for lack of an operand are those at an operator, or at the end of a span, where
an operand is expected.

## Key results

- `Evaluation.result_eq_iff`: the result of a span is that with which its loop ends
- `Evaluation.Loop.shape`: the invariant of the states of a loop
- `Evaluation.Reaches.loop`: the points that an evaluation reaches are states of its loops
- `Evaluation.stacks_spec`: how high the stacks are, and where operands are lacking
-/

namespace Reckon

open Logged Relation

/-! ## Applying one operator -/

namespace Stacks

variable {op : Operator} {offset : Nat} {vs vs' : List Float} {ops : List Operator} {fault : Fault}

/-- An operator is applied to the two operands on top. -/
theorem applyTop_result_eq_ok_iff :
    (applyTop op offset vs).result = .ok vs' ↔
      ∃ l r us, vs = r :: l :: us ∧ vs' = op.apply l r :: us := by
  constructor
  · intro hok
    unfold applyTop at hok
    split at hok
    · next r l us =>
      exact ⟨l, r, us, rfl, (Except.ok.inj hok).symm⟩
    · exact nomatch hok
  · intro ⟨l, r, us, hvs, hvs'⟩
    rw [hvs, hvs']
    rfl

/-- Reducing fails where the first operator that is to be applied lacks an operand. -/
theorem reduce_result_of_error {applies : Operator → Bool} (h : applies op)
    (hfault : (applyTop op offset vs).result = .error fault) :
    (reduce ⟨vs, op :: ops⟩ applies offset).result = .error fault := by
  rw [reduce, reduceFrom, if_pos h, result_bind fun _ => reduceFrom_appends .., hfault]
  rfl

/-- Operators that bind less and less tightly towards the bottom are at most two, as there are only
    two ways to bind. -/
theorem length_le_two_of_pairwise
    (h : ops.Pairwise fun above below => below.precedence < above.precedence) :
    ops.length ≤ 2 := by
  have hlow : ∀ op : Operator, 1 ≤ op.precedence ∧ op.precedence ≤ 2 := by
    intro op
    cases op <;> decide
  match ops, h with
  | [], _ | [_], _ | [_, _], _ => simp
  | op₁ :: op₂ :: op₃ :: ops, h =>
    have h₁₂ := List.rel_of_pairwise_cons h (List.mem_cons_self (l := op₃ :: ops) (a := op₂))
    have h₂₃ := List.rel_of_pairwise_cons h.of_cons (List.mem_cons_self (l := ops) (a := op₃))
    have := hlow op₁
    have := hlow op₃
    omega

end Stacks

namespace Evaluation

/-! ## States, steps and ends -/

/-- A call of the evaluator: for a span, in which brackets may be nested `room` deep. -/
structure Call where
  room : Nat
  start : Nat
  stop : Nat

/-- What the loop expects at the token that it has come to. -/
inductive Phase where
  | operand
  | operator
deriving DecidableEq

/-- How many operands there are beyond those that the operators have to their left. -/
def Phase.extra : Phase → Nat
  | operand => 0
  | operator => 1

/-- A state of the loop over a span. -/
structure State where
  phase : Phase
  index : Nat
  pending : Stacks

variable (e : Evaluation) (c : Call)

/-- Whether an operator on top of its stack is applied when the loop is behind an operand, and the
    byte offset at which a lack of its operands would show. -/
inductive Applies (index : Nat) (op : Operator) : (offset : Nat) → Prop
  /-- Before an operator that does not bind more tightly. -/
  | before {next : Operator} (h : c.stop ≤ e.tokens.size) (hlt : index < c.stop) :
      e.tokens[index].token = .operator next → op.reducesBefore next = true →
      Applies index op e.tokens[index].offset
  /-- At the end of the span. -/
  | atEnd : c.stop ≤ index → Applies index op (e.offsetAt c.stop)

/-- The steps of the loop over the span of a call. -/
inductive Step : State → State → Prop
  /-- An operand is evaluated and put on its stack. -/
  | operand {index : Nat} {pending : Stacks} {operand : Operand} (h : c.stop ≤ e.tokens.size)
      (hlt : index < c.stop) :
      (e.operand (e.innerOf c.room) index c.stop h hlt).result = .ok operand →
      Step ⟨.operand, index, pending⟩ ⟨.operator, index + 1 + operand.more,
        { pending with operands := operand.value :: pending.operands }⟩
  /-- The operator on top is applied. -/
  | apply {index offset : Nat} {op : Operator} {vs vs' : List Float} {ops : List Operator} :
      e.Applies c index op offset → (Stacks.applyTop op offset vs).result = .ok vs' →
      Step ⟨.operator, index, ⟨vs, op :: ops⟩⟩ ⟨.operator, index, ⟨vs', ops⟩⟩
  /-- An operator is put on its stack, where it binds more tightly than the one below. -/
  | push {index : Nat} {pending : Stacks} {op : Operator} (h : c.stop ≤ e.tokens.size)
      (hlt : index < c.stop) : e.tokens[index].token = .operator op →
      (∀ top ∈ pending.operators.head?, top.reducesBefore op = false) →
      Step ⟨.operator, index, pending⟩
        ⟨.operand, index + 1, { pending with operators := op :: pending.operators }⟩

/-- The states in which the loop over the span of a call ends, and the result that it has there. -/
inductive Ends : State → Except Fault Float → Prop
  /-- The span ends where an operand is expected. -/
  | unfinished {index : Nat} {pending : Stacks} : c.stop ≤ index →
      Ends ⟨.operand, index, pending⟩ (.error ⟨e.offsetAt c.stop, .missingOperand⟩)
  /-- There is no operand, or it has no value. -/
  | operand {index : Nat} {pending : Stacks} {fault : Fault} (h : c.stop ≤ e.tokens.size)
      (hlt : index < c.stop) :
      (e.operand (e.innerOf c.room) index c.stop h hlt).result = .error fault →
      Ends ⟨.operand, index, pending⟩ (.error fault)
  /-- There is no operator where one is expected. -/
  | misplaced {index : Nat} {pending : Stacks} (h : c.stop ≤ e.tokens.size)
      (hlt : index < c.stop) : e.tokens[index].token.operator? = none →
      Ends ⟨.operator, index, pending⟩ (.error (misplaced e.tokens[index]))
  /-- The operator on top lacks an operand. -/
  | lacking {index offset : Nat} {op : Operator} {vs : List Float} {ops : List Operator}
      {fault : Fault} : e.Applies c index op offset →
      (Stacks.applyTop op offset vs).result = .error fault →
      Ends ⟨.operator, index, ⟨vs, op :: ops⟩⟩ (.error fault)
  /-- At the end of the span, there is no operand. -/
  | absent {index : Nat} : c.stop ≤ index →
      Ends ⟨.operator, index, ⟨[], []⟩⟩ (.error ⟨e.offsetAt c.stop, .missingOperand⟩)
  /-- At the end of the span, there is a value. -/
  | value {index : Nat} {v : Float} {vs : List Float} : c.stop ≤ index →
      Ends ⟨.operator, index, ⟨v :: vs, []⟩⟩ (.ok v)

/-- The states that the loop over the span of a call goes through. There are none if the span has no
    tokens. -/
def Loop (s : State) : Prop :=
  c.start < c.stop ∧ ReflTransGen (e.Step c) ⟨.operand, c.start, {}⟩ s

/-- The loop over the span of a call, from a state on. -/
def rest (h : c.stop ≤ e.tokens.size) (s : State) : Logged Fault Float :=
  match s.phase with
  | .operand => e.run (e.innerOf c.room) c.stop h s.index s.pending
  | .operator => e.resume (e.innerOf c.room) h s.index s.pending

/-- The result of a call. -/
def resultOf : Except Fault Float :=
  (e.evalSpan c.room c.start c.stop).result

variable {e c} {s s' : State} {r : Except Fault Float}

/-- Where the loop does not end, it takes a step. -/
theorem exists_step_or_ends (h : c.stop ≤ e.tokens.size) (s : State) :
    (∃ s', e.Step c s s') ∨ ∃ r, e.Ends c s r := by
  obtain ⟨phase, index, pending⟩ := s
  cases phase with
  | operand =>
    by_cases hlt : index < c.stop
    · cases hoperand : (e.operand (e.innerOf c.room) index c.stop h hlt).result with
      | ok operand => exact Or.inl ⟨_, .operand h hlt hoperand⟩
      | error fault => exact Or.inr ⟨_, .operand h hlt hoperand⟩
    · exact Or.inr ⟨_, .unfinished (Nat.not_lt.mp hlt)⟩
  | operator =>
    obtain ⟨vs, ops⟩ := pending
    -- an operator that is applied either has its operands or lacks them
    have happlies : ∀ op ops' offset, ops = op :: ops' → e.Applies c index op offset →
        (∃ s', e.Step c ⟨.operator, index, ⟨vs, ops⟩⟩ s') ∨
          ∃ r, e.Ends c ⟨.operator, index, ⟨vs, ops⟩⟩ r := by
      intro op ops' offset hops happlies
      subst hops
      cases happly : (Stacks.applyTop op offset vs).result with
      | ok vs' => exact Or.inl ⟨_, .apply happlies happly⟩
      | error fault => exact Or.inr ⟨_, .lacking happlies happly⟩
    by_cases hlt : index < c.stop
    · cases htok : e.tokens[index].token.operator? with
      | none => exact Or.inr ⟨_, .misplaced h hlt htok⟩
      | some next =>
        have htok' := Token.operator?_eq_some_iff.mp htok
        by_cases hwait : ∀ top ∈ ops.head?, top.reducesBefore next = false
        · exact Or.inl ⟨_, .push h hlt htok' hwait⟩
        · cases ops with
          | nil => simp at hwait
          | cons op ops =>
            have hbefore : op.reducesBefore next = true := by simpa using hwait
            exact happlies op ops _ rfl (.before h hlt htok' hbefore)
    · have hle := Nat.not_lt.mp hlt
      cases ops with
      | cons op ops => exact happlies op ops _ rfl (.atEnd hle)
      | nil =>
        cases vs with
        | nil => exact Or.inr ⟨_, .absent hle⟩
        | cons v vs => exact Or.inr ⟨_, .value hle⟩

variable (c) in
/-- A bound on the steps that the loop takes from a state on: each token that is left is evaluated
    or put on its stack and applied. -/
def State.stepsLeft (s : State) : Nat :=
  2 * (c.stop - s.index) + s.pending.operators.length

theorem Step.stepsLeft_lt (hstep : e.Step c s s') : s'.stepsLeft c < s.stepsLeft c := by
  cases hstep with
  | operand h hlt _ =>
    simp only [State.stepsLeft]
    omega
  | apply _ _ =>
    simp only [State.stepsLeft, List.length_cons]
    omega
  | push h hlt _ _ =>
    simp only [State.stepsLeft, List.length_cons]
    omega

/-- The loop takes only so many steps. -/
theorem step_wellFounded (e : Evaluation) (c : Call) : WellFounded fun s' s => e.Step c s s' :=
  Subrelation.wf Step.stepsLeft_lt (InvImage.wf (State.stepsLeft c) Nat.lt_wfRel.wf)

/-! ## The loop and the result -/

/-- A step leaves alone how the loop ends. -/
theorem Step.rest_result (hstep : e.Step c s s') (h : c.stop ≤ e.tokens.size) :
    (e.rest c h s).result = (e.rest c h s').result := by
  have hin := innerOf_appends (e := e) c.room
  cases hstep with
  | operand _ hlt hoperand =>
    show (e.run _ _ h _ _).result = _
    rw [run_result hin hlt, hoperand]
    rfl
  | @apply index offset op vs vs' ops happlies happly =>
    obtain ⟨l, r, us, rfl, rfl⟩ := Stacks.applyTop_result_eq_ok_iff.mp happly
    have hnext : ∀ hlt : index < c.stop, ∃ op', e.tokens[index].token = .operator op' ∧
        op.reducesBefore op' = true := by
      intro hlt
      cases happlies with
      | before _ _ htok hbefore => exact ⟨_, htok, hbefore⟩
      | atEnd hle => exact absurd hlt (Nat.not_lt.mpr hle)
    show (e.resume _ h _ _).result = (e.resume _ h _ _).result
    rw [resume_apply hnext, result_bind fun _ => resume_appends hin ..]
    rfl
  | push _ hlt htok hwait =>
    show (e.resume _ h _ _).result = _
    rw [resume_push hlt htok hwait, result_bind fun _ => run_appends hin ..]
    rfl

/-- Where the loop ends, it has the result that the rule says. -/
theorem Ends.rest_result (hends : e.Ends c s r) (h : c.stop ≤ e.tokens.size) :
    (e.rest c h s).result = r := by
  have hin := innerOf_appends (e := e) c.room
  cases hends with
  | unfinished hle =>
    show (e.run _ _ h _ _).result = _
    rw [run_of_le hle]
    rfl
  | operand _ hlt hoperand =>
    show (e.run _ _ h _ _).result = _
    rw [run_result hin hlt, hoperand]
    rfl
  | misplaced _ hlt htok =>
    show (e.resume _ h _ _).result = _
    rw [resume_of_misplaced hlt htok]
    rfl
  | lacking happlies happly =>
    show (e.resume _ h _ _).result = _
    cases happlies with
    | @before next _ hlt htok hbefore =>
      rw [resume_result_operator hin hlt htok,
        @Stacks.reduce_result_of_error _ _ _ _ _ (·.reducesBefore next) hbefore happly]
      rfl
    | atEnd hle =>
      rw [resume_of_le hle, Stacks.drain_result, Stacks.reduce_result_of_error rfl happly]
      rfl
  | absent hle =>
    show (e.resume _ h _ _).result = _
    rw [resume_of_le hle]
    rfl
  | value hle =>
    show (e.resume _ h _ _).result = _
    rw [resume_of_le hle]
    rfl

/-- Every state of the loop has the result of the call ahead. -/
theorem Loop.rest_result (hloop : e.Loop c s) (h : c.stop ≤ e.tokens.size) :
    (e.rest c h s).result = e.resultOf c := by
  obtain ⟨hlt, hsteps⟩ := hloop
  induction hsteps with
  | refl => rw [resultOf, evalSpan_eq, span_of_lt h hlt, rest]
  | tail _ hstep ih => rw [← hstep.rest_result h, ih]

/-- From every state on, the loop ends. -/
theorem Loop.exists_ends (hloop : e.Loop c s) (h : c.stop ≤ e.tokens.size) :
    ∃ s' r, e.Loop c s' ∧ e.Ends c s' r := by
  induction s using (step_wellFounded e c).induction with
  | _ s ih =>
    cases exists_step_or_ends h s with
    | inl hstep =>
      obtain ⟨s', hstep⟩ := hstep
      exact ih s' hstep ⟨hloop.1, hloop.2.tail hstep⟩
    | inr hends =>
      obtain ⟨r, hends⟩ := hends
      exact ⟨s, r, hloop, hends⟩

/-- The result of a span with tokens is that with which its loop ends. -/
theorem result_eq_iff (h : c.stop ≤ e.tokens.size) (hlt : c.start < c.stop) :
    e.resultOf c = r ↔ ∃ s, e.Loop c s ∧ e.Ends c s r := by
  constructor
  · intro hr
    obtain ⟨s, r', hloop, hends⟩ := Loop.exists_ends ⟨hlt, .refl⟩ h
    have hr' : r' = r := by rw [← hr, ← hends.rest_result h, hloop.rest_result h]
    exact ⟨s, hloop, hr' ▸ hends⟩
  · intro ⟨s, hloop, hends⟩
    rw [← hloop.rest_result h, hends.rest_result h]

/-! ## The shape of the stacks -/

variable (e c) in
/-- What holds in every state of a loop. -/
structure Shape (s : State) : Prop where
  start_le : c.start ≤ s.index
  le_stop : s.index ≤ c.stop
  /-- Each operator that waits has an operand to its left, and the last operand is not one of
      those. -/
  lengths : s.pending.operands.length = s.pending.operators.length + s.phase.extra
  /-- Each operator that waits binds more tightly than those below it. -/
  tighter : s.pending.operators.Pairwise fun above below => below.precedence < above.precedence
  /-- An operand is expected at the start of the span and after an operator. -/
  expects : s.phase = .operand → s.index = c.start ∨ ∃ before op, s.index = before + 1 ∧
    c.start ≤ before ∧ ∃ hlt : before < e.tokens.size, e.tokens[before].token = .operator op

theorem shape_start (h : c.start < c.stop) : e.Shape c ⟨.operand, c.start, {}⟩ where
  start_le := Nat.le_refl _
  le_stop := Nat.le_of_lt h
  lengths := rfl
  tighter := .nil
  expects := fun _ => Or.inl rfl

/-- Each step keeps the shape of the stacks. -/
theorem Step.shape (hstep : e.Step c s s') (hs : e.Shape c s) : e.Shape c s' := by
  have hstart := hs.start_le
  have hlengths := hs.lengths
  cases hstep with
  | operand h hlt hoperand =>
    obtain ⟨hle, -⟩ := nested_of_operand_ok hoperand
    exact ⟨by simp only at hstart ⊢; omega, hle, congrArg (· + 1) hlengths, hs.tighter, nofun⟩
  | apply _ happly =>
    obtain ⟨l, r, us, rfl, rfl⟩ := Stacks.applyTop_result_eq_ok_iff.mp happly
    exact ⟨hstart, hs.le_stop, Nat.succ.inj hlengths, hs.tighter.of_cons, nofun⟩
  | @push index pending op h hlt htok hwait =>
    have htighter : pending.operators.Pairwise _ := hs.tighter
    -- those below the top bind less tightly than the top, which binds less tightly than `op`
    have hbelow : ∀ below ∈ pending.operators, below.precedence < op.precedence := by
      intro below hmem
      cases hops : pending.operators with
      | nil => exact absurd (hops ▸ hmem) List.not_mem_nil
      | cons top ops =>
        rw [hops] at hmem htighter hwait
        have htop : top.precedence < op.precedence := by
          simpa [Operator.reducesBefore] using hwait top rfl
        cases hmem with
        | head => exact htop
        | tail _ hmem => exact Nat.lt_trans (List.rel_of_pairwise_cons htighter hmem) htop
    have hexpects : ∃ before op, index + 1 = before + 1 ∧ c.start ≤ before ∧
        ∃ hlt : before < e.tokens.size, e.tokens[before].token = .operator op :=
      ⟨index, op, rfl, hstart, Nat.lt_of_lt_of_le hlt h, htok⟩
    exact ⟨Nat.le_succ_of_le hstart, hlt, hlengths, .cons hbelow htighter,
      fun _ => Or.inr hexpects⟩

/-- The invariant of the states of a loop. -/
theorem Loop.shape (hloop : e.Loop c s) : e.Shape c s := by
  obtain ⟨hlt, hsteps⟩ := hloop
  induction hsteps with
  | refl => exact shape_start hlt
  | tail _ hstep ih => exact hstep.shape ih

/-- There are two operators and three operands at most. -/
theorem Shape.lengths_le (hs : e.Shape c s) :
    s.pending.operators.length ≤ 2 ∧ s.pending.operands.length ≤ 3 := by
  have hlengths := hs.lengths
  have htwo := Stacks.length_le_two_of_pairwise hs.tighter
  have hextra : s.phase.extra ≤ 1 := by
    cases s.phase <;> simp [Phase.extra]
  exact ⟨htwo, by omega⟩

/-- An operator on top has both of its operands where it might be applied. -/
theorem Shape.operands_eq (hs : e.Shape c s) (hphase : s.phase = .operator) {op : Operator}
    {ops : List Operator} (hops : s.pending.operators = op :: ops) :
    ∃ l r vs, s.pending.operands = r :: l :: vs := by
  have hlengths := hs.lengths
  rw [hphase, hops] at hlengths
  rcases hvs : s.pending.operands with _ | ⟨r, _ | ⟨l, vs⟩⟩
  · simp [hvs, Phase.extra] at hlengths
  · simp [hvs, Phase.extra] at hlengths
  · exact ⟨l, r, vs, rfl⟩

/-- When all operators are applied, one operand is left, which is the value of the stacks. -/
theorem Shape.drain_result (hs : e.Shape c s) (hphase : s.phase = .operator) (offset : Nat) :
    ∃ v, (s.pending.reduce (fun _ => true) offset).result = .ok ⟨[v], []⟩ ∧
      (s.pending.drain offset).result = .ok v := by
  have hbalanced : s.pending.Balanced := by
    have hlengths := hs.lengths
    rwa [hphase] at hlengths
  obtain ⟨v, hreduce⟩ := Stacks.reduce_all_of_balanced hbalanced offset
  have hdrain : (s.pending.drain offset).result = .ok v := by
    rw [Stacks.drain_result, hreduce]
    rfl
  exact ⟨v, hreduce, hdrain⟩

/-! ## Calls inside brackets -/

variable (e) in
/-- The calls that the loop over the span of a call makes, for what is inside the brackets of its
    operands. -/
inductive Calls : Call → Call → Prop
  | inside {room start stop index bracket first last : Nat} {pending : Stacks} {kind : Bracket}
      (h : stop ≤ e.tokens.size) (hlt : index < stop) :
      e.Loop ⟨room + 1, start, stop⟩ ⟨.operand, index, pending⟩ →
      e.Opens stop index kind bracket →
      kind.pairWithin e.tokens bracket stop h = .ok (first, last) →
      Calls ⟨room + 1, start, stop⟩ ⟨room, bracket + 1, bracket + last⟩

variable {c' : Call} {offset : Nat}

/-- A call is made for a span strictly inside the current one, and leaves less room. -/
theorem Calls.inside_span (hcall : e.Calls c c') :
    c.start < c'.start ∧ c'.start ≤ c'.stop ∧ c'.stop < c.stop ∧ c.room = c'.room + 1 := by
  cases hcall with
  | inside h hlt hloop hopens hpair =>
    have hstart := hloop.shape.start_le
    obtain ⟨hle, hb, hsize, hopen⟩ := hopens.opening h hlt
    obtain ⟨hpos, hlast⟩ := Bracket.pairWithin_ok_lt hb hsize hopen hpair
    exact ⟨Nat.lt_succ_of_le (Nat.le_trans hstart hle), Nat.add_le_add_left hpos _, hlast, rfl⟩

theorem calls_wellFounded (e : Evaluation) : WellFounded fun c' c => e.Calls c c' := by
  apply Subrelation.wf _ (InvImage.wf Call.room Nat.lt_wfRel.wf)
  intro c' c hcall
  obtain ⟨-, -, -, hroom⟩ := hcall.inside_span
  show c'.room < c.room
  omega

theorem stop_le_of_calls (hcalls : ReflTransGen e.Calls c c') : c'.stop ≤ c.stop := by
  induction hcalls with
  | refl => exact Nat.le_refl _
  | tail _ hcall ih =>
    obtain ⟨-, -, hlt, -⟩ := hcall.inside_span
    omega

/-- A call fails as those fail that it makes. -/
theorem Calls.result_eq_error (hcall : e.Calls c c') {fault : Fault}
    (hfault : e.resultOf c' = .error fault) : e.resultOf c = .error fault := by
  cases hcall with
  | @inside room start stop index bracket first last pending kind h hlt hloop hopens hpair =>
    have hin := innerOf_appends (e := e) (room + 1)
    have hgroup : (e.group (e.innerOf (room + 1)) kind bracket stop h).result = .error fault := by
      have hspan : (e.evalSpan room (bracket + 1) (bracket + last)).result = .error fault := hfault
      rw [innerOf, group_of_pair hpair, result_bind fun _ => appends_pure _, hspan]
      rfl
    have hoperand : (e.operand (e.innerOf (room + 1)) index stop h hlt).result = .error fault := by
      cases hopens with
      | group _ htok =>
        rw [operand_group htok, result_bind fun _ => appends_pure _, hgroup]
        rfl
      | subscript _ _ htok hsub =>
        rw [operand_cell htok hsub, result_bind fun _ =>
          (cell_appends ..).bind fun _ => appends_pure _, hgroup]
        rfl
    exact (result_eq_iff h hloop.1).mpr ⟨_, hloop, .operand h hlt hoperand⟩

/-- Reducing the stacks before an operator takes a step for each operator that is applied, and stops
    at one that binds less tightly. -/
theorem steps_of_reduce {index : Nat} (h : c.stop ≤ e.tokens.size) (hlt : index < c.stop)
    {next : Operator} (htok : e.tokens[index].token = .operator next) {vs : List Float}
    {ops : List Operator} {pending : Stacks}
    (hreduce : (Stacks.reduceFrom (·.reducesBefore next) e.tokens[index].offset vs ops).result =
      .ok pending) :
    ReflTransGen (e.Step c) ⟨.operator, index, ⟨vs, ops⟩⟩ ⟨.operator, index, pending⟩ ∧
      ∀ top ∈ pending.operators.head?, top.reducesBefore next = false := by
  -- Induction on the operators, which are applied from the top.
  induction ops generalizing vs with
  | nil =>
    obtain rfl : (⟨vs, []⟩ : Stacks) = pending := Except.ok.inj hreduce
    exact ⟨.refl, nofun⟩
  | cons op ops ih =>
    rw [Stacks.reduceFrom] at hreduce
    split at hreduce
    · next hbefore =>
      rw [result_bind fun _ => Stacks.reduceFrom_appends .., bind_eq_ok_iff] at hreduce
      obtain ⟨vs', happly, hrest⟩ := hreduce
      obtain ⟨hsteps, htop⟩ := ih hrest
      exact ⟨.head (.apply (.before h hlt htok hbefore) happly) hsteps, htop⟩
    · next hnot =>
      obtain rfl : (⟨vs, op :: ops⟩ : Stacks) = pending := Except.ok.inj hreduce
      exact ⟨.refl, fun top htop => Option.some.inj htop ▸ Bool.eq_false_iff.mpr hnot⟩

/-- The points that an evaluation of all tokens reaches are states of the loops over its calls. -/
theorem Reaches.loop {room start stop index : Nat} {pending : Stacks}
    (hreach : e.Reaches room start stop index pending) (hlt : index < stop) :
    ReflTransGen e.Calls ⟨e.limit, 0, e.tokens.size⟩ ⟨room, start, stop⟩ ∧
      e.Loop ⟨room, start, stop⟩ ⟨.operand, index, pending⟩ := by
  induction hreach with
  | all => exact ⟨.refl, hlt, .refl⟩
  | next h hbefore hnext _ hoperand htok hreduce ih =>
    obtain ⟨hcalls, hspan, hsteps⟩ := ih hbefore
    obtain ⟨hreduced, htop⟩ := steps_of_reduce (c := ⟨_, _, _⟩) h hnext htok hreduce
    exact ⟨hcalls, hspan,
      ((hsteps.tail (.operand h hbefore hoperand)).trans hreduced).tail (.push h hnext htok htop)⟩
  | inside h hbefore _ hopens hpair ih =>
    obtain ⟨hcalls, hloop⟩ := ih hbefore
    exact ⟨hcalls.tail (.inside h hbefore hloop hopens hpair), hlt, .refl⟩

/-! ## Where operands are lacking -/

variable (e c) in
/-- Whether a span lacks an operand at an index, and the byte offset at which this shows. -/
inductive LacksOperand (index : Nat) : (offset : Nat) → Prop
  /-- An operator is there. -/
  | operator {op : Operator} (hsize : index < e.tokens.size) : index < c.stop →
      e.tokens[index].token = .operator op → LacksOperand index e.tokens[index].offset
  /-- The span ends there, and an operator is its last token. -/
  | ending {op : Operator} {before : Nat} (hsize : before < e.tokens.size) : c.start ≤ before →
      before + 1 = index → index = c.stop → e.tokens[before].token = .operator op →
      LacksOperand index (e.offsetAt c.stop)

theorem misplaced_cause_ne (p : Placed) : (misplaced p).cause ≠ .missingOperand := by
  rcases misplaced_eq p with ⟨kind, -, heq⟩ | ⟨-, heq⟩ <;> rw [heq] <;> exact nofun

/-- A group that fails for lack of an operand has called for what is inside its brackets. -/
theorem Loop.calls_of_group_error (hloop : e.Loop c s) (hphase : s.phase = .operand)
    {h : c.stop ≤ e.tokens.size} (hlt : s.index < c.stop) {kind : Bracket} {bracket : Nat}
    (hopens : e.Opens c.stop s.index kind bracket) {fault : Fault}
    (hgroup : (e.group (e.innerOf c.room) kind bracket c.stop h).result = .error fault)
    (hcause : fault.cause = .missingOperand) :
    ∃ c', e.Calls c c' ∧ e.resultOf c' = .error fault := by
  obtain ⟨-, hb, hsize, hopen⟩ := hopens.opening h hlt
  obtain ⟨phase, index, pending⟩ := s
  obtain ⟨room, start, stop⟩ := c
  obtain rfl : phase = .operand := hphase
  rcases group_error_cases hgroup with ⟨-, rfl⟩ | ⟨room, rfl, hpair | ⟨first, last, hpair, hspan⟩⟩
  · exact nomatch hcause
  · -- the fault of a search is that its bracket has no partner
    obtain rfl := Bracket.pairWithin_error_of_opening hb hsize hopen hpair
    exact nomatch hcause
  · exact ⟨_, .inside h hlt hloop hopens hpair, hspan⟩

/-- A loop that ends for lack of an operand expects one where there is none, or has called for what
    is inside brackets and fails as this does. -/
theorem Loop.lacks_of_ends (hloop : e.Loop c s) (hends : e.Ends c s r) {fault : Fault}
    (hr : r = .error fault) (hcause : fault.cause = .missingOperand) :
    (s.phase = .operand ∧ e.LacksOperand c s.index fault.offset) ∨
      ∃ c', e.Calls c c' ∧ e.resultOf c' = .error fault := by
  have hs := hloop.shape
  cases hends with
  | unfinished hle =>
    obtain rfl := Except.error.inj hr
    have hend := Nat.le_antisymm hs.le_stop hle
    rcases hs.expects rfl with hstart | ⟨before, op, hbefore, hstart, hsize, htok⟩
    · -- a span with tokens does not end where it starts
      have hlt := hloop.1
      rw [← hstart, ← hend] at hlt
      exact absurd hlt (Nat.lt_irrefl _)
    · exact Or.inl ⟨rfl, .ending hsize hstart hbefore.symm hend htok⟩
  | operand h hlt hoperand =>
    obtain rfl := Except.error.inj hr
    have hsize := Nat.lt_of_lt_of_le hlt h
    rcases operand_error_cases hsize hoperand with ⟨op, htok, rfl⟩ | ⟨-, rfl⟩ |
      ⟨kind, bracket, hopens, hgroup⟩ | ⟨name, v, last, -, -, -, hread⟩
    · exact Or.inl ⟨rfl, .operator hsize hlt htok⟩
    · exact absurd hcause (misplaced_cause_ne _)
    · exact Or.inr (hloop.calls_of_group_error rfl hlt hopens hgroup hcause)
    · -- the fault of a cell is that of its subscript
      rcases (Table.read_eq_error hread).2 with hread | ⟨index, length, hread⟩ <;>
        exact nomatch hcause.symm.trans hread
  | misplaced h hlt htok =>
    obtain rfl := Except.error.inj hr
    exact absurd hcause (misplaced_cause_ne _)
  | lacking happlies happly =>
    -- the operator on top has both of its operands
    obtain ⟨l, r, vs, rfl⟩ := hs.operands_eq rfl rfl
    exact nomatch happly
  | absent hle => exact nomatch hs.lengths
  | value hle => exact nomatch hr

/-- The loop ends where an operand is lacking. -/
theorem Loop.ends_of_lacks (hloop : e.Loop c s) (h : c.stop ≤ e.tokens.size)
    (hphase : s.phase = .operand) (hlacks : e.LacksOperand c s.index offset) :
    e.Ends c s (.error ⟨offset, .missingOperand⟩) := by
  obtain ⟨phase, index, pending⟩ := s
  obtain rfl : phase = .operand := hphase
  cases hlacks with
  | operator hsize hlt htok =>
    apply Ends.operand h hlt
    simp only [operand, htok, result_throw]
  | ending hsize hstart hbefore hend htok =>
    exact .unfinished (Nat.le_of_eq hend.symm)

/-- A call fails for lack of an operand exactly if this is where its loop, or that of a call inside
    it, expects one: at an operator, or at the end of a span behind an operator. -/
theorem missingOperand_iff (h : c.stop ≤ e.tokens.size) :
    e.resultOf c = .error ⟨offset, .missingOperand⟩ ↔ ∃ c' s, ReflTransGen e.Calls c c' ∧
      e.Loop c' s ∧ s.phase = .operand ∧ e.LacksOperand c' s.index offset := by
  constructor
  · -- Induction on the calls, each of which fails as the one that it makes, or by itself.
    intro hfault
    induction c using (calls_wellFounded e).induction with
    | _ c ih =>
      by_cases hlt : c.start < c.stop
      · obtain ⟨s, hloop, hends⟩ := (result_eq_iff h hlt).mp hfault
        rcases hloop.lacks_of_ends hends rfl rfl with ⟨hphase, hlacks⟩ | ⟨c₁, hcall, hinside⟩
        · exact ⟨c, s, .refl, hloop, hphase, hlacks⟩
        · obtain ⟨-, -, hstop, -⟩ := hcall.inside_span
          obtain ⟨c', s, hcalls, hrest⟩ := ih c₁ hcall (by omega) hinside
          exact ⟨c', s, .head hcall hcalls, hrest⟩
      · rw [resultOf, evalSpan_eq, span_of_le (Nat.not_lt.mp hlt)] at hfault
        exact nomatch hfault
  · intro ⟨c', s, hcalls, hloop, hphase, hlacks⟩
    have hstop := stop_le_of_calls hcalls
    have hends := hloop.ends_of_lacks (Nat.le_trans hstop h) hphase hlacks
    induction hcalls using ReflTransGen.head_induction_on with
    | refl => exact (result_eq_iff h hloop.1).mpr ⟨s, hloop, hends⟩
    | @head c₁ c₂ hcall hcalls ih =>
      obtain ⟨-, -, hlt, -⟩ := hcall.inside_span
      exact hcall.result_eq_error (ih (by omega) (stop_le_of_calls hcalls))

/-- A span that ends behind the last token is evaluated up to that token. -/
theorem resultOf_min (room start stop : Nat) :
    e.resultOf ⟨room, start, min stop e.tokens.size⟩ = (e.evalSpan room start stop).result := by
  simp only [resultOf, evalSpan_eq]
  by_cases hlt : start < min stop e.tokens.size
  · rw [span_of_lt (Nat.min_le_right ..) hlt, span, if_pos hlt]
  · rw [span_of_le (Nat.not_lt.mp hlt), span, if_neg hlt]

/-- In every state of the loop over any span, there are as many operands as operators where an
    operand is expected, and one more otherwise; each operator binds more tightly than those below
    it, so that there are two at most. From each state the loop goes on to the result of the span.

    So an operator on top has both of its operands, one operand is left when all operators are
    applied, and an operand is lacking only where the loop expects one, in this span or inside its
    brackets: at an operator, or at the end of a span behind an operator. -/
theorem stacks_spec (e : Evaluation) (room start stop : Nat) :
    let c : Call := ⟨room, start, min stop e.tokens.size⟩
    (∀ s, e.Loop c s →
      s.pending.operands.length = s.pending.operators.length + s.phase.extra ∧
      s.pending.operators.Pairwise (fun above below => below.precedence < above.precedence) ∧
      s.pending.operators.length ≤ 2 ∧ s.pending.operands.length ≤ 3 ∧
      (e.rest c (Nat.min_le_right ..) s).result = (e.evalSpan room start stop).result) ∧
    (c.start < c.stop → ∃ s, e.Loop c s ∧ e.Ends c s (e.evalSpan room start stop).result) ∧
    (∀ s op ops offset, e.Loop c s → s.phase = .operator → s.pending.operators = op :: ops →
      ∃ l r vs, s.pending.operands = r :: l :: vs ∧
        (Stacks.applyTop op offset s.pending.operands).result = .ok (op.apply l r :: vs)) ∧
    (∀ s offset, e.Loop c s → s.phase = .operator →
      ∃ v, (s.pending.reduce (fun _ => true) offset).result = .ok ⟨[v], []⟩ ∧
        (s.pending.drain offset).result = .ok v) ∧
    ∀ offset, (e.evalSpan room start stop).result = .error ⟨offset, .missingOperand⟩ ↔
      ∃ c' s, ReflTransGen e.Calls c c' ∧ e.Loop c' s ∧ s.phase = .operand ∧
        e.LacksOperand c' s.index offset := by
  intro c
  have hstop : c.stop ≤ e.tokens.size := Nat.min_le_right ..
  have hresult : e.resultOf c = (e.evalSpan room start stop).result := resultOf_min room start stop
  rw [← hresult]
  constructor
  · intro s hloop
    obtain ⟨htwo, hthree⟩ := hloop.shape.lengths_le
    exact ⟨hloop.shape.lengths, hloop.shape.tighter, htwo, hthree, hloop.rest_result hstop⟩
  constructor
  · intro hlt
    exact (result_eq_iff hstop hlt).mp rfl
  constructor
  · intro s op ops offset hloop hphase hops
    obtain ⟨l, r, vs, hvs⟩ := hloop.shape.operands_eq hphase hops
    exact ⟨l, r, vs, hvs, Stacks.applyTop_result_eq_ok_iff.mpr ⟨l, r, vs, hvs, rfl⟩⟩
  constructor
  · intro s offset hloop hphase
    exact hloop.shape.drain_result hphase offset
  · intro offset
    exact missingOperand_iff hstop

/-- In `1+2*`, two operators wait where an operand is lacking at the end. -/
theorem stacks_spec_unfinished :
    let e : Evaluation :=
      { tokens := #[⟨.number 1, 0⟩, ⟨.operator .add, 1⟩, ⟨.number 2, 2⟩, ⟨.operator .mul, 3⟩]
        length := 4
        table := {} }
    let s : State := ⟨.operand, 4, ⟨[2, 1], [.mul, .add]⟩⟩
    e.Loop ⟨256, 0, 4⟩ s ∧ s.pending.operators.length = 2 ∧
      s.pending.operands.length = s.pending.operators.length + s.phase.extra ∧
      (e.evalSpan 256 0 4).result = .error ⟨4, .missingOperand⟩ := by
  intro e s
  have hsize : e.tokens.size = 4 := rfl
  have h₁ : e.Step ⟨256, 0, 4⟩ ⟨.operand, 0, {}⟩ ⟨.operator, 1, ⟨[1], []⟩⟩ :=
    .operand (Nat.le_refl _) (by decide) (congrArg Logged.result (operand_number rfl))
  have h₂ : e.Step ⟨256, 0, 4⟩ ⟨.operator, 1, ⟨[1], []⟩⟩ ⟨.operand, 2, ⟨[1], [.add]⟩⟩ :=
    .push (Nat.le_refl _) (by decide) rfl nofun
  have h₃ : e.Step ⟨256, 0, 4⟩ ⟨.operand, 2, ⟨[1], [.add]⟩⟩ ⟨.operator, 3, ⟨[2, 1], [.add]⟩⟩ :=
    .operand (Nat.le_refl _) (by decide) (congrArg Logged.result (operand_number rfl))
  have h₄ : e.Step ⟨256, 0, 4⟩ ⟨.operator, 3, ⟨[2, 1], [.add]⟩⟩ s :=
    .push (Nat.le_refl _) (by decide) rfl (by simp [Operator.reducesBefore, Operator.precedence])
  have hloop : e.Loop ⟨256, 0, 4⟩ s :=
    ⟨by decide, (((ReflTransGen.single h₁).tail h₂).tail h₃).tail h₄⟩
  obtain ⟨hstates, -, -, -, hlacks⟩ := stacks_spec e 256 0 4
  obtain ⟨hlengths, -⟩ := hstates s hloop
  have hmissing : e.LacksOperand ⟨256, 0, 4⟩ 4 4 :=
    .ending (show 3 < e.tokens.size by decide) (Nat.zero_le _) rfl rfl rfl
  exact ⟨hloop, rfl, hlengths, (hlacks 4).mpr ⟨_, s, .refl, hloop, rfl, hmissing⟩⟩

end Evaluation

end Reckon
