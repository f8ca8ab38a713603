import Reckon.Event
import Reckon.Proofs.Except

/-!
# Computations that only add to the log

A computation that uses the log only to report ends in the same way whatever has been reported
before, and adds the same events to it. `Logged.Appends` states this, every way to build a
computation preserves it, and under it `Logged.result` and `Logged.log` follow the sequence of
computations.

## Key results

- `Appends.bind`: a sequence of computations that only add to the log only adds to it
- `result_bind`: a sequence ends as its second part does, unless its first part fails
- `Gives.bind`: a sequence of successes reports what its parts report, one after the other
-/

namespace Reckon.Logged

variable {ε α β : Type}

/-- A computation that only adds to the log: neither how it ends nor what it adds depends on what
    the log holds before. -/
structure Appends (x : Logged ε α) : Prop where
  /-- What the computation leaves, from any log on. -/
  run_eq (log : Log) : x.run log = (x.result, log ++ x.log)

/-! ## Single steps -/

@[simp] theorem result_pure (a : α) : (pure a : Logged ε α).result = .ok a := rfl

@[simp] theorem result_throw (e : ε) : (throw e : Logged ε α).result = .error e := rfl

@[simp] theorem appends_pure (a : α) : (pure a : Logged ε α).Appends := by
  refine ⟨fun log => ?_⟩
  show (Except.ok a, log) = (Except.ok a, log ++ #[])
  rw [Array.append_empty]

@[simp] theorem appends_throw (e : ε) : (throw e : Logged ε α).Appends := by
  refine ⟨fun log => ?_⟩
  show (Except.error e, log) = (Except.error e, log ++ #[])
  rw [Array.append_empty]

@[simp] theorem appends_report (event : Event) :
    (liftM (report event) : Logged ε PUnit).Appends := by
  refine ⟨fun log => ?_⟩
  show (Except.ok PUnit.unit, log.push event) = (Except.ok PUnit.unit, log ++ #[].push event)
  simp

@[simp] theorem result_report (event : Event) :
    (liftM (report event) : Logged ε PUnit).result = .ok PUnit.unit := rfl

@[simp] theorem appends_liftExcept (x : Except ε α) : (liftM x : Logged ε α).Appends := by
  refine ⟨fun log => ?_⟩
  show (x, log) = (x, log ++ #[])
  rw [Array.append_empty]

@[simp] theorem result_liftExcept (x : Except ε α) : (liftM x : Logged ε α).result = x := rfl

/-! ## Sequences -/

/-- A sequence that starts with a success goes on from the log of its first part. -/
theorem run_bind_of_ok {x : Logged ε α} {f : α → Logged ε β} {log log' : Log} {a : α}
    (h : x.run log = (.ok a, log')) : (x >>= f).run log = (f a).run log' := by
  show ((x.run >>= ExceptT.bindCont f) log : Except ε β × Log) = (f a).run log'
  show (match x.run log with | (r, l) => ExceptT.bindCont f r l) = (f a).run log'
  rw [h]
  rfl

/-- A sequence ends with the failure of its first part. -/
theorem run_bind_of_error {x : Logged ε α} {f : α → Logged ε β} {log log' : Log} {e : ε}
    (h : x.run log = (.error e, log')) : (x >>= f).run log = (.error e, log') := by
  show (match x.run log with | (r, l) => ExceptT.bindCont f r l) = (.error e, log')
  rw [h]
  rfl

/-- A sequence of computations that only add to the log only adds to it. -/
theorem Appends.bind {x : Logged ε α} {f : α → Logged ε β} (hx : x.Appends)
    (hf : ∀ a, (f a).Appends) : (x >>= f).Appends := by
  refine ⟨fun log => ?_⟩
  simp only [result, Logged.log]
  -- the first part decides whether the second one runs at all
  cases hr : x.result with
  | error e =>
    have hrun : ∀ l, x.run l = (.error e, l ++ x.log) := fun l => by rw [hx.run_eq, hr]
    rw [run_bind_of_error (hrun log), run_bind_of_error (hrun #[])]
    simp
  | ok a =>
    have hrun : ∀ l, x.run l = (.ok a, l ++ x.log) := fun l => by rw [hx.run_eq, hr]
    rw [run_bind_of_ok (hrun log), run_bind_of_ok (hrun #[]), (hf a).run_eq,
      (hf a).run_eq (#[] ++ x.log)]
    simp [Array.append_assoc]

/-- A sequence ends as its second part does, unless its first part fails. -/
theorem result_bind {x : Logged ε α} {f : α → Logged ε β} (hf : ∀ a, (f a).Appends) :
    (x >>= f).result = x.result >>= fun a => (f a).result := by
  simp only [result]
  -- the second part runs on what the first has reported, which does not change its result
  rcases hr : x.run #[] with ⟨r, log⟩
  cases r with
  | error e =>
    rw [run_bind_of_error hr]
    rfl
  | ok a =>
    rw [run_bind_of_ok hr, (hf a).run_eq]
    rfl

/-! ## Successes and what they report -/

/-- A computation gives a value and reports some events, whatever has been reported before. -/
def Gives (x : Logged ε α) (a : α) (events : List Event) : Prop :=
  ∀ log, x.run log = (.ok a, log ++ events.toArray)

theorem gives_pure (a : α) : (pure a : Logged ε α).Gives a [] := by
  intro log
  show (Except.ok a, log) = (Except.ok a, log ++ #[])
  rw [Array.append_empty]

theorem gives_report (event : Event) :
    (liftM (report event) : Logged ε PUnit).Gives PUnit.unit [event] := by
  intro log
  show (Except.ok PUnit.unit, log.push event) = (Except.ok PUnit.unit, log ++ #[event])
  rw [Array.push_eq_append]

namespace Gives

variable {x : Logged ε α} {f : α → Logged ε β} {a : α} {b : β} {events events' : List Event}

/-- A sequence reports what its parts report, one after the other. -/
theorem bind (hx : x.Gives a events) (hf : (f a).Gives b events') :
    (x >>= f).Gives b (events ++ events') := by
  intro log
  rw [run_bind_of_ok (hx log), hf, ← List.append_toArray, Array.append_assoc]

theorem log_eq (h : x.Gives a events) : x.log.toList = events := by
  have hlog : x.log = #[] ++ events.toArray := congrArg Prod.snd (h #[])
  rw [hlog, Array.empty_append]

end Gives

end Reckon.Logged
