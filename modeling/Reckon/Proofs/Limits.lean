import Reckon.Proofs.Reach

/-!
# Evaluation with another limit

How deep brackets may be nested matters only where they are nested too deep. An evaluation with a
lower limit goes the same way as one with a higher limit, until it meets a bracket for which no
level is left; there it ends.

## Key results

- `Cuts.bind`: results of sequences, if those of the parts are the same or cut short
- `Evaluation.evalSpan_cuts`: a lower limit gives the same result, or ends where it is exceeded
-/

namespace Reckon

open Logged

/-- Whether a result is the same as another one, or the fault that a limit is exceeded. -/
def Cuts {α : Type} (limit : Nat) (r r' : Except Fault α) : Prop :=
  r = r' ∨ ∃ offset, r = .error ⟨offset, .nestingTooDeep limit⟩

namespace Cuts

variable {α β : Type} {limit : Nat}

theorem refl (r : Except Fault α) : Cuts limit r r := Or.inl rfl

/-- A sequence is cut short where one of its parts is. -/
theorem bind {r r' : Except Fault α} {f f' : α → Except Fault β} (h : Cuts limit r r')
    (hf : ∀ a, Cuts limit (f a) (f' a)) : Cuts limit (r >>= f) (r' >>= f') := by
  cases h with
  | inl heq =>
    rw [heq]
    cases r' with
    | ok a => exact hf a
    | error fault => exact .refl _
  | inr hcut =>
    obtain ⟨offset, rfl⟩ := hcut
    exact Or.inr ⟨offset, rfl⟩

end Cuts

namespace Evaluation

/-- The same evaluation with another limit. -/
abbrev within (e : Evaluation) (limit : Nat) : Evaluation :=
  { e with limit }

/-- Whether spans inside brackets have the same results as others, or are cut short by a limit. -/
def Inner.Cuts (limit : Nat) (inner inner' : Inner) : Prop :=
  ∀ f ∈ inner, ∃ f' ∈ inner', ∀ start stop, Reckon.Cuts limit (f start stop).result
    (f' start stop).result

variable {e : Evaluation} {limit' : Nat} {inner inner' : Inner} {stop : Nat}
  {h : stop ≤ e.tokens.size}

theorem group_cuts (hin : inner.Appends) (hin' : inner'.Appends)
    (hcuts : Inner.Cuts e.limit inner inner') (kind : Bracket) (index : Nat) :
    Cuts e.limit (e.group inner kind index stop h).result
      ((e.within limit').group inner' kind index stop h).result := by
  cases inner with
  | none => exact Or.inr ⟨e.offsetAt index, rfl⟩
  | some f =>
    obtain ⟨f', rfl, hff'⟩ := hcuts f rfl
    rw [group_result (hin f rfl), group_result (hin' f' rfl)]
    apply Cuts.bind (.refl _)
    intro pair
    apply Cuts.bind (hff' _ _)
    intro v
    exact .refl _

theorem operand_cuts (hin : inner.Appends) (hin' : inner'.Appends)
    (hcuts : Inner.Cuts e.limit inner inner') {index : Nat} (hlt : index < stop) :
    Cuts e.limit (e.operand inner index stop h hlt).result
      ((e.within limit').operand inner' index stop h hlt).result := by
  have hgroup : ∀ kind index, Cuts e.limit (e.group inner kind index stop h).result
      ((e.within limit').group inner' kind index stop h).result := group_cuts hin hin' hcuts
  cases htok : e.tokens[index].token with
  | name name =>
    cases hopens : e.opensSubscript (index + 1) stop h with
    | false =>
      rw [operand_scalar htok hopens, operand_scalar (e := e.within limit') htok hopens]
      exact .refl _
    | true =>
      rw [operand_cell htok hopens, operand_cell (e := e.within limit') htok hopens,
        result_bind fun _ => (cell_appends ..).bind fun _ => appends_pure _,
        result_bind fun _ => (cell_appends ..).bind fun _ => appends_pure _]
      apply Cuts.bind (hgroup .square (index + 1))
      intro group
      exact .refl _
  | bracket kind side =>
    by_cases hopen : kind = .round ∧ side = .opening
    · obtain ⟨rfl, rfl⟩ := hopen
      rw [operand_group htok, operand_group (e := e.within limit') htok,
        result_bind fun _ => appends_pure _, result_bind fun _ => appends_pure _]
      apply Cuts.bind (hgroup .round index)
      intro group
      exact .refl _
    · -- any other bracket is a fault
      apply Or.inl
      cases kind with
      | square => simp only [operand, htok]
      | round =>
        cases side with
        | opening => exact absurd ⟨rfl, rfl⟩ hopen
        | closing => simp only [operand, htok]
  | _ =>
    apply Or.inl
    simp only [operand, htok]

theorem run_cuts (hin : inner.Appends) (hin' : inner'.Appends)
    (hcuts : Inner.Cuts e.limit inner inner') (index : Nat) (pending : Stacks) :
    Cuts e.limit (e.run inner stop h index pending).result
      ((e.within limit').run inner' stop h index pending).result := by
  -- Induction along the recursion of `run`, which does not depend on the limit.
  induction index, pending using run.induct e stop with
  | case1 index pending hlt ih =>
    rw [run_result hin hlt, run_result (e := e.within limit') hin' hlt]
    apply Cuts.bind (operand_cuts hin hin' hcuts hlt)
    intro operand
    by_cases hnext : index + 1 + operand.more < stop
    · cases htok : e.tokens[index + 1 + operand.more].token.operator? with
      | none =>
        rw [resume_of_misplaced hnext htok, resume_of_misplaced (e := e.within limit') hnext htok]
        exact .refl _
      | some op =>
        have htok' := Token.operator?_eq_some_iff.mp htok
        rw [resume_result_operator hin hnext htok',
          resume_result_operator (e := e.within limit') hin' hnext htok']
        apply Cuts.bind (.refl _)
        intro pending
        exact ih operand hnext _
    · have hle := Nat.not_lt.mp hnext
      rw [resume_of_le hle, resume_of_le (e := e.within limit') hle]
      exact .refl _
  | case2 index pending hge =>
    have hle := Nat.not_lt.mp hge
    rw [run_of_le hle, run_of_le (e := e.within limit') hle]
    exact .refl _

theorem span_cuts (hin : inner.Appends) (hin' : inner'.Appends)
    (hcuts : Inner.Cuts e.limit inner inner') (start stop : Nat) :
    Cuts e.limit (e.span inner start stop).result
      ((e.within limit').span inner' start stop).result := by
  unfold span
  by_cases hlt : start < min stop e.tokens.size
  · rw [if_pos hlt, if_pos hlt]
    exact run_cuts hin hin' hcuts start {}
  · rw [if_neg hlt, if_neg hlt]
    exact .refl _

/-- With a lower limit, an evaluation has the same result, or ends where the limit is exceeded. -/
theorem evalSpan_cuts {room room' : Nat} (hle : room ≤ room') (start stop : Nat) :
    Cuts e.limit (e.evalSpan room start stop).result
      ((e.within limit').evalSpan room' start stop).result := by
  -- Induction on the lower room: inside brackets there is less of both.
  induction room generalizing room' start stop with
  | zero =>
    rw [evalSpan_eq, evalSpan_eq]
    exact span_cuts inner_none_appends (innerOf_appends room') nofun start stop
  | succ room ih =>
    cases room' with
    | zero => exact absurd hle (Nat.not_succ_le_zero room)
    | succ room' =>
      apply span_cuts (innerOf_appends (room + 1)) (innerOf_appends (room' + 1))
      intro f hf
      obtain rfl : e.evalSpan room = f := Option.mem_some_iff.mp hf
      exact ⟨(e.within limit').evalSpan room', rfl, ih (Nat.le_of_succ_le_succ hle)⟩

end Evaluation

end Reckon
