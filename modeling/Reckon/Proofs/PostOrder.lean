import Reckon.Expression
import Reckon.Proofs.Parsing

/-!
# The log of an evaluation

Operators are applied late, when a later one or the end of the span shows how far they reach, and
what is inside brackets is evaluated before its value is put on the stack. The log shows none of
this: it is that of a walk over the parse tree, which applies each operator right after its two
operands.

## Key results

- `Derives.filterMap_pushedOperator?`: each operator of a row of tokens is put on the stack once
- `evaluate_log_eq_postorder`: what an evaluation calculates, in the order of its log, is the
  post-order of the parse tree
-/

namespace Reckon

/-- Each operator of a row of tokens is put on the stack once, in the order of the tokens. -/
theorem Derives.filterMap_pushedOperator? {phrase : Phrase} {ts : List Placed} {t : Tree}
    (h : Derives phrase ts t) (table : Table) :
    (t.events table).filterMap Event.pushedOperator? = ts.filterMap (·.token.operator?) := by
  induction h with
  | number v o => rfl
  | scalar name o => rfl
  | cell name o o' c _ ih =>
    simp [Tree.events, Tree.cellEvent, List.filterMap_cons, ih, Event.pushedOperator?,
      Token.operator?]
  | group o c _ ih =>
    simp [Tree.events, List.filterMap_cons, ih, Event.pushedOperator?, Token.operator?]
  | binary op o _ _ _ ihl ihr =>
    simp [Tree.events, List.filterMap_cons, ihl, ihr, Event.pushedOperator?, Token.operator?]
  | single _ _ ih => exact ih

/-- An evaluation with a value has a parse tree, only one, and reports what a walk over the tree
    reports. The operators that are applied and the cells that are read are those of the tree in
    post-order. Each operator of the text is put on the stack once, and so is the value of each
    number, scalar, cell and group of the tree. -/
theorem evaluate_log_eq_postorder {text : String} {table : Table} {v : Float}
    (h : evaluate text table = .ok v) :
    let ps := (Token.scan text).toList
    let log := ((Formula.ofText text).eval table).log.toList
    ∃ t, Derives .sum ps t ∧ (∀ u, Derives .sum ps u → u = t) ∧ t.Valid table ∧
      t.value table = v ∧ log = t.events table ∧
      log.filter Event.isStep = t.postorder table ∧
      log.filterMap Event.pushedOperator? = ps.filterMap (·.token.operator?) ∧
      log.filterMap Event.pushedOperand? = t.operands table := by
  intro ps log
  let e : Evaluation := { Formula.ofText text with table }
  obtain ⟨t, ht, hd⟩ := Evaluation.spans_of_evalSpan_ok (e := e) (Nat.le_refl _) h
  have hwalk : e.evalSpan e.limit 0 e.tokens.size = e.walk t :=
    Evaluation.evalSpan_of_derives (Nat.le_refl _) ht hd
  have hok : (e.walk t).result = .ok v := hwalk ▸ h
  rw [Evaluation.walk_result] at hok
  obtain ⟨hvalid, hvalue⟩ := Tree.eval_eq_ok_iff.mp hok
  have hlog : log = t.events table := by
    show (e.evalSpan e.limit 0 e.tokens.size).log.toList = t.events table
    rw [hwalk]
    exact (Evaluation.walk_gives hvalid).log_eq
  rw [slice_zero_size] at ht
  refine ⟨t, ht, fun u hu => hu.unique ht, hvalid, hvalue, hlog, ?_, ?_, ?_⟩
  · rw [hlog, Tree.filter_isStep_events]
  · rw [hlog, ht.filterMap_pushedOperator?]
    rfl
  · rw [hlog, Tree.filterMap_pushedOperand?_events]

/-- In `x-A[y]*y`, the cell is read before it is multiplied, and the product is subtracted last. -/
theorem evaluate_log_eq_postorder_product :
    let table : Table :=
      { scalars := ⟨[("x", 3), ("y", 1)]⟩, arrays := ⟨[("A", .loaded #[5, 7])]⟩ }
    let log := ((Formula.ofText "x-A[y]*y").eval table).log.toList
    log.filter Event.isStep = [.cellRead "A" 1 7, .applied 7 .mul 1 (7 * 1),
        .applied 3 .sub (7 * 1) (3 - 7 * 1)] ∧
      log.filterMap Event.pushedOperator? = [.sub, .mul] ∧
      log.filterMap Event.pushedOperand? = [3, 1, 7, 1] := by
  intro table log
  have hvalue : (evaluate "x-A[y]*y" table).toBool = true := by decide +kernel
  cases hv : evaluate "x-A[y]*y" table with
  | error fault =>
    rw [hv] at hvalue
    exact nomatch hvalue
  | ok v =>
    obtain ⟨t, -, hunique, -, -, -, hsteps, hoperators, hoperands⟩ := evaluate_log_eq_postorder hv
    have hscan : (Token.scan "x-A[y]*y").toList = [⟨.name "x", 0⟩] ++ ⟨.operator .sub, 1⟩ ::
        ((⟨.name "A", 2⟩ :: (⟨.bracket .square .opening, 3⟩ :: [⟨.name "y", 4⟩] ++
          [⟨.bracket .square .closing, 5⟩])) ++ ⟨.operator .mul, 6⟩ :: [⟨.name "y", 7⟩]) := by
      with_unfolding_all rfl
    have hsubscript : Derives .sum [⟨.name "y", 4⟩] (.scalar "y") :=
      .single nofun (.single nofun (.scalar ..))
    have hproduct := Derives.binary .mul 6 rfl
      (.single nofun (.cell "A" 2 3 5 hsubscript)) (.scalar "y" 7)
    have htree := Derives.binary .sub 1 rfl
      (.single nofun (.single nofun (.scalar "x" 0))) hproduct
    obtain rfl := hunique _ (hscan ▸ htree)
    have hindex : Binary64.number? (1 : Float) = some 1 := by decide +kernel
    have hcell : table.cellAt "A" 1 = 7 := by
      simp only [Table.cellAt, hindex]
      rfl
    have hx : table.scalarValue "x" = 3 := rfl
    have hy : table.scalarValue "y" = 1 := rfl
    refine ⟨hsteps.trans ?_, hoperators.trans (by rw [hscan]; rfl), hoperands.trans ?_⟩
    · simp only [Tree.postorder, Tree.value, Tree.cellEvent, hx, hy, hindex, hcell]
      rfl
    · simp only [Tree.operands, Tree.value, hx, hy, hcell]
      rfl

end Reckon
