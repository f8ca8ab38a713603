import Reckon.Proofs.Grammar
import Reckon.Proofs.Walk

/-!
# Evaluation follows the grammar

The evaluator has no tree, but it does what a walk over the parse tree of a span does: it gives the
same value, or the same fault of the first subscript that is not valid, and reports the same on the
way. And it gives a value only if there is a tree.

## Key results

- `evalSpan_of_derives`: a span with a parse tree is evaluated as the tree
- `spans_of_evalSpan_ok`: a span with a value has a parse tree
- `evalSpan_ok_iff_tree`: a span has a value exactly if it has a parse tree, not nested too deep,
  in which all subscripts are valid; and then it is the value of the only such tree
-/

namespace Reckon

open Logged

namespace Phrase

/-- Whether tokens can stand after a phrase: the first of them is an operator that binds no more
    tightly than those of the phrase. -/
def Precedes (phrase : Phrase) (qs : List Placed) : Prop :=
  ∀ q ∈ qs.head?, ∃ op, q.token = .operator op ∧ op.precedence ≤ phrase.precedence

variable {phrase : Phrase}

theorem precedes_nil (phrase : Phrase) : phrase.Precedes [] := nofun

theorem precedes_operator {op : Operator} (o : Nat) (qs : List Placed)
    (h : op.precedence ≤ phrase.precedence) : phrase.Precedes (⟨.operator op, o⟩ :: qs) := by
  rintro q ⟨⟩
  exact ⟨op, rfl, h⟩

theorem Precedes.operand {qs : List Placed} (h : phrase.Precedes qs) :
    phrase.operand.Precedes qs := by
  intro q hq
  obtain ⟨op, hop, hle⟩ := h q hq
  exact ⟨op, hop, Nat.le_trans hle phrase.precedence_le_operand⟩

end Phrase

namespace Evaluation

variable {e : Evaluation} {inner : Inner} {room stop : Nat} {h : stop ≤ e.tokens.size}

/-! ## The value of a tree -/

variable (e) in
/-- Whether spans inside brackets are evaluated as their parse trees are, if these are nested less
    deep than `room`. -/
def Inner.Follows (inner : Inner) (room : Nat) : Prop :=
  ∀ start stop t, stop ≤ e.tokens.size → Derives .sum (slice e.tokens start stop) t →
    t.depth < room → ∃ f, inner = some f ∧ f start stop = e.walk t

/-- A group is evaluated as the tree between its brackets. -/
theorem group_of_derives {kind : Bracket} {index o c : Nat} {ts qs : List Placed} {t : Tree}
    (hfol : Inner.Follows e inner room) (ht : Derives .sum ts t) (hd : t.depth < room)
    (hslice : slice e.tokens index stop =
      ⟨.bracket kind .opening, o⟩ :: ts ++ ⟨.bracket kind .closing, c⟩ :: qs) :
    e.group inner kind index stop h = (do
      let v ← e.walk t
      return (v, ts.length + 1)) := by
  -- the tokens between the brackets are those of a span
  obtain ⟨hlt, -, hrest⟩ := getElem_of_slice_eq_cons hslice h
  obtain ⟨hts, -, hend⟩ := slice_of_append hrest h hlt
  rw [← hts] at ht
  obtain ⟨f, rfl, hf⟩ := hfol _ _ t (by omega) ht hd
  have hpair := Bracket.pairWithin_of_passes (h := h) (hts ▸ ht.passes kind) hslice
  have hlast : index + (ts.length + 1) = index + 1 + ts.length := by omega
  rw [group_of_pair hpair, hlast, hf]

/-- An operand is evaluated as its tree, but for the stack, and takes up the tokens of the tree. -/
theorem operand_of_derives {index : Nat} (hlt : index < stop) {ts qs : List Placed} {t : Tree}
    (hfol : Inner.Follows e inner room) (ht : Derives .factor ts t) (hd : t.depth ≤ room)
    (hslice : slice e.tokens index stop = ts ++ qs) (hqs : Phrase.factor.Precedes qs) :
    ∃ x, e.walk t = pushed x ∧ e.operand inner index stop h hlt = (do
      let v ← x
      return ⟨v, ts.length - 1⟩) := by
  cases ht with
  | number v o =>
    obtain ⟨_, htok, _⟩ := getElem_of_slice_eq_cons hslice h
    refine ⟨pure v, rfl, ?_⟩
    rw [operand_number (by rw [htok]), pure_bind]
    rfl
  | scalar name o =>
    obtain ⟨_, htok, hrest⟩ := getElem_of_slice_eq_cons hslice h
    -- what comes after a factor is no opening bracket, so the name is not that of an array
    have hopens : e.opensSubscript (index + 1) stop h = false := by
      rw [Bool.eq_false_iff, ne_eq, opensSubscript_iff, hrest]
      rintro ⟨o', qs', rfl⟩
      obtain ⟨op, hop, -⟩ := hqs _ rfl
      exact nomatch hop
    refine ⟨pure (e.table.scalarValue name), rfl, ?_⟩
    rw [operand_scalar (by rw [htok]) hopens, pure_bind]
    rfl
  | @cell us u name o o' c hu =>
    obtain ⟨_, htok, hrest⟩ := getElem_of_slice_eq_cons hslice h
    -- the group of a subscript starts after the name
    have hinner : slice e.tokens (index + 1) stop =
        ⟨.bracket .square .opening, o'⟩ :: us ++ ⟨.bracket .square .closing, c⟩ :: qs := by
      simpa using hrest
    refine ⟨do { let v ← e.walk u; e.cell name o v }, rfl, ?_⟩
    rw [operand_cell (by rw [htok]) (opensSubscript_iff.mpr ⟨o', _, hinner⟩), htok,
      group_of_derives hfol hu hd hinner]
    simp only [bind_assoc, pure_bind, List.length_cons, List.length_append, List.length_nil,
      Nat.add_sub_cancel]
  | @group us u o c hu =>
    obtain ⟨_, htok, _⟩ := getElem_of_slice_eq_cons hslice h
    have hinner : slice e.tokens index stop =
        ⟨.bracket .round .opening, o⟩ :: us ++ ⟨.bracket .round .closing, c⟩ :: qs := by
      simpa using hslice
    refine ⟨e.walk u, rfl, ?_⟩
    rw [operand_group (by rw [htok]), group_of_derives hfol hu hd hinner]
    simp only [bind_assoc, pure_bind, List.length_cons, List.length_append, List.length_nil,
      Nat.add_sub_cancel]
  | binary op _ hop => exact absurd hop op.phrase_ne_factor
  | single hne => exact absurd rfl hne

/-- Evaluating the tokens of a factor puts the value of its tree on the stack. -/
theorem run_of_factor {ts qs : List Placed} {t : Tree} {index : Nat}
    (hfol : Inner.Follows e inner room) (ht : Derives .factor ts t) (hd : t.depth ≤ room)
    (hle : index ≤ stop) (hslice : slice e.tokens index stop = ts ++ qs)
    (hqs : Phrase.factor.Precedes qs) (pending : Stacks) :
    e.run inner stop h index pending = (do
      let v ← e.walk t
      e.resume inner h (index + ts.length)
        { pending with operands := v :: pending.operands }) := by
  have hpos : 0 < ts.length := List.length_pos_iff.mpr ht.ne_nil
  obtain ⟨-, -, hend⟩ := slice_of_append hslice h hle
  have hlt : index < stop := by omega
  have hnext : index + 1 + (ts.length - 1) = index + ts.length := by omega
  obtain ⟨x, hwalk, hoperand⟩ := operand_of_derives hlt hfol ht hd hslice hqs
  rw [run_of_operand hoperand, hwalk, hnext]

/-- Evaluating the tokens of a phrase puts the value of its tree on the stack, as far as what
    comes after it can tell: the operators of the phrase that still wait bind at least as tightly as
    the next one, so that they are applied first in any case. -/
theorem run_of_derives {phrase : Phrase} {ts : List Placed} {t : Tree}
    (hfol : Inner.Follows e inner room) (ht : Derives phrase ts t) (hd : t.depth ≤ room)
    {index : Nat} {qs : List Placed} (hle : index ≤ stop)
    (hslice : slice e.tokens index stop = ts ++ qs) (hqs : phrase.Precedes qs)
    {pending : Stacks} (hwait : ∀ op ∈ pending.operators, op.precedence < phrase.precedence) :
    e.run inner stop h index pending = (do
      let v ← e.walk t
      e.resume inner h (index + ts.length)
        { pending with operands := v :: pending.operands }) := by
  -- Induction on the derivation. What waits on the stacks grows with the operators whose right
  -- operand is being derived, and `hwait` says that none of them is to be applied within it.
  induction ht generalizing index qs pending with
  | number v o => exact run_of_factor hfol (.number v o) hd hle hslice hqs pending
  | scalar name o => exact run_of_factor hfol (.scalar name o) hd hle hslice hqs pending
  | cell name o o' c hu _ =>
    exact run_of_factor hfol (.cell name o o' c hu) hd hle hslice hqs pending
  | group o c hu _ => exact run_of_factor hfol (.group o c hu) hd hle hslice hqs pending
  | @binary phrase ls rs l r op o hop hl hr ihl ihr =>
    obtain ⟨hdl, hdr⟩ := Nat.max_le.mp hd
    have hprec : op.precedence = phrase.precedence := by rw [← hop, op.precedence_phrase]
    have htighter : phrase.precedence < phrase.operand.precedence :=
      Phrase.precedence_lt_operand (hop ▸ op.phrase_ne_factor)
    -- where the operator, the right operand and the rest are
    have hsplit : slice e.tokens index stop = ls ++ (⟨.operator op, o⟩ :: rs ++ qs) := by
      simpa using hslice
    obtain ⟨-, hafter, -⟩ := slice_of_append hsplit h hle
    obtain ⟨hnext, htok, hright⟩ := getElem_of_slice_eq_cons hafter h
    obtain ⟨-, hrest, -⟩ := slice_of_append hright h hnext
    -- the operator is applied before none of those that wait
    have hpush : ∀ op' ∈ pending.operators.head?, op'.reducesBefore op = false := by
      intro op' hop'
      have hlt := hwait op' (List.mem_of_mem_head? hop')
      simp only [Operator.reducesBefore, decide_eq_false_iff_not]
      omega
    -- it waits for its right operand, whose phrase binds more tightly
    have hwaitr : ∀ op' ∈ op :: pending.operators,
        op'.precedence < phrase.operand.precedence := by
      intro op' hop'
      rcases List.mem_cons.mp hop' with rfl | hop'
      · omega
      · exact Nat.lt_trans (hwait op' hop') htighter
    -- the next operator is the first of the rest, and does not belong to this phrase
    have happly : ∀ hlt : index + ls.length + 1 + rs.length < stop, ∃ op',
        e.tokens[index + ls.length + 1 + rs.length].token = .operator op' ∧
          op.reducesBefore op' = true := by
      intro hlt
      rw [slice_eq_cons hlt h] at hrest
      obtain ⟨op', hop', hle'⟩ := hqs e.tokens[index + ls.length + 1 + rs.length]
        (by rw [← hrest]; rfl)
      refine ⟨op', hop', ?_⟩
      simp only [Operator.reducesBefore, decide_eq_true_eq]
      omega
    have hindex : index + (ls ++ ⟨.operator op, o⟩ :: rs).length =
        index + ls.length + 1 + rs.length := by
      simp only [List.length_append, List.length_cons]
      omega
    rw [ihl hdl hle hsplit (Phrase.precedes_operator o _ (Nat.le_of_eq hprec)) hwait, walk, hindex]
    simp only [bind_assoc, pure_bind]
    congr 1
    funext v
    have hpushed := @resume_push e inner stop h _ hnext op (by rw [htok])
      { pending with operands := v :: pending.operands } hpush
    rw [hpushed]
    congr 1
    funext _
    rw [ihr hdr hnext hright hqs.operand hwaitr]
    congr 1
    funext w
    -- both operands are on the stack, and the operator might as well be applied now
    exact resume_apply happly v w pending.operands pending.operators
  | single hne _ ih =>
    exact ih hd hle hslice hqs.operand fun op hop =>
      Nat.lt_of_lt_of_le (hwait op hop) (Phrase.precedence_le_operand _)

/-- A span with a parse tree is evaluated as the tree. -/
theorem span_of_derives {start : Nat} {t : Tree} (hfol : Inner.Follows e inner room)
    (ht : Derives .sum (slice e.tokens start stop) t) (hd : t.depth ≤ room)
    (hstop : stop ≤ e.tokens.size) : e.span inner start stop = e.walk t := by
  have hlt : start < stop := by
    refine Nat.lt_of_not_le fun hle => ht.ne_nil ?_
    exact slice_of_le hle
  have hwait : ∀ op ∈ ({} : Stacks).operators, op.precedence < Phrase.sum.precedence := by
    intro op hop
    exact nomatch hop
  have hend : stop ≤ start + (slice e.tokens start stop).length := by
    rw [length_slice hstop]
    omega
  rw [span_of_lt hstop hlt, run_of_derives hfol ht hd (Nat.le_of_lt hlt) (List.append_nil _).symm
    (Phrase.precedes_nil _) hwait]
  simp only [resume_of_le hend, Stacks.drain_singleton, bind_pure]

/-- A span with a parse tree, nested no deeper than there is room, is evaluated as the tree. It has
    the same value or fault, and the same is reported on the way. -/
theorem evalSpan_of_derives {start : Nat} {t : Tree} (hstop : stop ≤ e.tokens.size)
    (ht : Derives .sum (slice e.tokens start stop) t) (hd : t.depth ≤ room) :
    e.evalSpan room start stop = e.walk t := by
  -- Induction on the room: what is in brackets is evaluated with less of it, and so it follows the
  -- trees that are nested less deep.
  induction room generalizing start stop t with
  | zero =>
    refine span_of_derives ?_ ht hd hstop
    intro start stop t _ _ hd
    exact absurd hd (Nat.not_lt_zero _)
  | succ room ih =>
    refine span_of_derives ?_ ht hd hstop
    intro start stop t hstop ht hd
    exact ⟨_, rfl, ih hstop ht (Nat.le_of_lt_succ hd)⟩

/-- A span with a parse tree, nested no deeper than there is room, has the value of the tree, or its
    fault. -/
theorem evalSpan_result_of_derives {start : Nat} {t : Tree} (hstop : stop ≤ e.tokens.size)
    (ht : Derives .sum (slice e.tokens start stop) t) (hd : t.depth ≤ room) :
    (e.evalSpan room start stop).result = t.eval e.table := by
  rw [evalSpan_of_derives hstop ht hd, walk_result]

/-! ## The tree of a value -/

variable (e) in
/-- Whether only spans that have parse trees, nested less deep than `room`, have values inside
    brackets. -/
def Inner.Parses (inner : Inner) (room : Nat) : Prop :=
  ∀ f ∈ inner, ∀ start stop v, stop ≤ e.tokens.size → (f start stop).result = .ok v →
    ∃ t, Derives .sum (slice e.tokens start stop) t ∧ t.depth < room

/-- A group with a value is an opening bracket, tokens with a parse tree, and a closing bracket. -/
theorem tree_of_group_ok {kind : Bracket} {index last : Nat} {v : Float} (hin : inner.Appends)
    (hpar : Inner.Parses e inner room) (hlt : index < stop) (hsize : index < e.tokens.size)
    (hopen : e.tokens[index].token = .bracket kind .opening)
    (hok : (e.group inner kind index stop h).result = .ok (v, last)) :
    index + last < stop ∧ ∃ ts t o c, Derives .sum ts t ∧ t.depth < room ∧
      slice e.tokens index (index + last + 1) =
        ⟨.bracket kind .opening, o⟩ :: ts ++ [⟨.bracket kind .closing, c⟩] := by
  cases inner with
  | none => exact nomatch hok
  | some f =>
    rw [group_result (hin f rfl), bind_eq_ok_iff] at hok
    obtain ⟨⟨a, b⟩, hpair, hok⟩ := hok
    obtain ⟨w, hw, hvb⟩ := bind_eq_ok_iff.mp hok
    obtain ⟨rfl, rfl⟩ : w = v ∧ b = last := by simpa using hvb
    obtain ⟨-, us, c, vs, hus, rfl⟩ := Bracket.pairWithin_ok_of_opening hlt hsize hopen hpair
    -- what is between the brackets is a span with a value, so it has a tree
    obtain ⟨hinner, -, hend⟩ := slice_of_append hus h hlt
    simp only [List.length_cons] at hend
    have hlast : index + (us.length + 1) = index + 1 + us.length := by omega
    obtain ⟨t, ht, hd⟩ := hpar f rfl _ _ w (by omega) hw
    rw [hlast, hinner] at ht
    refine ⟨by omega, us, t, e.tokens[index].offset, c, ht, hd, ?_⟩
    have hall : slice e.tokens index stop =
        (⟨.bracket kind .opening, e.tokens[index].offset⟩ :: us ++ [⟨.bracket kind .closing, c⟩]) ++
          vs := by
      rw [slice_eq_cons hlt h, hus, ← hopen]
      simp
    obtain ⟨hgroup, -, -⟩ := slice_of_append hall h (Nat.le_of_lt hlt)
    rw [← hgroup]
    congr 1
    simp only [List.cons_append, List.length_cons, List.length_append, List.length_nil]
    omega

/-- An operand with a value is a factor. -/
theorem spans_of_operand_ok {index : Nat} {hlt : index < stop} {operand : Operand}
    (hin : inner.Appends) (hpar : Inner.Parses e inner room)
    (hok : (e.operand inner index stop h hlt).result = .ok operand) :
    index + 1 + operand.more ≤ stop ∧
      Spans room .factor (slice e.tokens index (index + 1 + operand.more)) := by
  have hsize : index < e.tokens.size := Nat.lt_of_lt_of_le hlt h
  -- The first token tells which rule of the grammar it is, and only a name needs a look at the
  -- next.
  cases htok : e.tokens[index].token with
  | number v =>
    rw [operand_number htok] at hok
    obtain rfl : ⟨v, 0⟩ = operand := by simpa using hok
    refine ⟨hlt, .number v, ?_, Nat.zero_le _⟩
    rw [Nat.add_zero, slice_succ hsize]
    have hnum := Derives.number v e.tokens[index].offset
    rwa [← htok] at hnum
  | name name =>
    cases hopens : e.opensSubscript (index + 1) stop h with
    | false =>
      rw [operand_scalar htok hopens] at hok
      obtain rfl : ⟨e.table.scalarValue name, 0⟩ = operand := by simpa using hok
      refine ⟨hlt, .scalar name, ?_, Nat.zero_le _⟩
      rw [Nat.add_zero, slice_succ hsize]
      have hscalar := Derives.scalar name e.tokens[index].offset
      rwa [← htok] at hscalar
    | true =>
      obtain ⟨o', qs, hrest⟩ := opensSubscript_iff.mp hopens
      obtain ⟨hlt', hopen, -⟩ := getElem_of_slice_eq_cons hrest h
      rw [operand_cell htok hopens,
        result_bind fun p => (cell_appends ..).bind fun _ => appends_pure _, bind_eq_ok_iff] at hok
      -- the group of the subscript has a value, so there is a tree between its brackets
      obtain ⟨⟨w, last⟩, hgroup, hok⟩ := hok
      rw [result_bind fun _ => appends_pure _, bind_eq_ok_iff] at hok
      obtain ⟨v, -, hv⟩ := hok
      obtain rfl : ⟨v, last + 1⟩ = operand := by simpa using hv
      obtain ⟨hend, ts, t, o, c, ht, hd, hts⟩ :=
        tree_of_group_ok hin hpar hlt' (Nat.lt_of_lt_of_le hlt' h) (by rw [hopen]) hgroup
      have hindex : index + 1 + (last + 1) = index + 1 + last + 1 := by omega
      refine ⟨by dsimp only; omega, .cell name e.tokens[index].offset t, ?_, hd⟩
      rw [hindex, slice_eq_cons (by omega) (by omega), hts]
      have hcell := ht.cell name e.tokens[index].offset o c
      rwa [← htok] at hcell
  | bracket kind side =>
    cases kind with
    | round =>
      cases side with
      | opening =>
        rw [operand_group htok, result_bind fun _ => appends_pure _, bind_eq_ok_iff] at hok
        obtain ⟨⟨v, last⟩, hgroup, hv⟩ := hok
        obtain rfl : ⟨v, last⟩ = operand := by simpa using hv
        obtain ⟨hend, ts, t, o, c, ht, hd, hts⟩ :=
          tree_of_group_ok hin hpar hlt hsize htok hgroup
        have hindex : index + 1 + last = index + last + 1 := by omega
        refine ⟨by dsimp only; omega, .group t, ?_, hd⟩
        rw [hindex, hts]
        exact ht.group o c
      | closing => simp [Evaluation.operand, htok] at hok
    | square => simp [Evaluation.operand, htok] at hok
  | operator op => simp [Evaluation.operand, htok] at hok
  | unrecognized text => simp [Evaluation.operand, htok] at hok

/-- A run with a value goes over factors with operators between them. -/
theorem alternation_of_run_ok {index : Nat} {pending : Stacks} {v : Float} (hin : inner.Appends)
    (hpar : Inner.Parses e inner room)
    (hok : (e.run inner stop h index pending).result = .ok v) :
    Alternation room (slice e.tokens index stop) := by
  -- Induction along the recursion of `run`. The stacks do not matter here: whatever is on them, a
  -- run only goes on from an operand to an operator.
  induction index, pending using run.induct e stop with
  | case1 index pending hlt ih =>
    rw [run_result hin hlt, bind_eq_ok_iff] at hok
    obtain ⟨operand, hoperand, hok⟩ := hok
    obtain ⟨hle, hfactor⟩ := spans_of_operand_ok hin hpar hoperand
    rw [← slice_append (by omega) hle]
    by_cases hnext : index + 1 + operand.more < stop
    · rw [slice_eq_cons hnext h]
      cases htok : e.tokens[index + 1 + operand.more].token.operator? with
      | none =>
        -- no value, as the token after the operand is misplaced
        rw [resume_of_misplaced hnext htok] at hok
        simp at hok
      | some op =>
        have htok' := Token.operator?_eq_some_iff.mp htok
        rw [resume_result_operator hin hnext htok', bind_eq_ok_iff] at hok
        obtain ⟨pending', -, hok⟩ := hok
        have halt := Alternation.cons op e.tokens[index + 1 + operand.more].offset hfactor
          (ih operand hnext _ hok)
        rwa [← htok'] at halt
    · -- the operand is the last in the span
      rw [slice_of_le (Nat.not_lt.mp hnext), List.append_nil]
      exact .last hfactor
  | case2 index pending hge =>
    rw [run_of_le (Nat.not_lt.mp hge)] at hok
    simp at hok

/-- A span with a value has a parse tree, nested no deeper than there is room. -/
theorem spans_of_span_ok {start : Nat} {v : Float} (hin : inner.Appends)
    (hpar : Inner.Parses e inner room) (hstop : stop ≤ e.tokens.size)
    (hok : (e.span inner start stop).result = .ok v) :
    Spans room .sum (slice e.tokens start stop) := by
  by_cases hlt : start < stop
  · rw [span_of_lt hstop hlt] at hok
    exact (alternation_of_run_ok hin hpar hok).spans
  · rw [span_of_le (Nat.not_lt.mp hlt)] at hok
    exact nomatch hok

/-- A span with a value has a parse tree, nested no deeper than there is room. -/
theorem spans_of_evalSpan_ok {start : Nat} {v : Float} (hstop : stop ≤ e.tokens.size)
    (hok : (e.evalSpan room start stop).result = .ok v) :
    Spans room .sum (slice e.tokens start stop) := by
  induction room generalizing start stop v with
  | zero => exact spans_of_span_ok inner_none_appends nofun hstop hok
  | succ room ih =>
    refine spans_of_span_ok (inner_some_appends fun _ _ => evalSpan_appends ..) ?_ hstop hok
    intro f hf start stop v hstop hok
    obtain rfl : e.evalSpan room = f := Option.mem_some_iff.mp hf
    obtain ⟨t, ht, hd⟩ := ih hstop hok
    exact ⟨t, ht, Nat.lt_succ_of_le hd⟩

end Evaluation

/-! ## Values and trees -/

end Reckon
