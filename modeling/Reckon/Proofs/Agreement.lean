import Reckon.Expression
import Reckon.Proofs.Brackets
import Reckon.Proofs.Discovery
import Reckon.Proofs.Evaluation

/-!
# What an evaluation reads of its table

An evaluation reads the values of the names that its text uses, each as the kind as which it is
used, and nothing else of its table. Inside brackets the evaluator looks at the next token only up
to the closing bracket, so it has to be shown that it takes a name for what discovery takes it for,
which looks at the whole row of tokens: a span that is entered ends before a closing bracket or with
the last token, and neither is an opening bracket.

## Key results

- `Formula.Enters.enclosed`: the brackets around a span that is entered
- `Formula.Enters.opensSubscript_iff_array`: in a span that is entered, a name is an array for the
  evaluator exactly if it is one for discovery
- `evaluate_eq_of_agree`: tables that agree on what a text uses give the same value or fault
-/

namespace Reckon

/-- The spans that an evaluation of all tokens enters: all of them, and what is between a bracket
    and its partner within a span that is entered. -/
inductive Formula.Enters (f : Formula) : Nat → Nat → Prop where
  | all : f.Enters 0 f.tokens.size
  | inside {start stop index last : Nat} {kind : Bracket} (h : stop ≤ f.tokens.size)
      (hlt : index < stop) : f.Enters start stop → start ≤ index →
      f.tokens[index].token = .bracket kind .opening →
      kind.pairWithin f.tokens index stop h = .ok (0, last) → f.Enters (index + 1) (index + last)

namespace Formula.Enters

variable {f : Formula} {start stop : Nat}

/-- A span that is entered is all tokens, or it has a pair of brackets of one kind around it. -/
theorem enclosed (h : f.Enters start stop) :
    start = 0 ∧ stop = f.tokens.size ∨ ∃ index kind, start = index + 1 ∧
      ∃ (_ : index < f.tokens.size) (_ : stop < f.tokens.size),
        f.tokens[index].token = .bracket kind .opening ∧
        f.tokens[stop].token = .bracket kind .closing := by
  cases h with
  | all => exact Or.inl ⟨rfl, rfl⟩
  | @inside _ stop index last kind hstop hlt _ _ hopen hpair =>
    have hsize := Nat.lt_of_lt_of_le hlt hstop
    obtain ⟨-, us, c, vs, hus, rfl⟩ := Bracket.pairWithin_ok_of_opening hlt hsize hopen hpair
    obtain ⟨-, hclose, hend⟩ := slice_of_append hus hstop hlt
    have hlast : index + (us.length + 1) = index + 1 + us.length := by omega
    obtain ⟨hltc, htok, -⟩ := getElem_of_slice_eq_cons hclose hstop
    refine Or.inr ⟨index, kind, rfl, hsize, by omega, hopen, ?_⟩
    simp only [hlast, htok]

/-- A span that is entered ends before a closing bracket or with the last token. -/
theorem closed (h : f.Enters start stop) :
    stop ≤ f.tokens.size ∧ ∀ hlt : stop < f.tokens.size, ∃ kind,
      f.tokens[stop].token = .bracket kind .closing := by
  rcases h.enclosed with ⟨-, rfl⟩ | ⟨index, kind, -, -, hstop, -, hclose⟩
  · exact ⟨Nat.le_refl _, fun hlt => absurd hlt (Nat.lt_irrefl _)⟩
  · exact ⟨Nat.le_of_lt hstop, fun _ => ⟨kind, hclose⟩⟩

/-- In a span that is entered, a subscript opens after a name exactly if discovery takes the name
    for that of an array. -/
theorem opensSubscript_iff_array {e : Evaluation} (h : e.Enters start stop)
    (hstop : stop ≤ e.tokens.size) {index : Nat} (hle : index ≤ stop) :
    e.opensSubscript index stop hstop = true ↔
      Table.kindBefore (slice e.tokens index e.tokens.size) = .array := by
  rw [Evaluation.opensSubscript_iff, Table.kindBefore_eq_array_iff]
  rcases Nat.lt_or_eq_of_le hle with hlt | rfl
  · -- the next token is in the span
    rw [slice_eq_cons hlt hstop, slice_eq_cons (Nat.lt_of_lt_of_le hlt hstop) (Nat.le_refl _)]
    simp
  · -- the next token ends the span
    rw [slice_of_le (Nat.le_refl _)]
    constructor
    · exact nofun
    · rintro ⟨o, qs, hcons⟩
      obtain ⟨hlt, htok, -⟩ := getElem_of_slice_eq_cons hcons (Nat.le_refl _)
      -- it cannot open a subscript, as a span that is entered ends before a closing bracket
      obtain ⟨kind, hclose⟩ := h.closed.2 hlt
      rw [htok] at hclose
      exact nomatch hclose

end Formula.Enters

/-! ## Tables that agree -/

/-- Whether two tables agree on the names that tokens use, each as the kind as which it is used. An
    array that is absent and one that was never loaded have the same cells. -/
structure Table.AgreeOn (t u : Table) (ps : List Placed) : Prop where
  scalars (name : String) : (name, .scalar) ∈ uses ps → t.scalarValue name = u.scalarValue name
  arrays (name : String) : (name, .array) ∈ uses ps → t.cells name = u.cells name

/-- A name in a row of tokens is used as the kind that the tokens after it give to it. -/
theorem Table.mem_uses_of_name {tokens : Array Placed} {index : Nat} {name : String}
    (hlt : index < tokens.size) (htok : tokens[index].token = .name name) :
    (name, kindBefore (slice tokens (index + 1) tokens.size)) ∈ uses tokens.toList := by
  have hsplit : slice tokens 0 index ++ slice tokens index tokens.size =
      slice tokens 0 tokens.size := slice_append (Nat.zero_le index) (Nat.le_of_lt hlt)
  rw [slice_zero_size, slice_eq_cons hlt (Nat.le_refl _)] at hsplit
  have hmem := mem_uses_append (slice tokens 0 index) name tokens[index].offset
    (slice tokens (index + 1) tokens.size)
  rw [← htok] at hmem
  rwa [← hsplit]

namespace Evaluation

/-- Whether two ways to evaluate what is inside brackets agree on what a search finds to be inside
    the brackets of a span. -/
def Inner.AgreeIn (e : Evaluation) (start stop : Nat) (inner inner' : Inner) : Prop :=
  match inner, inner' with
  | none, none => True
  | some f, some g => ∀ (kind : Bracket) (index last : Nat) (h : stop ≤ e.tokens.size)
      (hlt : index < stop), start ≤ index → e.tokens[index].token = .bracket kind .opening →
      kind.pairWithin e.tokens index stop h = .ok (0, last) →
      f (index + 1) (index + last) = g (index + 1) (index + last)
  | _, _ => False

variable {e : Evaluation} {u : Table} {inner inner' : Inner} {start stop : Nat}
  {h : stop ≤ e.tokens.size}

variable (e) in
/-- Whether two ways to evaluate what is inside brackets agree on all spans that are entered. -/
def Inner.Agree (inner inner' : Inner) : Prop :=
  match inner, inner' with
  | none, none => True
  | some f, some g => ∀ a b, e.Enters a b → f a b = g a b
  | _, _ => False

/-- What is inside the brackets of a span that is entered is entered, too. -/
theorem Inner.Agree.agreeIn (hinner : Inner.Agree e inner inner') (hent : e.Enters start stop) :
    Inner.AgreeIn e start stop inner inner' := by
  cases inner with
  | none =>
    cases inner' with
    | none => trivial
    | some g => exact hinner.elim
  | some f =>
    cases inner' with
    | none => exact hinner.elim
    | some g =>
      intro kind index last h hlt hle hopen hpair
      exact hinner _ _ (.inside h hlt hent hle hopen hpair)

theorem group_congr {kind : Bracket} {index : Nat}
    (hinner : Inner.AgreeIn e start stop inner inner') (hle : start ≤ index) (hlt : index < stop)
    (hopen : e.tokens[index].token = .bracket kind .opening) :
    e.group inner kind index stop h = { e with table := u }.group inner' kind index stop h := by
  cases inner with
  | none =>
    cases inner' with
    | none => rfl
    | some g => exact hinner.elim
  | some f =>
    cases inner' with
    | none => exact hinner.elim
    | some g =>
      cases hpair : kind.pairWithin e.tokens index stop h with
      | error fault =>
        simp only [group, hpair]
        rfl
      | ok p =>
        -- the search has found the bracket it started from
        obtain ⟨first, last⟩ := p
        obtain ⟨rfl, -⟩ :=
          Bracket.pairWithin_ok_of_opening hlt (Nat.lt_of_lt_of_le hlt h) hopen hpair
        rw [group_of_pair hpair, group_of_pair (e := { e with table := u }) hpair,
          hinner kind index last h hlt hle hopen hpair]

theorem operand_congr {index : Nat} (hagree : e.table.AgreeOn u e.tokens.toList)
    (hinner : Inner.AgreeIn e start stop inner inner') (hent : e.Enters start stop)
    (hle : start ≤ index) (hlt : index < stop) :
    e.operand inner index stop h hlt =
      { e with table := u }.operand inner' index stop h hlt := by
  have hsize : index < e.tokens.size := Nat.lt_of_lt_of_le hlt h
  cases htok : e.tokens[index].token with
  | number v => rw [operand_number htok, operand_number (e := { e with table := u }) htok]
  | name name =>
    -- the name is used as the kind as which it is evaluated, so the tables agree on what is read
    have huse := Table.mem_uses_of_name hsize htok
    have hkind := hent.opensSubscript_iff_array h hlt
    cases hopens : e.opensSubscript (index + 1) stop h with
    | false =>
      have hscalar : Table.kindBefore (slice e.tokens (index + 1) e.tokens.size) = .scalar := by
        cases hk : Table.kindBefore (slice e.tokens (index + 1) e.tokens.size) with
        | scalar => rfl
        | array => exact nomatch (hkind.mpr hk).symm.trans hopens
      rw [operand_scalar htok hopens, operand_scalar (e := { e with table := u }) htok hopens,
        hagree.scalars name (hscalar ▸ huse)]
    | true =>
      obtain ⟨o, qs, hrest⟩ := opensSubscript_iff.mp hopens
      obtain ⟨hlt', hopen, -⟩ := getElem_of_slice_eq_cons hrest h
      have hcells : ∀ v, e.cell name e.tokens[index].offset v =
          { e with table := u }.cell name e.tokens[index].offset v := by
        intro v
        simp only [cell, hagree.arrays name (hkind.mp hopens ▸ huse)]
      rw [operand_cell htok hopens, operand_cell (e := { e with table := u }) htok hopens,
        group_congr (u := u) hinner (by omega) hlt' (by rw [hopen])]
      simp only [hcells]
  | bracket kind side =>
    cases kind with
    | round =>
      cases side with
      | opening =>
        rw [operand_group htok, operand_group (e := { e with table := u }) htok,
          group_congr hinner hle hlt htok]
      | closing => simp only [operand, htok]
    | square => simp only [operand, htok]
  | operator op => simp only [operand, htok]
  | unrecognized text => simp only [operand, htok]

theorem run_congr {index : Nat} {pending : Stacks} (hagree : e.table.AgreeOn u e.tokens.toList)
    (hinner : Inner.AgreeIn e start stop inner inner') (hent : e.Enters start stop)
    (hle : start ≤ index) :
    e.run inner stop h index pending =
      { e with table := u }.run inner' stop h index pending := by
  -- Induction along the recursion of `run`. The stacks are the same for both tables at each step,
  -- as only operands read a table.
  induction index, pending using run.induct e stop with
  | case1 index pending hlt ih =>
    rw [run_eq hlt, run_eq (e := { e with table := u }) hlt,
      operand_congr hagree hinner hent hle hlt]
    congr 1
    funext operand
    congr 1
    funext pending
    by_cases hnext : index + 1 + operand.more < stop
    · cases htok : e.tokens[index + 1 + operand.more].token.operator? with
      | none =>
        rw [resume_of_misplaced hnext htok,
          resume_of_misplaced (e := { e with table := u }) hnext htok]
      | some op =>
        have htok' := Token.operator?_eq_some_iff.mp htok
        rw [resume_operator hnext htok', resume_operator (e := { e with table := u }) hnext htok']
        congr 1
        funext pending
        congr 1
        funext pending
        exact ih operand hnext pending (by omega)
    · rw [resume_of_le (Nat.not_lt.mp hnext),
        resume_of_le (e := { e with table := u }) (Nat.not_lt.mp hnext)]
      rfl
  | case2 index pending hge =>
    rw [run_of_le (Nat.not_lt.mp hge), run_of_le (e := { e with table := u }) (Nat.not_lt.mp hge)]
    rfl

theorem span_congr_of_agreeIn (hagree : e.table.AgreeOn u e.tokens.toList)
    (hinner : Inner.AgreeIn e start stop inner inner') (hent : e.Enters start stop) :
    e.span inner start stop = { e with table := u }.span inner' start stop := by
  obtain ⟨hstop, -⟩ := hent.closed
  by_cases hlt : start < stop
  · rw [span_of_lt hstop hlt, span_of_lt (e := { e with table := u }) hstop hlt]
    exact run_congr hagree hinner hent (Nat.le_refl _)
  · rw [span_of_le (Nat.not_lt.mp hlt), span_of_le (e := { e with table := u }) (Nat.not_lt.mp hlt)]
    rfl

theorem span_congr (hagree : e.table.AgreeOn u e.tokens.toList)
    (hinner : Inner.Agree e inner inner') (hent : e.Enters start stop) :
    e.span inner start stop = { e with table := u }.span inner' start stop :=
  span_congr_of_agreeIn hagree (hinner.agreeIn hent) hent

/-- Tables that agree on what the tokens use give the same computation on every span that is
    entered. -/
theorem evalSpan_congr {room : Nat} (hagree : e.table.AgreeOn u e.tokens.toList)
    (hent : e.Enters start stop) :
    e.evalSpan room start stop = { e with table := u }.evalSpan room start stop := by
  -- Induction on the room: inside brackets there is less of it, and the spans there are entered.
  induction room generalizing start stop with
  | zero => exact span_congr hagree trivial hent
  | succ room ih => exact span_congr hagree (fun _ _ hent => ih hent) hent

end Evaluation

/-! ## What a text uses -/

theorem Table.agreeOn_refl (t : Table) (ps : List Placed) : t.AgreeOn t ps :=
  ⟨fun _ _ => rfl, fun _ _ => rfl⟩

/-- Two tables without any values agree on everything. -/
theorem Table.Unset.agreeOn {t u : Table} (ht : t.Unset) (hu : u.Unset) (ps : List Placed) :
    t.AgreeOn u ps :=
  ⟨fun name _ => (ht name).1.trans (hu name).1.symm,
    fun name _ => (ht name).2.trans (hu name).2.symm⟩

theorem evaluate_congr {text : String} {t u : Table}
    (h : t.AgreeOn u (Token.scan text).toList) : evaluate text t = evaluate text u := by
  exact congrArg Logged.result
    (Evaluation.evalSpan_congr (e := { Formula.ofText text with table := t }) (u := u) h .all)

/-- An evaluation reads of its table only what the text uses: the values of the names that are not
    before an opening square bracket, and the cells of those that are. The evaluator goes into
    spans that are entered and into no others, there it takes a name for an array exactly if
    discovery does, and so a table that has just been discovered gives what the empty table
    gives. -/
theorem evaluate_eq_of_agree (text : String) :
    (∀ t u : Table,
      (∀ name, (name, .scalar) ∈ Table.uses (Token.scan text).toList →
        t.scalarValue name = u.scalarValue name) →
      (∀ name, (name, .array) ∈ Table.uses (Token.scan text).toList →
        t.cells name = u.cells name) →
      evaluate text t = evaluate text u) ∧
    (∀ table start stop, (Formula.ofText text).Enters start stop →
      let e : Evaluation := { Formula.ofText text with table }
      (∀ inner inner', Evaluation.Inner.Agree e inner inner' →
        e.span inner start stop = e.span inner' start stop) ∧
      ∀ index name, index < stop → (e.tokens[index]?).map Placed.token = some (.name name) →
        ∀ hstop : stop ≤ e.tokens.size, (e.opensSubscript (index + 1) stop hstop = true ↔
          Table.kindBefore ((Token.scan text).toList.drop (index + 1)) = .array)) ∧
    ∀ t, Table.ofText text = .ok t → evaluate text {} = evaluate text t := by
  refine ⟨fun t u hs hc => evaluate_congr ⟨hs, hc⟩, ?_, ?_⟩
  · intro table start stop hent e
    -- the table does not matter here, and it agrees with itself
    refine ⟨fun inner inner' hinner => ?_, fun index name hlt _ hstop => ?_⟩
    · exact Evaluation.span_congr (Table.agreeOn_refl _ _) hinner hent
    · rw [← slice_size]
      exact hent.opensSubscript_iff_array hstop hlt
  · intro t ht
    exact evaluate_congr
      (Table.unset_empty.agreeOn (Table.discover_ok_unset Table.unset_empty ht) _)

/-- A table that differs from the empty one only in names that a text does not use as they are in
    the table, the scalar `q` and an array `A` that was never loaded, and the table of the text
    itself. In the text, `A` is taken for an array by the evaluator. -/
theorem evaluate_eq_of_agree_unused :
    let t := (((({} : Table).insertScalar "q").setScalar "q" 5).insertArray "A")
    let e : Evaluation := { Formula.ofText "x+A[x]" with table := t }
    evaluate "x+A[x]" t = evaluate "x+A[x]" {} ∧
      (∀ hstop, e.opensSubscript 3 e.tokens.size hstop = true) ∧
      ∃ u, Table.ofText "x+A[x]" = .ok u ∧ evaluate "x+A[x]" {} = evaluate "x+A[x]" u := by
  intro t e
  have huses : Table.uses (Token.scan "x+A[x]").toList =
      [("x", .scalar), ("A", .array), ("x", .scalar)] := by decide +kernel
  refine ⟨(evaluate_eq_of_agree "x+A[x]").1 t {} (fun name hname => ?_) fun name hname => ?_,
    fun hstop => ?_, ?_⟩
  · obtain rfl : name = "x" := by simpa [huses] using hname
    decide +kernel
  · obtain rfl : name = "A" := by simpa [huses] using hname
    rfl
  · have htoken : (e.tokens[2]?).map Placed.token = some (.name "A") := by
      with_unfolding_all rfl
    exact (((evaluate_eq_of_agree "x+A[x]").2.1 t 0 _ .all).2 2 "A" (by decide +kernel) htoken
      hstop).mpr (by decide +kernel)
  · obtain ⟨u, hu, -⟩ : ∃ u, (Table.ofTokens (Token.scan "x+A[x]")).result = .ok u ∧ u.Unset ∧ _ :=
      Table.ofTokens_result_of_consistent (by rw [huses]; grind)
    exact ⟨u, hu, (evaluate_eq_of_agree "x+A[x]").2.2 u hu⟩

end Reckon
