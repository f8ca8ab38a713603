import Reckon.Proofs.Loop

/-!
# Staying within bounds

Indices of tokens are passed from a span to its operands, to the searches for the partners of their
brackets and to the spans inside these, and are counted from another place in each of them. From
the end of the outermost span on, none of them leaves the tokens, and every span is strictly inside
the one that it is entered from, so that an evaluation ends.

`Evaluation.InBounds` collects what holds for one call. Nothing but what is strictly inside a span
is ever asked for, whatever is put in the place of the calls: `span_congr_inside`.

## Key results

- `Bracket.searchTokens_counts`: the count of open brackets stays above zero while one is open
- `Evaluation.span_congr_inside`: a span asks only for spans strictly inside it
- `Evaluation.evalSpan_inBounds`: all calls stay in bounds and end
-/

namespace Reckon

open Logged Relation

/-! ## The count of open brackets -/

/-- Whether a search that is inside a bracket counts this bracket at least. -/
def Search.Counts : Search → Prop
  | inside _ depth => 0 < depth
  | _ => True

/-- A search counts up from one, and ends when it would count down to zero. -/
theorem Search.Counts.step {search : Search} (h : search.Counts) (place : Nat)
    (side : Option Side) : (search.step place side).Counts := by
  cases side with
  | none => rwa [step_none]
  | some side =>
    cases search with
    | seeking => cases side <;> simp [Search.step, Counts]
    | done pairing => rwa [step_done]
    | inside first depth =>
      cases side with
      | opening => exact Nat.succ_pos depth
      | closing =>
        simp only [Search.step]
        split
        · trivial
        · next hne => exact Nat.pos_of_ne_zero hne

namespace Bracket

variable {kind : Bracket} {tokens : Array Placed} {start stop : Nat} {h : stop ≤ tokens.size}

theorem searchTokens_counts {place : Nat} {search : Search} (hs : search.Counts) :
    (kind.searchTokens tokens start stop h place search).Counts := by
  fun_induction searchTokens kind tokens start stop h place search with
  | case1 place pairing => trivial
  | case2 place search hne hlt ih => exact ih (hs.step ..)
  | case3 place search hne hge => exact hs

/-- A search goes through the states in which it is after each of the tokens. -/
theorem searchTokens_split {mid : Nat} (hle : start ≤ mid) (hle' : mid ≤ stop) :
    kind.searchTokens tokens start stop h 0 .seeking =
      kind.searchTokens tokens start stop h (mid - start)
        (kind.searchTokens tokens start mid (Nat.le_trans hle' h) 0 .seeking) := by
  have hmid : start + (mid - start) = mid := by omega
  simp only [searchTokens_eq_searchRow, Nat.add_zero, hmid]
  rw [← slice_append hle hle', searchRow_append, length_slice (Nat.le_trans hle' h), Nat.zero_add]

end Bracket

namespace Evaluation

variable {e : Evaluation} {c : Call} {inner : Inner} {start stop index : Nat}
  {h : stop ≤ e.tokens.size}

/-! ## What is inside a span -/

/-- Whether two ways to evaluate spans agree strictly inside a span. -/
def AgreeInside (start stop : Nat) (f g : Nat → Nat → Logged Fault Float) : Prop :=
  ∀ a b, start < a → a ≤ b → b < stop → f a b = g a b

section
variable {f g : Nat → Nat → Logged Fault Float}

theorem group_congr_inside {kind : Bracket} (hfg : AgreeInside start stop f g)
    (hle : start ≤ index) (hlt : index < stop)
    (hopen : e.tokens[index].token = .bracket kind .opening) :
    e.group (some f) kind index stop h = e.group (some g) kind index stop h := by
  cases hpair : kind.pairWithin e.tokens index stop h with
  | error fault => simp only [group, hpair]; rfl
  | ok p =>
    obtain ⟨first, last⟩ := p
    obtain ⟨hpos, hlast⟩ :=
      Bracket.pairWithin_ok_lt hlt (Nat.lt_of_lt_of_le hlt h) hopen hpair
    rw [group_of_pair hpair, group_of_pair hpair, hfg _ _ (by omega) (by omega) (by omega)]

theorem operand_congr_inside (hfg : AgreeInside start stop f g) (hle : start ≤ index)
    (hlt : index < stop) :
    e.operand (some f) index stop h hlt = e.operand (some g) index stop h hlt := by
  cases htok : e.tokens[index].token with
  | name name =>
    cases hopens : e.opensSubscript (index + 1) stop h with
    | false => rw [operand_scalar htok hopens, operand_scalar htok hopens]
    | true =>
      obtain ⟨o, qs, hslice⟩ := opensSubscript_iff.mp hopens
      obtain ⟨hb, hopen, -⟩ := getElem_of_slice_eq_cons hslice h
      rw [operand_cell htok hopens, operand_cell htok hopens,
        group_congr_inside hfg (Nat.le_succ_of_le hle) hb (by rw [hopen])]
  | bracket kind side =>
    cases kind with
    | round =>
      cases side with
      | opening =>
        rw [operand_group htok, operand_group htok, group_congr_inside hfg hle hlt htok]
      | closing => simp only [operand, htok]
    | square => simp only [operand, htok]
  | number v => simp only [operand, htok]
  | operator op => simp only [operand, htok]
  | unrecognized text => simp only [operand, htok]

theorem run_congr_inside {pending : Stacks} (hfg : AgreeInside start stop f g)
    (hle : start ≤ index) :
    e.run (some f) stop h index pending = e.run (some g) stop h index pending := by
  induction index, pending using run.induct e stop with
  | case1 index pending hlt ih =>
    have hresume : ∀ operand : Operand, ∀ pending,
        e.resume (some f) h (index + 1 + operand.more) pending =
          e.resume (some g) h (index + 1 + operand.more) pending := by
      intro operand pending
      by_cases hnext : index + 1 + operand.more < stop
      · have hrun := fun pending => ih operand hnext pending (by omega)
        rw [resume, resume]
        simp only [hrun]
      · rw [resume_of_le (Nat.not_lt.mp hnext), resume_of_le (Nat.not_lt.mp hnext)]
    rw [run_eq hlt, run_eq hlt, operand_congr_inside hfg hle hlt]
    simp only [hresume]
  | case2 index pending hge =>
    rw [run_of_le (Nat.not_lt.mp hge), run_of_le (Nat.not_lt.mp hge)]

/-- A span asks only for spans strictly inside it. -/
theorem span_congr_inside (h : stop ≤ e.tokens.size) (hfg : AgreeInside start stop f g) :
    e.span (some f) start stop = e.span (some g) start stop := by
  by_cases hlt : start < stop
  · rw [span_of_lt h hlt, span_of_lt h hlt, run_congr_inside hfg (Nat.le_refl _)]
  · rw [span_of_le (Nat.not_lt.mp hlt), span_of_le (Nat.not_lt.mp hlt)]

end

/-! ## Calls in bounds -/

/-- What holds for a call: its indices and those of the calls that it makes are in bounds, its
    searches start at the bracket that they are for, and it ends. -/
structure InBounds (e : Evaluation) (c : Call) : Prop where
  stop_le : c.stop ≤ e.tokens.size
  /-- The loop over the span takes only so many steps, -/
  steps : WellFounded fun s' s => e.Step c s s'
  /-- and ends with the result of the call. -/
  ends : c.start < c.stop → ∃ s, e.Loop c s ∧ e.Ends c s (e.resultOf c)
  index_mem (s : State) : e.Loop c s → c.start ≤ s.index ∧ s.index ≤ c.stop
  /-- The next index after an operand is behind it, and not behind the span. -/
  operand (index : Nat) (operand : Operand) (hlt : index < c.stop) :
    (e.operand (e.innerOf c.room) index c.stop stop_le hlt).result = .ok operand →
    index < index + 1 + operand.more ∧ index + 1 + operand.more ≤ c.stop
  /-- The calls that the loop makes are for spans strictly inside this one. -/
  calls (c' : Call) : e.Calls c c' →
    c.start < c'.start ∧ c'.start ≤ c'.stop ∧ c'.stop < c.stop ∧ c.room = c'.room + 1
  /-- No others are asked for, whatever is put in the place of the calls. -/
  inside (f g : Nat → Nat → Logged Fault Float) : AgreeInside c.start c.stop f g →
    e.span (some f) c.start c.stop = e.span (some g) c.start c.stop
  /-- A search is for the partner of an opening bracket of the span. It finds the partner of this
      bracket in the span, or that this bracket is not closed. -/
  search (s : State) (kind : Bracket) (bracket : Nat) : e.Loop c s → s.phase = .operand →
    s.index < c.stop → e.Opens c.stop s.index kind bracket →
    s.index ≤ bracket ∧ bracket < c.stop ∧ ∃ hsize : bracket < e.tokens.size,
      e.tokens[bracket].token = .bracket kind .opening ∧
      ((∃ last, bracket + last < c.stop ∧
        (kind.searchTokens e.tokens bracket c.stop stop_le 0 .seeking).outcome = .found 0 last ∧
        kind.pairWithin e.tokens bracket c.stop stop_le = .ok (0, last)) ∨
      (kind.searchTokens e.tokens bracket c.stop stop_le 0 .seeking).outcome = .unclosed 0 ∧
        kind.pairWithin e.tokens bracket c.stop stop_le =
          .error ⟨e.tokens[bracket].offset, .unbalanced kind .opening⟩)

/-- A search from an opening bracket finds its partner within the span, or that it is not closed. -/
theorem search_of_opening {kind : Bracket} {bracket : Nat} (h : stop ≤ e.tokens.size)
    (hlt : bracket < stop) (hsize : bracket < e.tokens.size)
    (hopen : e.tokens[bracket].token = .bracket kind .opening) :
    (∃ last, bracket + last < stop ∧
      (kind.searchTokens e.tokens bracket stop h 0 .seeking).outcome = .found 0 last ∧
      kind.pairWithin e.tokens bracket stop h = .ok (0, last)) ∨
    (kind.searchTokens e.tokens bracket stop h 0 .seeking).outcome = .unclosed 0 ∧
      kind.pairWithin e.tokens bracket stop h =
        .error ⟨e.tokens[bracket].offset, .unbalanced kind .opening⟩ := by
  rcases Bracket.outcome_of_opening (h := h) hlt hsize hopen with
    ⟨us, o, vs, -, houtcome⟩ | houtcome
  · have hpair : kind.pairWithin e.tokens bracket stop h = .ok (0, us.length + 1) := by
      simp only [Bracket.pairWithin, houtcome, Pairing.toExcept]
    exact Or.inl ⟨_, (Bracket.pairWithin_ok_lt hlt hsize hopen hpair).2, houtcome, hpair⟩
  · have hpair : kind.pairWithin e.tokens bracket stop h =
        .error ⟨e.tokens[bracket].offset, .unbalanced kind .opening⟩ := by
      simp only [Bracket.pairWithin, houtcome, Pairing.toExcept, Nat.add_zero, hlt, ↓reduceDIte]
    exact Or.inr ⟨houtcome, hpair⟩

theorem inBounds_of_le (h : c.stop ≤ e.tokens.size) : e.InBounds c where
  stop_le := h
  steps := step_wellFounded e c
  ends := fun hlt => (result_eq_iff h hlt).mp rfl
  index_mem := fun s hloop => ⟨hloop.shape.start_le, hloop.shape.le_stop⟩
  operand := fun index operand hlt hok => ⟨by omega, (nested_of_operand_ok hok).1⟩
  calls := fun c' hcall => hcall.inside_span
  inside := fun f g hfg => span_congr_inside h hfg
  search := by
    intro s kind bracket _ _ hlt hopens
    obtain ⟨hle, hb, hsize, hopen⟩ := hopens.opening h hlt
    exact ⟨hle, hb, hsize, hopen, search_of_opening h hb hsize hopen⟩

/-- All calls that a span within the tokens leads to stay in bounds, and there are only so many of
    them inside one another. After any of its tokens, the count of a search that is inside a bracket
    is above zero. -/
theorem evalSpan_inBounds (e : Evaluation) (room : Nat) {start stop : Nat}
    (h : stop ≤ e.tokens.size) :
    WellFounded (fun c' c => e.Calls c c') ∧
    (∀ c, ReflTransGen e.Calls ⟨room, start, stop⟩ c → e.InBounds c) ∧
    ∀ (kind : Bracket) (i j mid : Nat) (hj : j ≤ e.tokens.size) (hle : mid ≤ j), i ≤ mid →
      let search := kind.searchTokens e.tokens i mid (Nat.le_trans hle hj) 0 .seeking
      kind.searchTokens e.tokens i j hj 0 .seeking =
        kind.searchTokens e.tokens i j hj (mid - i) search ∧
      ∀ first depth, search = .inside first depth → 0 < depth := by
  constructor
  · exact calls_wellFounded e
  constructor
  · intro c hcalls
    exact inBounds_of_le (Nat.le_trans (stop_le_of_calls hcalls) h)
  · intro kind i j mid hj hle hmid search
    constructor
    · exact Bracket.searchTokens_split hmid hle
    · intro first depth hinside
      have hcounts : search.Counts := Bracket.searchTokens_counts trivial
      rwa [hinside] at hcounts

/-- The group of `(1)` calls for the token inside its brackets, and this call is in bounds. -/
theorem evalSpan_inBounds_group :
    let e : Evaluation :=
      { tokens := #[⟨.bracket .round .opening, 0⟩, ⟨.number 1, 1⟩, ⟨.bracket .round .closing, 2⟩]
        length := 3
        table := {} }
    e.Calls ⟨256, 0, 3⟩ ⟨255, 1, 2⟩ ∧ e.InBounds ⟨255, 1, 2⟩ := by
  intro e
  have hpair : Bracket.round.pairWithin e.tokens 0 3 (Nat.le_refl _) = .ok (0, 2) :=
    Bracket.pairWithin_of_passes (Bracket.passes_singleton (p := ⟨.number 1, 1⟩) rfl) rfl
  have hcall : e.Calls ⟨256, 0, 3⟩ ⟨255, 0 + 1, 0 + 2⟩ :=
    .inside (Nat.le_refl _) (by decide) ⟨by decide, .refl⟩ (.group (by decide) rfl) hpair
  obtain ⟨-, hbounds, -⟩ := evalSpan_inBounds e 256 (Nat.le_refl 3)
  exact ⟨hcall, hbounds _ (.single hcall)⟩

end Evaluation

end Reckon
