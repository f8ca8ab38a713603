import Reckon.Proofs.Brackets
import Reckon.Proofs.Evaluation

/-!
# Excerpts of a formula

A span is evaluated in place, among tokens that come before and after it. `Formula.excerpt` cuts it
out: the tokens of the span, as a formula whose text ends where the next token starts. Indices into
a formula and into an excerpt of it differ by the start of the excerpt, and what the evaluator does
at the one is what it does at the other: it never looks at a token outside the span, and of the
token after the span it takes no more than the offset.

## Key results

- `Bracket.pairWithin_congr`: a search depends on the tokens of its span only
- `Evaluation.evalSpan_excerpt`: a span inside an excerpt is evaluated as it is in place
- `evalSpan_eq_eval_excerpt`: a span is evaluated as the excerpt by itself
-/

namespace Reckon

/-- Where it shows that something is missing before an index: at the token there, or at the end of
    the text after the last one. -/
def Formula.endAt (f : Formula) (stop : Nat) : Nat :=
  ((f.tokens[stop]?).map Placed.offset).getD f.length

/-- The tokens of a formula from one index to another, as a formula of its own. -/
def Formula.excerpt (f : Formula) (start stop : Nat) : Formula :=
  ⟨f.tokens.extract start stop, f.endAt stop⟩

/-! ## Searches -/

namespace Bracket

variable {tokens tokens' : Array Placed} {start stop start' stop' : Nat}

/-- A search depends on the tokens of its span only. -/
theorem pairWithin_congr (kind : Bracket) {h : stop ≤ tokens.size} {h' : stop' ≤ tokens'.size}
    (heq : slice tokens start stop = slice tokens' start' stop') :
    kind.pairWithin tokens start stop h = kind.pairWithin tokens' start' stop' h' := by
  rw [pairWithin_eq, pairWithin_eq, heq]

end Bracket

/-! ## Steps in an excerpt -/

namespace Evaluation

/-- The evaluation of an excerpt, with the same values and the same limit. -/
def excerpt (e : Evaluation) (start stop : Nat) : Evaluation :=
  { e.toFormula.excerpt start stop with table := e.table, limit := e.limit }

variable {e : Evaluation} {a b i j : Nat}

theorem size_excerpt (hb : b ≤ e.tokens.size) : (e.excerpt a b).tokens.size = b - a := by
  show (e.tokens.extract a b).size = b - a
  rw [Array.size_extract, Nat.min_eq_left hb]

theorem getElem_excerpt (hi : a + i < e.tokens.size) (hi' : i < (e.excerpt a b).tokens.size) :
    (e.excerpt a b).tokens[i] = e.tokens[a + i] := by
  show (e.tokens.extract a b)[i] = e.tokens[a + i]
  exact Array.getElem_extract hi'

/-- The spans of an excerpt are spans of the formula. -/
theorem slice_excerpt (hj : a + j ≤ b) :
    slice (e.excerpt a b).tokens i j = slice e.tokens (a + i) (a + j) := by
  show ((e.tokens.extract a b).extract i j).toList = (e.tokens.extract (a + i) (a + j)).toList
  rw [Array.extract_extract, Nat.min_eq_left hj]

theorem offsetAt_eq_endAt (e : Evaluation) (index : Nat) : e.offsetAt index = e.endAt index := by
  unfold offsetAt Formula.endAt
  cases e.tokens[index]? <;> rfl

/-- Something is missing at the same offset in an excerpt, also at its end. -/
theorem offsetAt_excerpt (hb : b ≤ e.tokens.size) (hi : a + i ≤ b) :
    (e.excerpt a b).offsetAt i = e.offsetAt (a + i) := by
  have hsize := size_excerpt (a := a) hb
  by_cases hlt : a + i < b
  · have hi : i < (e.excerpt a b).tokens.size := by omega
    have hai : a + i < e.tokens.size := by omega
    rw [offsetAt, offsetAt, Array.getElem?_eq_getElem hi, Array.getElem?_eq_getElem hai,
      getElem_excerpt hai]
  · have hend : a + i = b := by omega
    rw [offsetAt, Array.getElem?_eq_none (by omega), hend, offsetAt_eq_endAt]
    rfl

/-- Whether the spans inside the brackets of an excerpt are evaluated as they are in place. -/
def Inner.Excerpts (a b : Nat) : Inner → Inner → Prop :=
  Option.Rel fun f g => ∀ i j, i ≤ j → a + j ≤ b → f (a + i) (a + j) = g i j

variable {inner inner' : Inner} {h : a + j ≤ e.tokens.size} {h' : j ≤ (e.excerpt a b).tokens.size}

theorem group_excerpt {kind : Bracket} (hb : b ≤ e.tokens.size) (hj : a + j ≤ b)
    (hinner : Inner.Excerpts a b inner inner') (hi : i < j)
    (hopen : ∀ hlt : a + i < e.tokens.size, e.tokens[a + i].token = .bracket kind .opening) :
    e.group inner kind (a + i) (a + j) h = (e.excerpt a b).group inner' kind i j h' := by
  have hpair : kind.pairWithin e.tokens (a + i) (a + j) h =
      kind.pairWithin (e.excerpt a b).tokens i j h' :=
    kind.pairWithin_congr (slice_excerpt hj).symm
  cases hinner with
  | none =>
    simp only [group, offsetAt_excerpt hb (show a + i ≤ b by omega)]
    rfl
  | some hfg =>
    cases hfound : kind.pairWithin e.tokens (a + i) (a + j) h with
    | error fault =>
      simp only [group, ← hpair, hfound]
      rfl
    | ok p =>
      -- the partner comes after the bracket and within the span
      obtain ⟨first, last⟩ := p
      have hsize : a + i < e.tokens.size := by omega
      obtain ⟨hpos, hlast⟩ :=
        Bracket.pairWithin_ok_lt (Nat.add_lt_add_left hi a) hsize (hopen hsize) hfound
      rw [group_of_pair hfound, group_of_pair (hpair ▸ hfound), Nat.add_assoc, Nat.add_assoc,
        hfg (i + 1) (i + last) (by omega) (by omega)]

/-- Whether a token opens a subscript is the same in an excerpt, also at its end. -/
theorem opensSubscript_excerpt (hj : a + j ≤ b) :
    e.opensSubscript (a + i) (a + j) h = (e.excerpt a b).opensSubscript i j h' := by
  rw [Bool.eq_iff_iff, opensSubscript_iff, opensSubscript_iff, slice_excerpt hj]

theorem operand_excerpt (hb : b ≤ e.tokens.size) (hj : a + j ≤ b)
    (hinner : Inner.Excerpts a b inner inner') (hi : i < j) :
    e.operand inner (a + i) (a + j) h (by omega) = (e.excerpt a b).operand inner' i j h' hi := by
  have hsize : i < (e.excerpt a b).tokens.size := by omega
  have htoken : (e.excerpt a b).tokens[i] = e.tokens[a + i] := getElem_excerpt (by omega) hsize
  have hopens : e.opensSubscript (a + i + 1) (a + j) h =
      (e.excerpt a b).opensSubscript (i + 1) j h' := opensSubscript_excerpt (i := i + 1) hj
  cases htok : e.tokens[a + i].token with
  | number v => rw [operand_number htok, operand_number (htoken ▸ htok)]
  | name name =>
    cases hsub : e.opensSubscript (a + i + 1) (a + j) h with
    | false =>
      rw [operand_scalar htok hsub, operand_scalar (htoken ▸ htok) (hopens ▸ hsub)]
      rfl
    | true =>
      obtain ⟨o, qs, hrest⟩ := opensSubscript_iff.mp hsub
      obtain ⟨hlt, hopen, -⟩ := getElem_of_slice_eq_cons hrest h
      have hgroup : e.group inner .square (a + (i + 1)) (a + j) h =
          (e.excerpt a b).group inner' .square (i + 1) j h' := by
        apply group_excerpt hb hj hinner (by omega)
        intro hsize
        exact congrArg Placed.token hopen
      rw [operand_cell htok hsub, operand_cell (htoken ▸ htok) (hopens ▸ hsub), htoken, ← hgroup]
      rfl
  | bracket kind side =>
    cases kind with
    | round =>
      cases side with
      | opening =>
        rw [operand_group htok, operand_group (htoken ▸ htok),
          group_excerpt hb hj hinner hi fun _ => htok]
      | closing => simp only [operand, htoken, htok]
    | square => simp only [operand, htoken, htok]
  | operator op => simp only [operand, htoken, htok]
  | unrecognized text => simp only [operand, htoken, htok]

theorem run_excerpt (hb : b ≤ e.tokens.size) (hj : a + j ≤ b)
    (hinner : Inner.Excerpts a b inner inner') (pending : Stacks) :
    e.run inner (a + j) h (a + i) pending = (e.excerpt a b).run inner' j h' i pending := by
  -- Induction along the recursion of the run in the excerpt. The run in place is as far from the
  -- end of its span at each step.
  induction i, pending using run.induct (e.excerpt a b) j with
  | case1 i pending hlt ih =>
    have hlt' : a + i < a + j := by omega
    have hoperand : e.operand inner (a + i) (a + j) h hlt' =
        (e.excerpt a b).operand inner' i j h' hlt := operand_excerpt hb hj hinner hlt
    rw [run_eq hlt', run_eq hlt, hoperand]
    congr 1
    funext operand
    congr 1
    funext pending
    have hindex : a + i + 1 + operand.more = a + (i + 1 + operand.more) := by omega
    rw [hindex]
    by_cases hnext : i + 1 + operand.more < j
    · have htoken : (e.excerpt a b).tokens[i + 1 + operand.more] =
          e.tokens[a + (i + 1 + operand.more)] := getElem_excerpt (by omega) (by omega)
      have hnext' : a + (i + 1 + operand.more) < a + j := by omega
      cases htok : e.tokens[a + (i + 1 + operand.more)].token.operator? with
      | none =>
        rw [resume_of_misplaced hnext' htok, resume_of_misplaced hnext (htoken ▸ htok), htoken]
      | some op =>
        have htok' := Token.operator?_eq_some_iff.mp htok
        rw [resume_operator hnext' htok', resume_operator hnext (htoken ▸ htok'), htoken]
        congr 1
        funext pending
        congr 1
        funext pending
        exact ih operand hnext pending
    · rw [resume_of_le (by omega), resume_of_le (Nat.not_lt.mp hnext), offsetAt_excerpt hb hj]
  | case2 i pending hge =>
    rw [run_of_le (by omega), run_of_le (Nat.not_lt.mp hge), offsetAt_excerpt hb hj]

theorem span_excerpt (hb : b ≤ e.tokens.size) (hj : a + j ≤ b)
    (hinner : Inner.Excerpts a b inner inner') (hi : i ≤ j) :
    e.span inner (a + i) (a + j) = (e.excerpt a b).span inner' i j := by
  have hsize := size_excerpt (a := a) hb
  by_cases hlt : i < j
  · rw [span_of_lt (show a + j ≤ e.tokens.size by omega) (by omega),
      span_of_lt (show j ≤ (e.excerpt a b).tokens.size by omega) hlt, run_excerpt hb hj hinner]
  · rw [span_of_le (by omega), span_of_le (by omega), offsetAt_excerpt hb (by omega)]

/-- A span inside an excerpt is evaluated as it is in place, with the same result and the same
    log. -/
theorem evalSpan_excerpt (hb : b ≤ e.tokens.size) {room : Nat} (hi : i ≤ j) (hj : a + j ≤ b) :
    e.evalSpan room (a + i) (a + j) = (e.excerpt a b).evalSpan room i j := by
  -- Induction on the room: what is inside brackets is a span inside the excerpt, too.
  induction room generalizing i j with
  | zero => exact span_excerpt hb hj .none hi
  | succ room ih => exact span_excerpt hb hj (.some fun i j hi hj => ih hi hj) hi

end Evaluation

/-! ## The excerpt by itself -/

namespace Formula

variable {f g : Formula} {a b c d : Nat}

/-- A span of a formula is evaluated as the excerpt by itself. -/
theorem evalSpan_excerpt (f : Formula) (table : Table) (hab : a ≤ b) (hb : b ≤ f.tokens.size) :
    f.evalSpan table a b = (f.excerpt a b).eval table := by
  let e : Evaluation := { f with table }
  have hspan : e.evalSpan e.limit (a + 0) (a + (b - a)) =
      (e.excerpt a b).evalSpan e.limit 0 (b - a) :=
    Evaluation.evalSpan_excerpt hb (Nat.zero_le _) (by omega)
  rw [Nat.add_zero, Nat.add_sub_cancel' hab] at hspan
  have hsize : (f.excerpt a b).tokens.size = b - a := Evaluation.size_excerpt (e := e) hb
  show e.evalSpan e.limit a b =
    (e.excerpt a b).evalSpan e.limit 0 (f.excerpt a b).tokens.size
  rw [hspan, hsize]

/-- An excerpt is given by its tokens and the offset of the token after them. -/
theorem excerpt_congr (hslice : slice f.tokens a b = slice g.tokens c d)
    (hend : f.endAt b = g.endAt d) : f.excerpt a b = g.excerpt c d := by
  have htokens : f.tokens.extract a b = g.tokens.extract c d := Array.toList_inj.mp hslice
  rw [excerpt, excerpt, htokens, hend]

end Formula

/-- A span is evaluated in place as the excerpt by itself, with the same value or fault and the same
    log. Nothing else of a formula matters to it than the tokens of the span and the offset of the
    token after them: another formula with these gives the same, wherever it has them. -/
theorem evalSpan_eq_eval_excerpt (f : Formula) (table : Table) {a b : Nat} (hab : a ≤ b)
    (hb : b ≤ f.tokens.size) :
    f.evalSpan table a b = (f.excerpt a b).eval table ∧
      ∀ (g : Formula) (c d : Nat), c ≤ d → d ≤ g.tokens.size →
        slice g.tokens c d = slice f.tokens a b → g.endAt d = f.endAt b →
        g.evalSpan table c d = f.evalSpan table a b := by
  have hplace := f.evalSpan_excerpt table hab hb
  constructor
  · exact hplace
  · intro g c d hcd hd hslice hend
    rw [hplace, g.evalSpan_excerpt table hcd hd, Formula.excerpt_congr hslice hend]

/-- In `(x+A[1])`, the span of `x+A` ends before a bracket that would open a subscript. It is
    evaluated as `x+A` by itself. -/
theorem evalSpan_eq_eval_excerpt_bracket :
    let ps : Array Placed := #[⟨.name "x", 1⟩, ⟨.operator .add, 2⟩, ⟨.name "A", 3⟩]
    let f : Formula := ⟨#[⟨.bracket .round .opening, 0⟩] ++ ps ++
      #[⟨.bracket .square .opening, 4⟩, ⟨.number 1, 5⟩, ⟨.bracket .square .closing, 6⟩,
        ⟨.bracket .round .closing, 7⟩], 8⟩
    let g : Formula := ⟨ps, 4⟩
    f.evalSpan {} 1 4 = (f.excerpt 1 4).eval {} ∧ g.evalSpan {} 0 3 = f.evalSpan {} 1 4 := by
  intro ps f g
  have hspan := evalSpan_eq_eval_excerpt f {} (a := 1) (b := 4) (by decide) (by decide)
  exact ⟨hspan.1, hspan.2 g 0 3 (by decide) (by decide) rfl rfl⟩

end Reckon
