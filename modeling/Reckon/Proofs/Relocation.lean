import Mathlib.Data.List.Forall2
import Reckon.Expression
import Reckon.Proofs.Brackets
import Reckon.Proofs.Discovery
import Reckon.Proofs.Evaluation

/-!
# The same tokens at other places

Where the tokens of an expression are in its text matters to nothing but the places of its faults.
Two formulas with the same tokens in the same order are discovered and evaluated alike: they have
the same symbols and the same value, or the same fault, which shows in each of them at the same
token, or at the end of the text in both.

## Key results

- `Formula.Relocates.bind`: sequences have results that differ in places only, if their parts have
- `Formula.SameTokens.eval_relocates`: the same tokens are evaluated alike
- `Formula.SameTokens.ofTokens_relocates`: the same tokens have the same symbols
-/

namespace Reckon

open Logged

namespace Formula

/-- Whether two formulas have the same tokens in the same order. -/
def SameTokens (f g : Formula) : Prop :=
  f.tokens.toList.map Placed.token = g.tokens.toList.map Placed.token

/-- Whether a place in one formula corresponds to a place in another: they are those of tokens with
    the same index, or the ends of the texts. -/
inductive Corresponds (f g : Formula) : Nat → Nat → Prop
  | token {i : Nat} (hf : i < f.tokens.size) (hg : i < g.tokens.size) :
      Corresponds f g f.tokens[i].offset g.tokens[i].offset
  | ending : Corresponds f g f.length g.length

/-- Whether two results are the same, but for the places of their faults, which correspond. -/
inductive Relocates (f g : Formula) {α : Type} : Except Fault α → Except Fault α → Prop
  | ok (a : α) : Relocates f g (.ok a) (.ok a)
  | error {place place' : Nat} (cause : Fault.Cause) : f.Corresponds g place place' →
      Relocates f g (.error ⟨place, cause⟩) (.error ⟨place', cause⟩)

variable {f g : Formula} {α β : Type}

/-- Sequences have results that differ in places only, if their parts have. -/
theorem Relocates.bind {r r' : Except Fault α} {k k' : α → Except Fault β}
    (h : f.Relocates g r r') (hk : ∀ a, f.Relocates g (k a) (k' a)) :
    f.Relocates g (r >>= k) (r' >>= k') := by
  cases h with
  | ok a => exact hk a
  | error cause hplace => exact .error cause hplace

/-! ## Tokens -/

namespace SameTokens

variable (h : f.SameTokens g)
include h

theorem size_eq : f.tokens.size = g.tokens.size := by
  have hlen := congrArg List.length h
  simpa using hlen

theorem token_eq {i : Nat} (hf : i < f.tokens.size) (hg : i < g.tokens.size) :
    f.tokens[i].token = g.tokens[i].token := by
  have hget := congrArg (·[i]?) h
  simpa [hf, hg] using hget

/-- The spans of the formulas have the same tokens. -/
theorem slice_eq (start stop : Nat) :
    (slice f.tokens start stop).map Placed.token =
      (slice g.tokens start stop).map Placed.token := by
  simp only [slice, Array.toList_extract, List.extract_eq_take_drop, List.map_take, List.map_drop]
  rw [h]

end SameTokens

end Formula

/-! ## Searches -/

namespace Bracket

/-- A search does not look at the places of the tokens. -/
theorem searchRow_congr (kind : Bracket) {ps qs : List Placed}
    (h : ps.map Placed.token = qs.map Placed.token) (place : Nat) (search : Search) :
    kind.searchRow place search ps = kind.searchRow place search qs := by
  induction ps generalizing qs place search with
  | nil =>
    obtain rfl := List.map_eq_nil_iff.mp h.symm
    rfl
  | cons p ps ih =>
    cases qs with
    | nil => exact nomatch h
    | cons q qs =>
      obtain ⟨htoken, hrest⟩ := List.cons.inj h
      rw [searchRow, searchRow, htoken, ih hrest]

/-- From an opening bracket on, a search finds the same pair, or this bracket has no partner. -/
theorem pairWithin_relocates {f g : Formula} (h : f.SameTokens g) {kind : Bracket}
    {start stop : Nat} {hf : stop ≤ f.tokens.size} {hg : stop ≤ g.tokens.size}
    (hlt : start < stop) (hsize : start < f.tokens.size)
    (hopen : f.tokens[start].token = .bracket kind .opening) :
    f.Relocates g (kind.pairWithin f.tokens start stop hf)
      (kind.pairWithin g.tokens start stop hg) := by
  have hsearch : kind.searchTokens g.tokens start stop hg 0 .seeking =
      kind.searchTokens f.tokens start stop hf 0 .seeking := by
    rw [searchTokens_eq_searchRow, searchTokens_eq_searchRow]
    exact kind.searchRow_congr (h.slice_eq _ _).symm _ _
  rcases outcome_of_opening (h := hf) hlt hsize hopen with ⟨us, c, vs, -, hfound⟩ | hunclosed
  · simp only [pairWithin, hsearch, hfound, Pairing.toExcept]
    exact .ok _
  · simp only [pairWithin, hsearch, hunclosed, Pairing.toExcept, Nat.add_zero, hlt, ↓reduceDIte]
    exact .error _ (.token hsize (Nat.lt_of_lt_of_le hlt hg))

end Bracket

/-! ## Stacks -/

namespace Stacks

open Formula

variable {f g : Formula} {place place' : Nat}

theorem applyTop_relocates (h : f.Corresponds g place place') (op : Operator) (vs : List Float) :
    f.Relocates g (applyTop op place vs).result (applyTop op place' vs).result := by
  unfold applyTop
  split
  · exact .ok _
  · exact .error _ h

theorem reduceFrom_relocates (h : f.Corresponds g place place') (applies : Operator → Bool)
    (vs : List Float) (ops : List Operator) :
    f.Relocates g (reduceFrom applies place vs ops).result
      (reduceFrom applies place' vs ops).result := by
  induction ops generalizing vs with
  | nil => exact .ok _
  | cons op ops ih =>
    rw [reduceFrom, reduceFrom]
    split
    · rw [result_bind fun _ => reduceFrom_appends .., result_bind fun _ => reduceFrom_appends ..]
      exact (applyTop_relocates h op vs).bind ih
    · exact .ok _

theorem reduce_relocates (h : f.Corresponds g place place') (pending : Stacks)
    (applies : Operator → Bool) :
    f.Relocates g (pending.reduce applies place).result (pending.reduce applies place').result :=
  reduceFrom_relocates h applies _ _

theorem drain_relocates (h : f.Corresponds g place place') (pending : Stacks) :
    f.Relocates g (pending.drain place).result (pending.drain place').result := by
  rw [drain_result, drain_result]
  apply (reduce_relocates h pending _).bind
  intro pending
  cases pending.operands with
  | nil => exact .error _ h
  | cons v vs => exact .ok v

end Stacks

/-! ## Evaluation -/

namespace Evaluation

/-- The evaluation of another formula, with the same values and the same limit. -/
abbrev ofFormula (e : Evaluation) (g : Formula) : Evaluation :=
  { g with table := e.table, limit := e.limit }

/-- Whether spans inside brackets have results that differ in places only. -/
def Inner.Relocates (f g : Formula) : Inner → Inner → Prop :=
  Option.Rel fun k k' => ∀ start stop, f.Relocates g (k start stop).result (k' start stop).result

variable {e : Evaluation} {g : Formula} {inner inner' : Inner} {stop : Nat}
  {h : stop ≤ e.tokens.size} {h' : stop ≤ g.tokens.size}

/-- Something is missing at the same token, or at the end of the text. -/
theorem offsetAt_corresponds (hsame : e.SameTokens g) (index : Nat) :
    e.Corresponds g (e.offsetAt index) ((e.ofFormula g).offsetAt index) := by
  have hsize := hsame.size_eq
  unfold offsetAt
  by_cases hlt : index < e.tokens.size
  · have hlt' : index < g.tokens.size := hsize ▸ hlt
    rw [Array.getElem?_eq_getElem hlt, Array.getElem?_eq_getElem hlt']
    exact .token hlt hlt'
  · have hge : g.tokens.size ≤ index := by omega
    rw [Array.getElem?_eq_none (Nat.not_lt.mp hlt), Array.getElem?_eq_none hge]
    exact .ending

theorem misplaced_relocates {α : Type} {p q : Placed} (htoken : p.token = q.token)
    (hplace : e.Corresponds g p.offset q.offset) :
    e.Relocates g (.error (misplaced p) : Except Fault α) (.error (misplaced q)) := by
  unfold misplaced
  rw [← htoken]
  split <;> exact .error _ hplace

theorem group_relocates (hsame : e.SameTokens g) (hin : inner.Appends) (hin' : inner'.Appends)
    (hinner : Inner.Relocates e.toFormula g inner inner') {kind : Bracket} {index : Nat}
    (hlt : index < stop) (hsize : index < e.tokens.size)
    (hopen : e.tokens[index].token = .bracket kind .opening) :
    e.Relocates g (e.group inner kind index stop h).result
      ((e.ofFormula g).group inner' kind index stop h').result := by
  cases hinner with
  | none => exact .error _ (offsetAt_corresponds hsame index)
  | @some k k' hkk' =>
    rw [group_result (hin k rfl), group_result (hin' k' rfl)]
    apply (Bracket.pairWithin_relocates hsame hlt hsize hopen).bind
    intro pair
    apply (hkk' _ _).bind
    intro v
    exact .ok _

theorem read_relocates {f : Formula} {place place' : Nat} (hplace : f.Corresponds g place place')
    (table : Table) (name : String) (subscript : Float) :
    f.Relocates g (table.read name place subscript) (table.read name place' subscript) := by
  unfold Table.read
  split
  · exact .error _ hplace
  · split
    · exact .error _ hplace
    · exact .ok _

/-- Whether a token opens a subscript does not depend on its place. -/
theorem opensSubscript_eq (hsame : e.SameTokens g) (index : Nat) :
    (e.ofFormula g).opensSubscript index stop h' = e.opensSubscript index stop h := by
  unfold opensSubscript
  split
  · next hlt => rw [hsame.token_eq (by omega) (by omega)]
  · rfl

theorem operand_relocates (hsame : e.SameTokens g) (hin : inner.Appends) (hin' : inner'.Appends)
    (hinner : Inner.Relocates e.toFormula g inner inner') {index : Nat} (hlt : index < stop) :
    e.Relocates g (e.operand inner index stop h hlt).result
      ((e.ofFormula g).operand inner' index stop h' hlt).result := by
  have hsize : index < e.tokens.size := Nat.lt_of_lt_of_le hlt h
  have hsize' : index < g.tokens.size := Nat.lt_of_lt_of_le hlt h'
  have htoken := hsame.token_eq hsize hsize'
  have hplace : e.Corresponds g e.tokens[index].offset g.tokens[index].offset :=
    .token hsize hsize'
  cases htok : e.tokens[index].token with
  | number v =>
    rw [operand_number htok, operand_number (e := e.ofFormula g) (htoken ▸ htok)]
    exact .ok _
  | name name =>
    have heq : (e.ofFormula g).opensSubscript (index + 1) stop h' =
        e.opensSubscript (index + 1) stop h := opensSubscript_eq hsame (index + 1)
    cases hopens : e.opensSubscript (index + 1) stop h with
    | false =>
      rw [operand_scalar htok hopens,
        operand_scalar (e := e.ofFormula g) (htoken ▸ htok) (heq.trans hopens)]
      exact .ok _
    | true =>
      obtain ⟨o, qs, hrest⟩ := opensSubscript_iff.mp hopens
      obtain ⟨hlt', hopen, -⟩ := getElem_of_slice_eq_cons hrest h
      rw [operand_cell htok hopens,
        operand_cell (e := e.ofFormula g) (htoken ▸ htok) (heq.trans hopens),
        result_bind fun _ => (cell_appends ..).bind fun _ => appends_pure _,
        result_bind fun _ => (cell_appends ..).bind fun _ => appends_pure _]
      apply (group_relocates hsame hin hin' hinner hlt' (by omega) (by rw [hopen])).bind
      intro pair
      rw [result_bind fun _ => appends_pure _, result_bind fun _ => appends_pure _, cell_result,
        cell_result]
      apply (read_relocates hplace e.table name pair.1).bind
      intro value
      exact .ok _
  | bracket kind side =>
    by_cases hopen : kind = .round ∧ side = .opening
    · obtain ⟨rfl, rfl⟩ := hopen
      rw [operand_group htok, operand_group (e := e.ofFormula g) (htoken ▸ htok),
        result_bind fun _ => appends_pure _, result_bind fun _ => appends_pure _]
      apply (group_relocates hsame hin hin' hinner hlt hsize htok).bind
      intro pair
      exact .ok _
    · -- no other bracket starts an operand
      have hthrow : ∀ (e' : Evaluation) {inner : Inner} {h : stop ≤ e'.tokens.size},
          e'.tokens[index].token = .bracket kind side →
          e'.operand inner index stop h hlt = throw (misplaced e'.tokens[index]) := by
        intro e' inner h htok
        cases kind with
        | square => simp only [operand, htok]
        | round =>
          cases side with
          | opening => exact absurd ⟨rfl, rfl⟩ hopen
          | closing => simp only [operand, htok]
      rw [hthrow e htok, hthrow (e.ofFormula g) (htoken ▸ htok)]
      exact misplaced_relocates htoken hplace
  | operator op =>
    simp only [operand, htok, htoken ▸ htok]
    exact .error _ hplace
  | unrecognized text =>
    simp only [operand, htok, htoken ▸ htok]
    exact misplaced_relocates htoken hplace

theorem run_relocates (hsame : e.SameTokens g) (hin : inner.Appends) (hin' : inner'.Appends)
    (hinner : Inner.Relocates e.toFormula g inner inner') (index : Nat) (pending : Stacks) :
    e.Relocates g (e.run inner stop h index pending).result
      ((e.ofFormula g).run inner' stop h' index pending).result := by
  -- Induction along the recursion of `run`, which goes from index to index and not by place.
  induction index, pending using run.induct e stop with
  | case1 index pending hlt ih =>
    rw [run_result hin hlt, run_result (e := e.ofFormula g) hin' hlt]
    apply (operand_relocates hsame hin hin' hinner hlt).bind
    intro operand
    by_cases hnext : index + 1 + operand.more < stop
    · have hsize : index + 1 + operand.more < e.tokens.size := by omega
      have hsize' : index + 1 + operand.more < g.tokens.size := by omega
      have htoken := hsame.token_eq hsize hsize'
      have hplace : e.Corresponds g e.tokens[index + 1 + operand.more].offset
          g.tokens[index + 1 + operand.more].offset := .token hsize hsize'
      cases htok : e.tokens[index + 1 + operand.more].token.operator? with
      | none =>
        rw [resume_of_misplaced hnext htok,
          resume_of_misplaced (e := e.ofFormula g) hnext (htoken ▸ htok)]
        exact misplaced_relocates htoken hplace
      | some op =>
        have htok' := Token.operator?_eq_some_iff.mp htok
        rw [resume_result_operator hin hnext htok',
          resume_result_operator (e := e.ofFormula g) hin' hnext (htoken ▸ htok')]
        apply (Stacks.reduce_relocates hplace _ _).bind
        intro pending
        exact ih operand hnext _
    · have hle := Nat.not_lt.mp hnext
      rw [resume_of_le hle, resume_of_le (e := e.ofFormula g) hle]
      exact Stacks.drain_relocates (offsetAt_corresponds hsame stop) _
  | case2 index pending hge =>
    have hle := Nat.not_lt.mp hge
    rw [run_of_le hle, run_of_le (e := e.ofFormula g) hle]
    exact .error _ (offsetAt_corresponds hsame stop)

theorem span_relocates (hsame : e.SameTokens g) (hin : inner.Appends) (hin' : inner'.Appends)
    (hinner : Inner.Relocates e.toFormula g inner inner') (start stop : Nat) :
    e.Relocates g (e.span inner start stop).result
      ((e.ofFormula g).span inner' start stop).result := by
  -- both spans are cut off at the same number of tokens
  have hrun : ∀ m m' (hm : m ≤ e.tokens.size) (hm' : m' ≤ g.tokens.size), m = m' →
      e.Relocates g (e.run inner m hm start {}).result
        ((e.ofFormula g).run inner' m' hm' start {}).result := by
    rintro m _ hm hm' rfl
    exact run_relocates hsame hin hin' hinner start {}
  have hsize := hsame.size_eq
  unfold span
  by_cases hlt : start < min stop e.tokens.size
  · have hlt' : start < min stop g.tokens.size := hsize ▸ hlt
    rw [if_pos hlt, if_pos hlt']
    exact hrun _ _ _ _ (by rw [hsize])
  · have hge : ¬start < min stop g.tokens.size := hsize ▸ hlt
    rw [if_neg hlt, if_neg hge]
    exact .error _ (offsetAt_corresponds hsame start)

/-- The same tokens are evaluated alike. -/
theorem evalSpan_relocates (hsame : e.SameTokens g) (room start stop : Nat) :
    e.Relocates g (e.evalSpan room start stop).result
      ((e.ofFormula g).evalSpan room start stop).result := by
  -- Induction on the room: what is inside brackets is evaluated alike in both formulas, too.
  induction room generalizing start stop with
  | zero => exact span_relocates hsame inner_none_appends inner_none_appends .none start stop
  | succ room ih =>
    exact span_relocates hsame (inner_some_appends (evalSpan_appends room))
      (inner_some_appends (evalSpan_appends room)) (.some ih) start stop

end Evaluation

/-! ## Discovery -/

namespace Table

theorem kindBefore_congr {ps qs : List Placed} (h : ps.map Placed.token = qs.map Placed.token) :
    kindBefore ps = kindBefore qs := by
  cases ps with
  | nil =>
    obtain rfl := List.map_eq_nil_iff.mp h.symm
    rfl
  | cons p ps =>
    cases qs with
    | nil => exact nomatch h
    | cons q qs =>
      -- only the first token matters, and of it not the place
      obtain ⟨token, o⟩ := p
      obtain ⟨token', o'⟩ := q
      obtain rfl : token = token' := (List.cons.inj h).1
      cases token with
      | bracket kind side => cases kind <;> cases side <;> rfl
      | _ => rfl

/-- The same tokens have the same symbols, or the same name is used as two kinds, at the same
    token. -/
theorem discover_relocates {f g : Formula} {ps qs : List Placed}
    (h : List.Forall₂ (fun p q => p.token = q.token ∧ f.Corresponds g p.offset q.offset) ps qs)
    (table : Table) : f.Relocates g (discover table ps).result (discover table qs).result := by
  -- Induction on the tokens of both: the table that is left after each of them is the same.
  induction h generalizing table with
  | nil => exact .ok table
  | @cons p q ps qs hpq hrest ih =>
    obtain ⟨htoken, hplace⟩ := hpq
    obtain ⟨token, o⟩ := p
    obtain ⟨token', o'⟩ := q
    obtain rfl : token = token' := htoken
    have htokens : List.Forall₂ (· = ·) (ps.map Placed.token) (qs.map Placed.token) :=
      List.forall₂_map_left_iff.mpr (List.forall₂_map_right_iff.mpr (hrest.imp fun _ _ h => h.1))
    have hkind := kindBefore_congr (List.forall₂_eq_eq_eq ▸ htokens)
    cases token with
    | name name =>
      rw [discover, discover, ← hkind]
      cases table.kind? name with
      | none =>
        simp only
        rw [result_bind fun _ => discover_appends .., result_bind fun _ => discover_appends ..]
        exact (Formula.Relocates.ok PUnit.unit).bind fun _ => ih _
      | some known =>
        simp only
        split
        · exact ih table
        · exact .error _ hplace
    | _ => exact ih table

end Table

namespace Formula.SameTokens

variable {f g : Formula} (h : f.SameTokens g)
include h

/-- Formulas with the same tokens have the same symbols, or the same name is used as two kinds, at
    the same token. -/
theorem ofTokens_relocates :
    f.Relocates g (Table.ofTokens f.tokens).result (Table.ofTokens g.tokens).result := by
  apply Table.discover_relocates
  rw [List.forall₂_iff_get]
  have hsize := h.size_eq
  refine ⟨by simpa using hsize, fun i hf hg => ?_⟩
  have hf : i < f.tokens.size := by simpa using hf
  have hg : i < g.tokens.size := by simpa using hg
  exact ⟨h.token_eq hf hg, .token hf hg⟩

/-- Formulas with the same tokens have the same value, or the same fault at the same token or at the
    end of the text. -/
theorem eval_relocates (table : Table) :
    f.Relocates g (f.eval table).result (g.eval table).result := by
  let e : Evaluation := { f with table }
  show f.Relocates g (e.evalSpan e.limit 0 f.tokens.size).result
    ((e.ofFormula g).evalSpan e.limit 0 g.tokens.size).result
  rw [h.size_eq]
  exact Evaluation.evalSpan_relocates (e := e) h e.limit 0 g.tokens.size

end Formula.SameTokens

end Reckon
