import Mathlib.Data.Nat.Find
import Reckon.Proofs.Brackets

/-!
# The surplus of opening brackets

A search that is inside a bracket keeps a count, which goes up and down by one. The count is by how
much the opening brackets of the kind outnumber the closing ones since the search has started, so it
never falls below zero, and it comes to zero at the first place up to which both are equally many.
That place holds a closing bracket, and is where the search ends.

## Key results

- `Bracket.searchRow_inside_of_pos`: the count of a search is the surplus of opening brackets
- `Bracket.ClosesAt.searchRow_eq`, `Bracket.FirstAt.exists_closesAt`: the partner of a bracket is at
  the first place up to which the brackets are balanced
- `Bracket.pairWithin_spec`: the pair that is found in a span, and the faults if there is none
-/

namespace Reckon.Bracket

/-- The number of brackets of a kind on a side among some tokens. -/
def count (kind : Bracket) (side : Side) (ps : List Placed) : Nat :=
  ps.countP fun p => p.token.side? kind = some side

/-- By how much the opening brackets of a kind outnumber the closing ones among some tokens. -/
def surplus (kind : Bracket) (ps : List Placed) : Int :=
  (kind.count .opening ps : Int) - kind.count .closing ps

/-- What a token with a bracket on a side, or with none, adds to the surplus. -/
def weight : Option Side → Int
  | some .opening => 1
  | some .closing => -1
  | none => 0

variable {kind : Bracket} {ps : List Placed}

@[simp] theorem surplus_nil (kind : Bracket) : kind.surplus [] = 0 := rfl

theorem surplus_cons (kind : Bracket) (p : Placed) (ps : List Placed) :
    kind.surplus (p :: ps) = weight (p.token.side? kind) + kind.surplus ps := by
  unfold surplus count
  cases hside : p.token.side? kind with
  | none => simp [hside, weight]
  | some side =>
    cases side with
    | opening => simp [hside, weight]; omega
    | closing => simp [hside, weight]; omega

/-- The surplus up to and including a token is what the token adds to the surplus before it. -/
theorem surplus_take_succ {n : Nat} {p : Placed} (h : ps[n]? = some p) :
    kind.surplus (ps.take (n + 1)) = kind.surplus (ps.take n) + weight (p.token.side? kind) := by
  induction ps generalizing n with
  | nil => exact nomatch h
  | cons q ps ih =>
    cases n with
    | zero =>
      obtain rfl := Option.some.inj h
      simp [surplus_cons]
    | succ n =>
      rw [List.take_succ_cons, List.take_succ_cons, surplus_cons, surplus_cons, ih h]
      omega

/-! ## The count of a search -/

/-- As long as the surplus is not used up, a search stays inside its bracket, and its count is the
    one that it has started with and the surplus of what it has gone through. -/
theorem searchRow_inside_of_pos (place first : Nat) {depth : Nat}
    (h : ∀ n ≤ ps.length, 0 < depth + kind.surplus (ps.take n)) :
    ∃ depth' : Nat, kind.searchRow place (.inside first depth) ps = .inside first depth' ∧
      (depth' : Int) = depth + kind.surplus ps := by
  -- Induction on the tokens. Each one changes the count as it does the surplus of those before it.
  induction ps generalizing place depth with
  | nil => exact ⟨depth, rfl, by simp⟩
  | cons p ps ih =>
    have hone := h 1 (by simp)
    have hrest : ∀ n ≤ ps.length,
        0 < depth + weight (p.token.side? kind) + kind.surplus (ps.take n) := by
      intro n hn
      have := h (n + 1) (Nat.succ_le_succ hn)
      rw [List.take_succ_cons, surplus_cons] at this
      omega
    simp only [List.take_succ_cons, List.take_zero, surplus_cons, surplus_nil] at hone
    rw [searchRow, surplus_cons]
    cases hside : p.token.side? kind with
    | none =>
      rw [hside] at hrest
      obtain ⟨depth', hsearch, hdepth⟩ := ih (place + 1) fun n hn => by
        simpa [weight] using hrest n hn
      exact ⟨depth', by rwa [Search.step_none], by simpa [weight] using hdepth⟩
    | some side =>
      rw [hside] at hrest hone
      cases side with
      | opening =>
        have hcast : ((depth + 1 : Nat) : Int) = depth + weight (some .opening) := rfl
        obtain ⟨depth', hsearch, hdepth⟩ := ih (place + 1) (hcast ▸ hrest)
        exact ⟨depth', hsearch, by simp only [weight]; omega⟩
      | closing =>
        -- the bracket that is closed here is not the first one, since the count stays above zero
        simp only [weight] at hone
        have hne : ¬ depth - 1 = 0 := by omega
        have hcast : ((depth - 1 : Nat) : Int) = depth + weight (some .closing) := by
          simp only [weight]
          omega
        obtain ⟨depth', hsearch, hdepth⟩ := ih (place + 1) (hcast ▸ hrest)
        exact ⟨depth', by simpa only [Search.step, if_neg hne] using hsearch, by omega⟩

/-- Only a closing bracket takes away from the surplus. -/
theorem side?_of_surplus_eq_zero {depth n : Nat} {p : Placed} (hp : ps[n]? = some p)
    (hpos : 0 < depth + kind.surplus (ps.take n))
    (hzero : depth + kind.surplus (ps.take (n + 1)) = 0) : p.token.side? kind = some .closing := by
  rw [surplus_take_succ hp] at hzero
  cases hside : p.token.side? kind with
  | none =>
    simp only [hside, weight] at hzero
    omega
  | some side =>
    cases side with
    | opening =>
      simp only [hside, weight] at hzero
      omega
    | closing => rfl

/-- A search ends at the closing bracket that uses up the surplus. -/
theorem searchRow_inside_of_zero {place first depth n : Nat} {p : Placed}
    (hp : ps[n]? = some p) (hpos : ∀ m ≤ n, 0 < depth + kind.surplus (ps.take m))
    (hzero : depth + kind.surplus (ps.take (n + 1)) = 0) :
    kind.searchRow place (.inside first depth) ps = .done (.found first (place + n)) := by
  have hlt : n < ps.length := (List.getElem?_eq_some_iff.mp hp).1
  have hside := side?_of_surplus_eq_zero hp (hpos n (Nat.le_refl n)) hzero
  rw [surplus_take_succ hp] at hzero
  have hbefore : ∀ m ≤ (ps.take n).length, 0 < depth + kind.surplus ((ps.take n).take m) := by
    intro m hm
    rw [List.length_take] at hm
    rw [List.take_take, Nat.min_eq_left (by omega)]
    exact hpos m (by omega)
  obtain ⟨depth', hsearch, hdepth⟩ := searchRow_inside_of_pos place first hbefore
  have hdepth : depth' - 1 = 0 := by
    simp only [hside, weight] at hzero
    omega
  have hcut : ps = ps.take n ++ p :: ps.drop (n + 1) := by
    rw [← (List.getElem?_eq_some_iff.mp hp).2, ← List.drop_eq_getElem_cons, List.take_append_drop]
  rw [hcut, searchRow_append, hsearch, searchRow, hside]
  simp only [Search.step, if_pos hdepth, searchRow_done, List.length_take,
    Nat.min_eq_left (Nat.le_of_lt hlt)]

/-! ## The partner of the first bracket -/

/-- Whether the first bracket of a kind among some tokens is on a side, at an index and at a byte
    offset. -/
structure FirstAt (kind : Bracket) (ps : List Placed) (side : Side) (i offset : Nat) : Prop where
  getElem? : ps[i]? = some ⟨.bracket kind side, offset⟩
  before : ∀ p ∈ ps.take i, p.token.side? kind = none

/-- Whether there are as many opening as closing brackets of a kind among the tokens from one index
    up to and including another. -/
def BalancedUpTo (kind : Bracket) (ps : List Placed) (i k : Nat) : Prop :=
  kind.count .opening (ps.extract i (k + 1)) = kind.count .closing (ps.extract i (k + 1))

instance (kind : Bracket) (ps : List Placed) (i k : Nat) : Decidable (kind.BalancedUpTo ps i k) :=
  inferInstanceAs (Decidable (_ = _))

/-- Whether the brackets of a kind, counted from an index on, are balanced for the first time at
    another, and this other token is a closing bracket of the kind. -/
structure ClosesAt (kind : Bracket) (ps : List Placed) (i j : Nat) : Prop where
  lt : i < j
  closing : ∃ c, ps[j]? = some ⟨.bracket kind .closing, c⟩
  balanced : kind.BalancedUpTo ps i j
  least : ∀ k, i ≤ k → k < j → ¬ kind.BalancedUpTo ps i k

/-- Tokens without brackets of the kind leave a search as it is. -/
theorem searchRow_of_none (h : ∀ p ∈ ps, p.token.side? kind = none) (place : Nat)
    (search : Search) : kind.searchRow place search ps = search := by
  induction ps generalizing place with
  | nil => rfl
  | cons p ps ih =>
    obtain ⟨hp, hps⟩ := List.forall_mem_cons.mp h
    rw [searchRow, hp, Search.step_none, ih hps]

/-- There is a first bracket of a kind, or none at all. -/
theorem none_or_firstAt (kind : Bracket) (ps : List Placed) :
    (∀ p ∈ ps, p.token.side? kind = none) ∨ ∃ side i o, kind.FirstAt ps side i o := by
  induction ps with
  | nil => exact Or.inl (by simp)
  | cons p ps ih =>
    cases hside : p.token.side? kind with
    | some side =>
      have htok := Token.side?_eq_some_iff.mp hside
      exact Or.inr ⟨side, 0, p.offset, by rw [← htok]; rfl, by simp⟩
    | none =>
      cases ih with
      | inl hnone => exact Or.inl (List.forall_mem_cons.mpr ⟨hside, hnone⟩)
      | inr hfirst =>
        obtain ⟨side, i, o, hget, hbefore⟩ := hfirst
        refine Or.inr ⟨side, i + 1, o, hget, ?_⟩
        rw [List.take_succ_cons]
        exact List.forall_mem_cons.mpr ⟨hside, hbefore⟩

section

variable {side : Side} {i j o : Nat}

/-- The tokens, cut at the first bracket of the kind. -/
theorem FirstAt.eq_append (h : kind.FirstAt ps side i o) :
    ps = ps.take i ++ ⟨.bracket kind side, o⟩ :: ps.drop (i + 1) := by
  obtain ⟨hlt, hget⟩ := List.getElem?_eq_some_iff.mp h.getElem?
  rw [← hget, ← List.drop_eq_getElem_cons, List.take_append_drop]

/-- A search takes its first step at the first bracket of the kind. -/
theorem FirstAt.searchRow_eq (h : kind.FirstAt ps side i o) :
    kind.searchRow 0 .seeking ps =
      kind.searchRow (i + 1) (Search.seeking.step i (some side)) (ps.drop (i + 1)) := by
  have hlt : i < ps.length := (List.getElem?_eq_some_iff.mp h.getElem?).1
  rw [congrArg (kind.searchRow 0 .seeking) h.eq_append, searchRow_append,
    searchRow_of_none h.before, searchRow, List.length_take, Nat.min_eq_left (Nat.le_of_lt hlt),
    Nat.zero_add, Token.side?, if_pos rfl]

/-- From an opening bracket on, the brackets are balanced where what comes after it uses it up. -/
theorem FirstAt.balancedUpTo_iff (h : kind.FirstAt ps .opening i o) (n : Nat) :
    kind.BalancedUpTo ps i (i + n) ↔ 1 + kind.surplus ((ps.drop (i + 1)).take n) = 0 := by
  obtain ⟨hlt, hget⟩ := List.getElem?_eq_some_iff.mp h.getElem?
  have hextract : ps.extract i (i + n + 1) =
      ⟨.bracket kind .opening, o⟩ :: (ps.drop (i + 1)).take n := by
    rw [List.extract_eq_take_drop, List.drop_eq_getElem_cons hlt, hget, Nat.add_assoc,
      Nat.add_sub_cancel_left, List.take_succ_cons]
  have hsurplus : kind.surplus (ps.extract i (i + n + 1)) =
      1 + kind.surplus ((ps.drop (i + 1)).take n) := by
    rw [hextract, surplus_cons, Token.side?, if_pos rfl]
    rfl
  rw [← hsurplus, BalancedUpTo, surplus]
  omega

/-- A surplus that is never zero stays above zero, since it falls by one at most. -/
theorem surplus_pos_of_ne_zero {m : Nat} (hm : m ≤ ps.length)
    (h : ∀ n ≤ m, 1 + kind.surplus (ps.take n) ≠ 0) :
    ∀ n ≤ m, 0 < 1 + kind.surplus (ps.take n) := by
  intro n hn
  induction n with
  | zero => simp
  | succ n ih =>
    have hpos := ih (Nat.le_of_succ_le hn)
    have hne := h (n + 1) hn
    have hlt : n < ps.length := by omega
    have hget := List.getElem?_eq_getElem hlt
    have hweight : ∀ side, -1 ≤ weight side := by
      rintro (_ | _ | _) <;> decide
    have := hweight (ps[n].token.side? kind)
    rw [surplus_take_succ hget] at hne ⊢
    omega

/-- The search that starts at the first bracket ends at the one that closes it. -/
theorem ClosesAt.searchRow_eq (h : kind.ClosesAt ps i j) (hfirst : kind.FirstAt ps .opening i o) :
    kind.searchRow 0 .seeking ps = .done (.found i j) := by
  obtain ⟨hlt, ⟨c, hclose⟩, hbalanced, hleast⟩ := h
  obtain ⟨n, rfl⟩ : ∃ n, j = i + (n + 1) := ⟨j - i - 1, by omega⟩
  rw [hfirst.balancedUpTo_iff] at hbalanced
  have hget : (ps.drop (i + 1))[n]? = some ⟨.bracket kind .closing, c⟩ := by
    rw [List.getElem?_drop, ← hclose]
    congr 1
    omega
  have hn : n < (ps.drop (i + 1)).length := (List.getElem?_eq_some_iff.mp hget).1
  have hpos := surplus_pos_of_ne_zero (Nat.le_of_lt hn) fun m hm hzero =>
    hleast (i + m) (by omega) (by omega) ((hfirst.balancedUpTo_iff m).mpr hzero)
  rw [hfirst.searchRow_eq]
  show kind.searchRow (i + 1) (.inside i 1) (ps.drop (i + 1)) = _
  rw [searchRow_inside_of_zero hget hpos hbalanced, Nat.add_assoc, Nat.add_comm 1]

/-- If the brackets are never balanced from the first one on, the search does not leave it. -/
theorem FirstAt.outcome_of_not_balanced (h : kind.FirstAt ps .opening i o)
    (hnever : ∀ k, i ≤ k → k < ps.length → ¬ kind.BalancedUpTo ps i k) :
    (kind.searchRow 0 .seeking ps).outcome = .unclosed i := by
  have hlt : i < ps.length := (List.getElem?_eq_some_iff.mp h.getElem?).1
  have hpos : ∀ n ≤ (ps.drop (i + 1)).length,
      0 < ((1 : Nat) : Int) + kind.surplus ((ps.drop (i + 1)).take n) := by
    refine surplus_pos_of_ne_zero (Nat.le_refl _) fun n hn hzero => ?_
    rw [List.length_drop] at hn
    exact hnever (i + n) (by omega) (by omega) ((h.balancedUpTo_iff n).mpr hzero)
  obtain ⟨depth, hsearch, -⟩ := searchRow_inside_of_pos (i + 1) i hpos
  rw [h.searchRow_eq]
  show (kind.searchRow (i + 1) (.inside i 1) (ps.drop (i + 1))).outcome = _
  rw [hsearch]
  rfl

/-- If the brackets are balanced anywhere from the first one on, something closes it. -/
theorem FirstAt.exists_closesAt (h : kind.FirstAt ps .opening i o) {k : Nat} (hle : i ≤ k)
    (hlt : k < ps.length) (hbalanced : kind.BalancedUpTo ps i k) : ∃ j, kind.ClosesAt ps i j := by
  classical
  have hsome : ∃ n, kind.BalancedUpTo ps i (i + n) := ⟨k - i, by rwa [Nat.add_sub_cancel' hle]⟩
  obtain ⟨n, hn, hleast⟩ : ∃ n, kind.BalancedUpTo ps i (i + n) ∧
      ∀ m < n, ¬ kind.BalancedUpTo ps i (i + m) :=
    ⟨Nat.find hsome, Nat.find_spec hsome, fun m hm => Nat.find_min hsome hm⟩
  have hnk : n ≤ k - i := by
    by_contra hgt
    exact hleast (k - i) (by omega) (by rwa [Nat.add_sub_cancel' hle])
  have hzero := (h.balancedUpTo_iff n).mp hn
  cases n with
  | zero => simp at hzero
  | succ n =>
    -- the brackets get balanced at this token, so it takes away from the surplus
    have hlength : n < (ps.drop (i + 1)).length := by
      rw [List.length_drop]
      omega
    have hget := List.getElem?_eq_getElem hlength
    have hpos : 0 < ((1 : Nat) : Int) + kind.surplus ((ps.drop (i + 1)).take n) :=
      surplus_pos_of_ne_zero (Nat.le_of_lt hlength)
        (fun m hm hzero => hleast m (by omega) ((h.balancedUpTo_iff m).mpr hzero)) n (Nat.le_refl n)
    have hside := side?_of_surplus_eq_zero hget hpos hzero
    refine ⟨i + (n + 1), by omega, ⟨(ps.drop (i + 1))[n].offset, ?_⟩, hn, fun m hm hmlt => ?_⟩
    · rw [← Token.side?_eq_some_iff.mp hside, ← hget, List.getElem?_drop]
      congr 1
      omega
    · have := hleast (m - i) (by omega)
      rwa [Nat.add_sub_cancel' hm] at this

end

/-! ## The search of a span -/

/-- A search of a span finds a pair exactly if the first bracket of the kind is an opening one and
    the brackets get balanced: it finds this bracket, and the closing one at the first index up to
    which the brackets are balanced. Otherwise the fault is a closing bracket that comes first, an
    opening one that comes first if the brackets never get balanced, whatever pairs there are inside
    it, or, without any bracket, an opening one where the span starts. -/
theorem pairWithin_spec (kind : Bracket) (tokens : Array Placed) (start stop : Nat)
    (h : stop ≤ tokens.size) :
    let ps := slice tokens start stop
    let result := kind.pairWithin tokens start stop h
    (∀ i j, result = .ok (i, j) ↔ (∃ o, kind.FirstAt ps .opening i o) ∧ kind.ClosesAt ps i j) ∧
    (∀ i o, kind.FirstAt ps .closing i o → result = .error ⟨o, .unbalanced kind .closing⟩) ∧
    (∀ i o, kind.FirstAt ps .opening i o →
      (∀ k, i ≤ k → k < ps.length → ¬ kind.BalancedUpTo ps i k) →
      result = .error ⟨o, .unbalanced kind .opening⟩) ∧
    ((∀ p ∈ ps, p.token.side? kind = none) →
      result = .error ⟨(ps.head?.map Placed.offset).getD 0, .unbalanced kind .opening⟩) := by
  intro ps result
  have hresult : result = _ := pairWithin_eq kind h
  have hfound : ∀ i j o, kind.FirstAt ps .opening i o → kind.ClosesAt ps i j →
      result = .ok (i, j) := by
    intro i j o hfirst hcloses
    rw [hresult, hcloses.searchRow_eq hfirst]
    rfl
  have hstray : ∀ i o, kind.FirstAt ps .closing i o →
      result = .error ⟨o, .unbalanced kind .closing⟩ := by
    intro i o hfirst
    rw [hresult, hfirst.searchRow_eq]
    simp only [Search.step, searchRow_done, Search.outcome, Pairing.toExcept]
    rw [hfirst.getElem?]
    rfl
  have hunclosed : ∀ i o, kind.FirstAt ps .opening i o →
      (∀ k, i ≤ k → k < ps.length → ¬ kind.BalancedUpTo ps i k) →
      result = .error ⟨o, .unbalanced kind .opening⟩ := by
    intro i o hfirst hnever
    rw [hresult, hfirst.outcome_of_not_balanced hnever]
    simp only [Pairing.toExcept]
    rw [hfirst.getElem?]
    rfl
  have habsent : (∀ p ∈ ps, p.token.side? kind = none) →
      result = .error ⟨(ps.head?.map Placed.offset).getD 0, .unbalanced kind .opening⟩ := by
    intro hnone
    rw [hresult, searchRow_of_none hnone, List.head?_eq_getElem?]
    rfl
  refine ⟨fun i j => ⟨?_, ?_⟩, hstray, hunclosed, habsent⟩
  · -- the four cases are all that there are, and only the first of them finds a pair
    intro hok
    rcases none_or_firstAt kind ps with hnone | ⟨side, i', o, hfirst⟩
    · rw [habsent hnone] at hok
      contradiction
    · cases side with
      | closing =>
        rw [hstray i' o hfirst] at hok
        contradiction
      | opening =>
        by_cases hbalanced : ∃ k, i' ≤ k ∧ k < ps.length ∧ kind.BalancedUpTo ps i' k
        · obtain ⟨k, hle, hlt, hk⟩ := hbalanced
          obtain ⟨j', hcloses⟩ := hfirst.exists_closesAt hle hlt hk
          obtain ⟨rfl, rfl⟩ : i' = i ∧ j' = j := by
            simpa [hfound i' j' o hfirst hcloses] using hok
          exact ⟨⟨o, hfirst⟩, hcloses⟩
        · rw [hunclosed i' o hfirst fun k hle hlt hk => hbalanced ⟨k, hle, hlt, hk⟩] at hok
          contradiction
  · rintro ⟨⟨o, hfirst⟩, hcloses⟩
    exact hfound i j o hfirst hcloses

/-- The tokens of `+((])`: the first bracket is never closed, although the one after it is, and the
    square bracket between them does not count. -/
theorem pairWithin_spec_inner :
    let tokens : Array Placed := #[⟨.operator .add, 0⟩, ⟨.bracket .round .opening, 1⟩,
      ⟨.bracket .round .opening, 2⟩, ⟨.bracket .square .closing, 3⟩, ⟨.bracket .round .closing, 4⟩]
    round.pairWithin tokens 0 5 (by decide) = .error ⟨1, .unbalanced .round .opening⟩ ∧
      round.pairWithin tokens 2 5 (by decide) = .ok (0, 2) := by
  intro tokens
  constructor
  · exact (pairWithin_spec round tokens 0 5 (by decide)).2.2.1 1 1 ⟨rfl, by decide⟩ (by decide)
  · exact ((pairWithin_spec round tokens 2 5 (by decide)).1 0 2).mpr
      ⟨⟨2, rfl, by decide⟩, by decide, ⟨4, rfl⟩, by decide, by decide⟩

end Reckon.Bracket
