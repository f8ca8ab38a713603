import Reckon.Bracket.Pair
import Reckon.Proofs.Span

/-!
# The search for a pair of brackets

The search over a span of tokens is a search over the list of its tokens (`searchRow`). Starting at
an opening bracket, it ends at a closing bracket of the same kind, or not at all; and it passes
over tokens in which the brackets of the kind are balanced, so that it finds the partner that a
grammar gives to the bracket.

## Key results

- `pairWithin_of_passes`: the partner of an opening bracket is the closing one after balanced tokens
- `outcome_of_opening`: a search that starts at an opening bracket stays there, and ends at a
  closing bracket
- `pairWithin_error_of_opening`: or the fault that it meets is at the bracket that it starts from
-/

namespace Reckon.Bracket

/-! ## Searching a list -/

/-- Searches a list of tokens, the first of which is at a given place. -/
def searchRow (kind : Bracket) (place : Nat) (search : Search) : List Placed → Search
  | [] => search
  | p :: ps => kind.searchRow (place + 1) (search.step place (p.token.side? kind)) ps

/-- A search that is over does not go on. -/
@[simp] theorem searchRow_done (kind : Bracket) (place : Nat) (pairing : Pairing)
    (ps : List Placed) : kind.searchRow place (.done pairing) ps = .done pairing := by
  induction ps generalizing place with
  | nil => rfl
  | cons p ps ih => simp only [searchRow, Search.step_done, ih]

theorem searchRow_append (kind : Bracket) (place : Nat) (search : Search) (ps qs : List Placed) :
    kind.searchRow place search (ps ++ qs) =
      kind.searchRow (place + ps.length) (kind.searchRow place search ps) qs := by
  induction ps generalizing place search with
  | nil => rfl
  | cons p ps ih =>
    simp only [List.cons_append, searchRow, List.length_cons, ih]
    rw [Nat.add_assoc, Nat.add_comm 1]

/-- The search over a span is the search over the list of its tokens. -/
theorem searchTokens_eq_searchRow (kind : Bracket) (tokens : Array Placed) (start stop : Nat)
    (h : stop ≤ tokens.size) (place : Nat) (search : Search) :
    kind.searchTokens tokens start stop h place search =
      kind.searchRow place search (slice tokens (start + place) stop) := by
  fun_induction searchTokens kind tokens start stop h place search with
  | case1 place pairing => simp
  | case2 place search hne hlt ih =>
    rw [slice_eq_cons hlt h]
    exact ih
  | case3 place search hne hge =>
    rw [slice_of_le (by omega)]
    rfl

/-- A search over a span is a search over the list of its tokens, and its faults show there. -/
theorem pairWithin_eq (kind : Bracket) {tokens : Array Placed} {start stop : Nat}
    (h : stop ≤ tokens.size) :
    kind.pairWithin tokens start stop h =
      (kind.searchRow 0 .seeking (slice tokens start stop)).outcome.toExcept kind fun place =>
        (((slice tokens start stop)[place]?).map Placed.offset).getD 0 := by
  simp only [pairWithin, searchTokens_eq_searchRow, Nat.add_zero]
  congr 1
  funext place
  split
  · next hlt =>
    -- the token at a place is the first one of the span from there on
    have hsplit : slice tokens start stop =
        slice tokens start (start + place) ++ slice tokens (start + place) stop :=
      (slice_append (Nat.le_add_right ..) (Nat.le_of_lt hlt)).symm
    have hlen : (slice tokens start (start + place)).length = place := by
      rw [length_slice (by omega)]
      omega
    rw [hsplit, List.getElem?_append_right (by omega), hlen, Nat.sub_self, slice_eq_cons hlt h]
    rfl
  · next hge =>
    rw [List.getElem?_eq_none (by rw [length_slice h]; omega)]
    rfl

/-! ## Balanced tokens -/

/-- Searching these tokens from inside an open bracket leaves the count of open brackets alone. -/
def Passes (kind : Bracket) (ps : List Placed) : Prop :=
  ∀ place first depth,
    kind.searchRow place (.inside first (depth + 1)) ps = .inside first (depth + 1)

theorem Passes.append {kind : Bracket} {ps qs : List Placed} (hp : kind.Passes ps)
    (hq : kind.Passes qs) : kind.Passes (ps ++ qs) := by
  intro place first depth
  rw [searchRow_append, hp, hq]

/-- A token that is no bracket of the kind is passed over. -/
theorem passes_singleton {kind : Bracket} {p : Placed} (h : p.token.side? kind = none) :
    kind.Passes [p] := by
  intro place first depth
  simp only [searchRow, h, Search.step_none]

/-- Balanced tokens between two brackets of a kind are balanced with them. -/
theorem Passes.enclose {kind kind' : Bracket} {ps : List Placed} (h : kind.Passes ps)
    (o c : Nat) :
    kind.Passes (⟨.bracket kind' .opening, o⟩ :: ps ++ [⟨.bracket kind' .closing, c⟩]) := by
  intro place first depth
  -- brackets of the same kind are counted around what is between them, others are passed over
  by_cases hk : kind' = kind
  · simp [searchRow, searchRow_append, Token.side?, hk, Search.step,
      h (place + 1) first (depth + 1)]
  · simp [searchRow, searchRow_append, Token.side?, hk, h (place + 1) first depth]

/-! ## The partner of a bracket -/

/-- The partner of an opening bracket is the closing one after balanced tokens. -/
theorem pairWithin_of_passes {kind : Bracket} {tokens : Array Placed} {start stop : Nat}
    {h : stop ≤ tokens.size} {ps qs : List Placed} {o c : Nat} (hp : kind.Passes ps)
    (hslice : slice tokens start stop =
      ⟨.bracket kind .opening, o⟩ :: ps ++ ⟨.bracket kind .closing, c⟩ :: qs) :
    kind.pairWithin tokens start stop h = .ok (0, ps.length + 1) := by
  have hsearch : kind.searchRow 0 .seeking (slice tokens start stop) =
      .done (.found 0 (ps.length + 1)) := by
    -- the first token opens the bracket, and what follows leaves it open
    have hopen : kind.searchRow 1 (.inside 0 1) ps = .inside 0 1 := hp 1 0 0
    rw [hslice, List.cons_append]
    simp only [searchRow, Token.side?, ↓reduceIte, Search.step, searchRow_append, hopen,
      Nat.sub_self, searchRow_done, Nat.zero_add, Nat.add_comm 1]
  simp only [pairWithin, searchTokens_eq_searchRow, Nat.add_zero, hsearch]
  rfl

/-- A search from inside an open bracket ends at a closing bracket of the kind, with the first
    bracket that it has started from. -/
theorem searchRow_inside_found {kind : Bracket} {ps : List Placed} {place first depth a b : Nat}
    (h : kind.searchRow place (.inside first depth) ps = .done (.found a b)) :
    a = first ∧ ∃ us c vs, ps = us ++ ⟨.bracket kind .closing, c⟩ :: vs ∧
      b = place + us.length := by
  -- Induction on the tokens. The depth changes from one to the next, the first bracket does not.
  induction ps generalizing place depth with
  | nil => exact nomatch h
  | cons p ps ih =>
    -- the rest of the search, when `p` has not ended it
    have hrest : ∀ d, kind.searchRow (place + 1) (.inside first d) ps = .done (.found a b) →
        a = first ∧ ∃ us c vs, p :: ps = us ++ ⟨.bracket kind .closing, c⟩ :: vs ∧
          b = place + us.length := by
      intro d hd
      obtain ⟨rfl, us, c, vs, rfl, rfl⟩ := ih hd
      exact ⟨rfl, p :: us, c, vs, rfl, by simp only [List.length_cons]; omega⟩
    rw [searchRow] at h
    cases hside : p.token.side? kind with
    | none =>
      rw [hside, Search.step_none] at h
      exact hrest depth h
    | some side =>
      rw [hside] at h
      cases side with
      | opening => exact hrest (depth + 1) h
      | closing =>
        simp only [Search.step] at h
        split at h
        · -- `p` closes the first bracket
          rw [searchRow_done] at h
          obtain ⟨rfl, rfl⟩ : first = a ∧ place = b := by simpa using h
          have htok := Token.side?_eq_some_iff.mp hside
          refine ⟨rfl, [], p.offset, ps, ?_, rfl⟩
          rw [← htok]
          rfl
        · exact hrest (depth - 1) h

/-- A search from inside an open bracket stays inside it, or finds what closes it. -/
theorem searchRow_inside (kind : Bracket) (place first depth : Nat) (ps : List Placed) :
    (∃ depth', kind.searchRow place (.inside first depth) ps = .inside first depth') ∨
      ∃ last, kind.searchRow place (.inside first depth) ps = .done (.found first last) := by
  induction ps generalizing place depth with
  | nil => exact Or.inl ⟨depth, rfl⟩
  | cons p ps ih =>
    rw [searchRow]
    cases p.token.side? kind with
    | none => exact ih (place + 1) depth
    | some side =>
      cases side with
      | opening => exact ih (place + 1) (depth + 1)
      | closing =>
        simp only [Search.step]
        split
        · exact Or.inr ⟨place, searchRow_done ..⟩
        · exact ih (place + 1) (depth - 1)

section
variable {kind : Bracket} {tokens : Array Placed} {start stop : Nat} {h : stop ≤ tokens.size}

/-- A search that starts at an opening bracket of the kind finds this very bracket and a closing one
    after it, or this very bracket is not closed. -/
theorem outcome_of_opening (hlt : start < stop) (hsize : start < tokens.size)
    (hopen : tokens[start].token = .bracket kind .opening) :
    (∃ us c vs, slice tokens (start + 1) stop = us ++ ⟨.bracket kind .closing, c⟩ :: vs ∧
      (kind.searchTokens tokens start stop h 0 .seeking).outcome = .found 0 (us.length + 1)) ∨
    (kind.searchTokens tokens start stop h 0 .seeking).outcome = .unclosed 0 := by
  -- the first token opens the bracket inside which the others are searched
  have hsearch : kind.searchTokens tokens start stop h 0 .seeking =
      kind.searchRow 1 (.inside 0 1) (slice tokens (start + 1) stop) := by
    simp only [searchTokens_eq_searchRow, Nat.add_zero, slice_eq_cons hlt h, searchRow, hopen,
      Token.side?, ↓reduceIte, Search.step, Nat.zero_add]
  rcases searchRow_inside kind 1 0 1 (slice tokens (start + 1) stop) with
    ⟨depth, hs⟩ | ⟨last, hs⟩
  · exact Or.inr (by rw [hsearch, hs]; rfl)
  · obtain ⟨-, us, c, vs, hus, rfl⟩ := searchRow_inside_found hs
    exact Or.inl ⟨us, c, vs, hus, by rw [hsearch, hs, Nat.add_comm]; rfl⟩

/-- A pair that is found from an opening bracket on is that bracket and a closing one after it. -/
theorem pairWithin_ok_of_opening {a b : Nat} (hlt : start < stop) (hsize : start < tokens.size)
    (hopen : tokens[start].token = .bracket kind .opening)
    (hok : kind.pairWithin tokens start stop h = .ok (a, b)) :
    a = 0 ∧ ∃ us c vs, slice tokens (start + 1) stop =
        us ++ ⟨.bracket kind .closing, c⟩ :: vs ∧ b = us.length + 1 := by
  rcases outcome_of_opening (h := h) hlt hsize hopen with ⟨us, c, vs, hus, houtcome⟩ | houtcome
  · simp only [pairWithin, houtcome, Pairing.toExcept, Except.ok.injEq, Prod.mk.injEq] at hok
    obtain ⟨rfl, rfl⟩ := hok
    exact ⟨rfl, us, c, vs, hus, rfl⟩
  · simp only [pairWithin, houtcome, Pairing.toExcept] at hok
    exact nomatch hok

/-- The closing bracket of a pair that is found is in the span, after the opening one. -/
theorem pairWithin_ok_lt {a b : Nat} (hlt : start < stop) (hsize : start < tokens.size)
    (hopen : tokens[start].token = .bracket kind .opening)
    (hok : kind.pairWithin tokens start stop h = .ok (a, b)) : 0 < b ∧ start + b < stop := by
  obtain ⟨-, us, c, vs, hus, rfl⟩ := pairWithin_ok_of_opening hlt hsize hopen hok
  obtain ⟨-, -, hend⟩ := slice_of_append hus h hlt
  rw [List.length_cons] at hend
  omega

/-- The only fault that a search meets from an opening bracket on is that this bracket has no
    partner. -/
theorem pairWithin_error_of_opening {fault : Fault} (hlt : start < stop)
    (hsize : start < tokens.size) (hopen : tokens[start].token = .bracket kind .opening)
    (herror : kind.pairWithin tokens start stop h = .error fault) :
    fault = ⟨tokens[start].offset, .unbalanced kind .opening⟩ := by
  rcases outcome_of_opening (h := h) hlt hsize hopen with ⟨us, c, vs, hus, houtcome⟩ | houtcome
  · simp only [pairWithin, houtcome, Pairing.toExcept] at herror
    exact nomatch herror
  · simp only [pairWithin, houtcome, Pairing.toExcept, Nat.add_zero, hlt, ↓reduceDIte,
      Except.error.injEq] at herror
    exact herror.symm

end

end Reckon.Bracket
