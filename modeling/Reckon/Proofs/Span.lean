import Reckon.Token

/-!
# Spans of tokens

The evaluator walks over indices of one row of tokens. `slice` is the list view of a span of that
row; the lemmas below take a slice apart at its first token and at an index inside it, so that a
property of a span can be proved by recursion on a list.
-/

namespace Reckon

/-- The tokens from one index to another, as a list. -/
def slice (tokens : Array Placed) (start stop : Nat) : List Placed :=
  (tokens.extract start stop).toList

variable {tokens : Array Placed} {start mid stop : Nat}

/-- The slice of a whole row is the row. -/
@[simp] theorem slice_zero_size (tokens : Array Placed) :
    slice tokens 0 tokens.size = tokens.toList := by
  simp [slice]

/-- The slice up to an index is what comes before it in the row. -/
theorem slice_zero (tokens : Array Placed) (stop : Nat) :
    slice tokens 0 stop = tokens.toList.take stop := by
  simp only [slice, Array.toList_extract, List.extract_eq_take_drop, List.drop_zero, Nat.sub_zero]

/-- The slice from an index to the end is what is left of the row there. -/
theorem slice_size (tokens : Array Placed) (start : Nat) :
    slice tokens start tokens.size = tokens.toList.drop start := by
  simp only [slice, Array.toList_extract, List.extract_eq_take_drop]
  exact List.take_of_length_le (by simp)

/-- A span that ends where it starts, or before, has no tokens. -/
theorem slice_of_le (h : stop ≤ start) : slice tokens start stop = [] := by
  simp [slice, Nat.sub_eq_zero_of_le h]

theorem length_slice (h : stop ≤ tokens.size) :
    (slice tokens start stop).length = stop - start := by
  simp only [slice, Array.length_toList, Array.size_extract]
  omega

/-- A span starts with the token at its first index. -/
theorem slice_eq_cons (h : start < stop) (h' : stop ≤ tokens.size) :
    slice tokens start stop = tokens[start] :: slice tokens (start + 1) stop := by
  simp only [slice, Array.toList_extract, List.extract_eq_take_drop]
  rw [List.drop_eq_getElem_cons (by simp; omega)]
  -- the length of the rest shows that the first token is taken, too
  have hlen : stop - start = (stop - (start + 1)) + 1 := by omega
  rw [hlen, List.take_succ_cons, Array.getElem_toList]

/-- A span of one token. -/
theorem slice_succ (h : start < tokens.size) :
    slice tokens start (start + 1) = [tokens[start]] := by
  rw [slice_eq_cons (Nat.lt_succ_self start) h, slice_of_le (Nat.le_refl _)]

/-- A span is cut in two at an index inside it. -/
theorem slice_append (h : start ≤ mid) (h' : mid ≤ stop) :
    slice tokens start mid ++ slice tokens mid stop = slice tokens start stop := by
  simp only [slice, ← Array.toList_append, Array.extract_append_extract,
    Nat.min_eq_left h, Nat.max_eq_right h']

/-- The parts of a span are the spans before and after the index between them. -/
theorem slice_of_append {ts us : List Placed} (h : slice tokens start stop = ts ++ us)
    (hstop : stop ≤ tokens.size) (hle : start ≤ stop) :
    slice tokens start (start + ts.length) = ts ∧ slice tokens (start + ts.length) stop = us ∧
      start + ts.length + us.length = stop := by
  have hlen := congrArg List.length h
  rw [length_slice hstop, List.length_append] at hlen
  have hcut : slice tokens start (start + ts.length) ++ slice tokens (start + ts.length) stop =
      ts ++ us := h ▸ slice_append (by omega) (by omega)
  -- both ways to cut the span have a first part of this length
  have hfst : (slice tokens start (start + ts.length)).length = ts.length := by
    rw [length_slice (by omega)]
    omega
  obtain ⟨h₁, h₂⟩ := List.append_inj hcut hfst
  exact ⟨h₁, h₂, by omega⟩

/-- A span whose tokens start with a given one has that token at its first index. -/
theorem getElem_of_slice_eq_cons {p : Placed} {ts : List Placed}
    (h : slice tokens start stop = p :: ts) (hstop : stop ≤ tokens.size) :
    ∃ hlt : start < stop, tokens[start] = p ∧ slice tokens (start + 1) stop = ts := by
  by_cases hlt : start < stop
  · rw [slice_eq_cons hlt hstop] at h
    exact ⟨hlt, List.head_eq_of_cons_eq h, List.tail_eq_of_cons_eq h⟩
  · rw [slice_of_le (by omega)] at h
    exact nomatch h

/-! ## Neighbours -/

theorem getElem?_of_token {t : Token} (h : start < tokens.size) (ht : tokens[start].token = t) :
    tokens.toList[start]? = some ⟨t, tokens[start].offset⟩ := by
  rw [Array.getElem?_toList, Array.getElem?_eq_getElem h, ← ht]

theorem mem_of_token {t : Token} (h : start < tokens.size) (ht : tokens[start].token = t) :
    ⟨t, tokens[start].offset⟩ ∈ tokens.toList := by
  rw [← ht]
  exact Array.getElem_mem_toList h

/-- The tokens of a span are next to one another in the row. -/
theorem slice_infix : slice tokens start stop <:+: tokens.toList := by
  simp only [slice, Array.toList_extract, List.extract_eq_take_drop]
  exact (List.take_prefix _ _).isInfix.trans (List.drop_suffix _ _).isInfix

/-- Two tokens at successive indices are next to each other. -/
theorem pair_infix {t u : Token} (h : start + 1 < tokens.size) (ht : tokens[start].token = t)
    (hu : tokens[start + 1].token = u) :
    [⟨t, tokens[start].offset⟩, ⟨u, tokens[start + 1].offset⟩] <:+: tokens.toList := by
  have hpair : slice tokens start (start + 2) = [tokens[start], tokens[start + 1]] := by
    rw [slice_eq_cons (by omega) h, slice_succ h]
  rw [← ht, ← hu]
  exact hpair ▸ slice_infix

/-- The first token is a prefix of the row. -/
theorem singleton_prefix {t : Token} (h : 0 < tokens.size) (ht : tokens[0].token = t) :
    [⟨t, tokens[0].offset⟩] <+: tokens.toList := by
  rw [← slice_zero_size, slice_eq_cons h (Nat.le_refl _), ← ht]
  exact List.prefix_append [_] _

/-- The last token is a suffix of the row. -/
theorem singleton_suffix {t : Token} (h : tokens.size = start + 1)
    (ht : tokens[start].token = t) : [⟨t, tokens[start].offset⟩] <:+ tokens.toList := by
  have hrow : slice tokens 0 start ++ [tokens[start]] = tokens.toList := by
    rw [← slice_succ (by omega), slice_append (Nat.zero_le start) (Nat.le_add_right ..), ← h,
      slice_zero_size]
  rw [← hrow, ← ht]
  exact List.suffix_append _ _

end Reckon
