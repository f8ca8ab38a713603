import Reckon.Proofs.Agreement
import Reckon.Proofs.Parsing

/-!
# Properly nested brackets

Round and square brackets together are properly nested if they make a Dyck word of two kinds of
brackets. A search for the partner of a bracket counts brackets of one kind only; where the brackets
are properly nested, it finds the partner in the sense of both kinds, because those between the two
are balanced for each kind by itself.

`Dyck.unwind` reads a word with a stack of the brackets that are open. It decides whether a word is
a Dyck word, and takes a word apart at any of its letters.

## Key results

- `Dyck.dyck_iff_unwind`: the stack is empty after a word exactly if it is a Dyck word
- `pairWithin_of_nested`: in a properly nested span, a search finds the Dyck partner of a bracket
- `Formula.Enters.nested`: if all brackets are properly nested, so are those of each span that an
  evaluation enters
-/

namespace Reckon

/-! ## Dyck words -/

/-- The Dyck words over two kinds of brackets. -/
inductive Dyck : List (Bracket × Side) → Prop
  | nil : Dyck []
  | pair {u v : List (Bracket × Side)} (kind : Bracket) : Dyck u → Dyck v →
      Dyck ((kind, .opening) :: u ++ (kind, .closing) :: v)

namespace Dyck

/-- The brackets that are open after a word, given those that are open before it, the last ones
    first. There are none if the word closes a bracket that is not the last one that is open. -/
def unwind : List Bracket → List (Bracket × Side) → Option (List Bracket)
  | opened, [] => some opened
  | opened, (kind, .opening) :: w => unwind (kind :: opened) w
  | kind' :: opened, (kind, .closing) :: w => if kind = kind' then unwind opened w else none
  | [], (_, .closing) :: _ => none

theorem unwind_append (opened : List Bracket) (u v : List (Bracket × Side)) :
    unwind opened (u ++ v) = (unwind opened u).bind (unwind · v) := by
  fun_induction unwind opened u with
  | case1 opened => rfl
  | case2 opened kind w ih => exact ih
  | case3 kind opened w ih => simpa [unwind] using ih
  | case4 kind' opened kind w hne => simp [unwind, hne]
  | case5 kind w => rfl

/-- A Dyck word closes all brackets that it opens, and no others. -/
theorem unwind_eq {w : List (Bracket × Side)} (h : Dyck w) (opened : List Bracket) :
    unwind opened w = some opened := by
  induction h generalizing opened with
  | nil => cases opened <;> rfl
  | @pair u v kind _ _ ihu ihv =>
    rw [List.cons_append, unwind, unwind_append, ihu, Option.bind_some, unwind, if_pos rfl, ihv]

/-- A bracket that does not stay open is closed after a Dyck word. -/
theorem exists_partner {kind : Bracket} {v : List (Bracket × Side)} {opened left : List Bracket}
    (h : unwind (kind :: opened) v = some left) (hlen : left.length ≤ opened.length) :
    ∃ u w, v = u ++ (kind, .closing) :: w ∧ Dyck u ∧ unwind opened w = some left := by
  -- Induction on the length of the word: a bracket that is opened in it is closed in it, and what
  -- comes after that is shorter.
  induction hn : v.length using Nat.strongRecOn generalizing kind v opened left with
  | ind n ih =>
    cases v with
    | nil =>
      obtain rfl := Option.some.inj h
      exact absurd hlen (Nat.not_succ_le_self _)
    | cons b v =>
      obtain ⟨kind', side⟩ := b
      cases side with
      | opening =>
        have hopen : unwind (kind' :: kind :: opened) v = some left := h
        obtain ⟨u₁, w₁, rfl, hu₁, hw₁⟩ :=
          ih v.length (by simp [← hn]) hopen (Nat.le_succ_of_le hlen) rfl
        obtain ⟨u₂, w₂, rfl, hu₂, hw₂⟩ := ih w₁.length (by simp [← hn]; omega) hw₁ hlen rfl
        exact ⟨(kind', .opening) :: u₁ ++ (kind', .closing) :: u₂, w₂, by simp, hu₁.pair kind' hu₂,
          hw₂⟩
      | closing =>
        rw [unwind] at h
        split at h
        · next heq => exact ⟨[], v, by rw [heq]; rfl, .nil, h⟩
        · exact nomatch h

/-- A word is a Dyck word exactly if no bracket is open before or after it. -/
theorem dyck_iff_unwind {w : List (Bracket × Side)} : Dyck w ↔ unwind [] w = some [] := by
  refine ⟨fun h => h.unwind_eq [], fun h => ?_⟩
  induction hn : w.length using Nat.strongRecOn generalizing w with
  | ind n ih =>
    cases w with
    | nil => exact .nil
    | cons b w =>
      obtain ⟨kind, side⟩ := b
      cases side with
      | opening =>
        obtain ⟨u, v, rfl, hu, hv⟩ := exists_partner h (Nat.le_refl _)
        exact hu.pair kind (ih v.length (by simp [← hn]; omega) hv rfl)
      | closing => exact nomatch h

instance (w : List (Bracket × Side)) : Decidable (Dyck w) :=
  decidable_of_iff _ dyck_iff_unwind.symm

theorem append {u v : List (Bracket × Side)} (hu : Dyck u) (hv : Dyck v) : Dyck (u ++ v) := by
  rw [dyck_iff_unwind, unwind_append, hu.unwind_eq, Option.bind_some, hv.unwind_eq]

/-- After a Dyck word, no bracket is open that could be closed. -/
theorem not_dyck_append_closing {u v : List (Bracket × Side)} (hu : Dyck u) (kind : Bracket) :
    ¬ Dyck (u ++ (kind, .closing) :: v) := by
  rw [dyck_iff_unwind, unwind_append, hu.unwind_eq]
  exact nofun

/-- A bracket that is opened in a Dyck word is closed after a Dyck word. -/
theorem partner {u v : List (Bracket × Side)} {kind : Bracket}
    (h : Dyck (u ++ (kind, .opening) :: v)) :
    ∃ w r, v = w ++ (kind, .closing) :: r ∧ Dyck w := by
  rw [dyck_iff_unwind, unwind_append, Option.bind_eq_some_iff] at h
  obtain ⟨opened, -, hv⟩ := h
  obtain ⟨w, r, hsplit, hw, -⟩ := exists_partner hv (Nat.zero_le _)
  exact ⟨w, r, hsplit, hw⟩

end Dyck

/-! ## The brackets of tokens -/

/-- The bracket that a token is, if it is one. -/
def Token.bracket? : Token → Option (Bracket × Side)
  | bracket kind side => some (kind, side)
  | _ => none

/-- The brackets among tokens, of both kinds. -/
def brackets (ps : List Placed) : List (Bracket × Side) :=
  ps.filterMap (·.token.bracket?)

/-- Whether the brackets among tokens are properly nested, both kinds together. -/
def Nested (ps : List Placed) : Prop :=
  Dyck (brackets ps)

instance (ps : List Placed) : Decidable (Nested ps) :=
  inferInstanceAs (Decidable (Dyck _))

theorem brackets_append (ps qs : List Placed) :
    brackets (ps ++ qs) = brackets ps ++ brackets qs :=
  List.filterMap_append

theorem brackets_cons_bracket (kind : Bracket) (side : Side) (o : Nat) (ps : List Placed) :
    brackets (⟨.bracket kind side, o⟩ :: ps) = (kind, side) :: brackets ps := rfl

theorem Token.bracket?_eq_some_iff {token : Token} {kind : Bracket} {side : Side} :
    token.bracket? = some (kind, side) ↔ token = bracket kind side := by
  cases token <;> simp [bracket?]

/-- A bracket among those of tokens is a token. -/
theorem exists_of_brackets_eq_append {ps : List Placed} {u v : List (Bracket × Side)}
    {kind : Bracket} {side : Side} (h : brackets ps = u ++ (kind, side) :: v) :
    ∃ qs o rs, ps = qs ++ ⟨.bracket kind side, o⟩ :: rs ∧ brackets qs = u ∧ brackets rs = v := by
  obtain ⟨qs₁, ps₂, rfl, rfl, hps₂⟩ := List.filterMap_eq_append_iff.mp h
  obtain ⟨qs₂, p, rs, rfl, hnone, hp, rfl⟩ := List.filterMap_eq_cons_iff.mp hps₂
  have hqs₂ : brackets qs₂ = [] := List.filterMap_eq_nil_iff.mpr hnone
  refine ⟨qs₁ ++ qs₂, p.offset, rs, ?_, ?_, rfl⟩
  · rw [← Token.bracket?_eq_some_iff.mp hp, List.append_assoc]
  · rw [brackets_append, hqs₂, List.append_nil]
    rfl

namespace Nested

variable {ps qs : List Placed}

theorem nil : Nested [] := Dyck.nil

theorem append (hp : Nested ps) (hq : Nested qs) : Nested (ps ++ qs) := by
  rw [Nested, brackets_append]
  exact Dyck.append hp hq

/-- A token that is no bracket is properly nested. -/
theorem singleton {p : Placed} (h : p.token.bracket? = none) : Nested [p] := by
  have hnone : brackets [p] = [] := by simp [brackets, h]
  rw [Nested, hnone]
  exact .nil

theorem enclose (h : Nested ps) (kind : Bracket) (o c : Nat) :
    Nested (⟨.bracket kind .opening, o⟩ :: ps ++ [⟨.bracket kind .closing, c⟩]) := by
  rw [Nested, List.cons_append, brackets_cons_bracket, brackets_append]
  exact Dyck.pair kind h .nil

/-- After properly nested tokens, there is nothing to be closed. -/
theorem not_append_closing (h : Nested ps) (kind : Bracket) (o : Nat) (qs : List Placed) :
    ¬ Nested (ps ++ ⟨.bracket kind .closing, o⟩ :: qs) := by
  rw [Nested, brackets_append, brackets_cons_bracket]
  exact Dyck.not_dyck_append_closing h kind

/-- Each opening bracket among properly nested tokens has a partner, and those between the two are
    properly nested. -/
theorem partner {kind : Bracket} {o : Nat}
    (h : Nested (ps ++ ⟨.bracket kind .opening, o⟩ :: qs)) :
    ∃ rs c ts, qs = rs ++ ⟨.bracket kind .closing, c⟩ :: ts ∧ Nested rs := by
  rw [Nested, brackets_append, brackets_cons_bracket] at h
  obtain ⟨w, r, hsplit, hw⟩ := h.partner
  obtain ⟨rs, c, ts, rfl, rfl, -⟩ := exists_of_brackets_eq_append hsplit
  exact ⟨rs, c, ts, rfl, hw⟩

/-- Tokens without any brackets are passed over by every search. -/
private theorem passes_of_brackets_eq_nil (h : brackets ps = []) (kind : Bracket) :
    kind.Passes ps := by
  induction ps with
  | nil => exact fun _ _ _ => rfl
  | cons p ps ih =>
    have hnone := List.filterMap_eq_nil_iff.mp h
    have hp : p.token.side? kind = none := by
      have := hnone p List.mem_cons_self
      cases htok : p.token <;> simp_all [Token.bracket?, Token.side?]
    exact (Bracket.passes_singleton hp).append
      (ih (List.filterMap_eq_nil_iff.mpr fun q hq => hnone q (List.mem_cons_of_mem _ hq)))

/-- Properly nested tokens are balanced for each kind of brackets by itself. -/
theorem passes (h : Nested ps) (kind : Bracket) : kind.Passes ps := by
  unfold Nested at h
  generalize hw : brackets ps = w at h
  -- Induction on the Dyck word of the brackets, which are found among the tokens again.
  induction h generalizing ps with
  | nil => exact passes_of_brackets_eq_nil hw kind
  | @pair u v kind' _ _ ihu ihv =>
    obtain ⟨before, o, rest, rfl, hbefore, hrest⟩ := exists_of_brackets_eq_append (u := []) hw
    obtain ⟨inside, c, after, rfl, hinside, hafter⟩ := exists_of_brackets_eq_append hrest
    have hpair : kind.Passes
        (⟨.bracket kind' .opening, o⟩ :: inside ++ [⟨.bracket kind' .closing, c⟩]) :=
      (ihu hinside).enclose o c
    simpa using (passes_of_brackets_eq_nil hbefore kind).append (hpair.append (ihv hafter))

end Nested

/-- In what the grammar derives, brackets are properly nested. -/
theorem Derives.nested {phrase : Phrase} {ts : List Placed} {t : Tree} (h : Derives phrase ts t) :
    Nested ts := by
  induction h with
  | number v o => exact .singleton rfl
  | scalar name o => exact .singleton rfl
  | cell name o o' c _ ih => exact (Nested.singleton rfl).append (ih.enclose .square o' c)
  | group o c _ ih => exact ih.enclose .round o c
  | binary op o _ _ _ ihl ihr =>
    exact ihl.append ((Nested.singleton rfl).append ihr)
  | single _ _ ih => exact ih

/-! ## Partners -/

/-- Whether two tokens are brackets of a kind that are partners: an opening and a closing one with
    properly nested brackets of both kinds between them. -/
structure Bracket.Partners (kind : Bracket) (tokens : Array Placed) (i j : Nat) : Prop where
  lt : i < j
  opening : (tokens[i]?).map Placed.token = some (.bracket kind .opening)
  closing : (tokens[j]?).map Placed.token = some (.bracket kind .closing)
  between : Nested (slice tokens (i + 1) j)

namespace Bracket

variable {kind : Bracket} {tokens : Array Placed} {start stop index : Nat}

theorem Partners.lt_size {i j : Nat} (h : kind.Partners tokens i j) : j < tokens.size := by
  obtain ⟨q, hq, -⟩ := Option.map_eq_some_iff.mp h.closing
  exact (Array.getElem?_eq_some_iff.mp hq).1

/-- The tokens from a bracket on, cut at its partner. -/
theorem Partners.slice_eq {i j : Nat} (h : kind.Partners tokens i j) :
    ∃ o c, slice tokens i tokens.size = ⟨.bracket kind .opening, o⟩ :: slice tokens (i + 1) j ++
      ⟨.bracket kind .closing, c⟩ :: slice tokens (j + 1) tokens.size := by
  have hlt := h.lt
  obtain ⟨p, hp, hopen⟩ := Option.map_eq_some_iff.mp h.opening
  obtain ⟨q, hq, hclose⟩ := Option.map_eq_some_iff.mp h.closing
  obtain ⟨hi, rfl⟩ := Array.getElem?_eq_some_iff.mp hp
  obtain ⟨hj, rfl⟩ := Array.getElem?_eq_some_iff.mp hq
  refine ⟨tokens[i].offset, tokens[j].offset, ?_⟩
  rw [← hopen, ← hclose, slice_eq_cons hi (Nat.le_refl _), List.cons_append,
    ← slice_eq_cons hj (Nat.le_refl _), slice_append hlt (Nat.le_of_lt hj)]

/-- A bracket has at most one partner: a search for it can find only one. -/
theorem Partners.unique {i j j' : Nat} (h : kind.Partners tokens i j)
    (h' : kind.Partners tokens i j') : j = j' := by
  obtain ⟨o, c, hslice⟩ := h.slice_eq
  obtain ⟨o', c', hslice'⟩ := h'.slice_eq
  have hfound := pairWithin_of_passes (h := Nat.le_refl _) (h.between.passes kind) hslice
  rw [pairWithin_of_passes (h'.between.passes kind) hslice'] at hfound
  simp only [Except.ok.injEq, Prod.mk.injEq, true_and] at hfound
  rw [length_slice (Nat.le_of_lt h.lt_size), length_slice (Nat.le_of_lt h'.lt_size)] at hfound
  have := h.lt
  have := h'.lt
  omega

/-- In a properly nested span, a search that starts at an opening bracket finds its partner. -/
theorem pairWithin_of_nested {h : stop ≤ tokens.size} (hnested : Nested (slice tokens start stop))
    (hle : start ≤ index) (hlt : index < stop) (hsize : index < tokens.size)
    (hopen : tokens[index].token = .bracket kind .opening) :
    ∃ last, kind.pairWithin tokens index stop h = .ok (0, last) ∧ index + last < stop ∧
      kind.Partners tokens index (index + last) := by
  have hslice : slice tokens index stop =
      ⟨.bracket kind .opening, tokens[index].offset⟩ :: slice tokens (index + 1) stop := by
    rw [slice_eq_cons hlt h, ← hopen]
  rw [← slice_append hle (Nat.le_of_lt hlt), hslice] at hnested
  obtain ⟨rs, c, ts, hrest, hrs⟩ := hnested.partner
  obtain ⟨hbetween, hafter, hend⟩ := slice_of_append hrest h hlt
  obtain ⟨hlast, hclose, -⟩ := getElem_of_slice_eq_cons hafter h
  have hindex : index + (rs.length + 1) = index + 1 + rs.length := by omega
  refine ⟨rs.length + 1, pairWithin_of_passes (hrs.passes kind) (by rw [hslice, hrest]; rfl),
    by omega, by omega, ?_, ?_, ?_⟩
  · rw [Array.getElem?_eq_getElem (by omega), Option.map_some, hopen]
  · rw [hindex, Array.getElem?_eq_getElem (by omega), Option.map_some, hclose]
  · rwa [hindex, hbetween]

end Bracket

/-- If all brackets are properly nested, so are those of each span that an evaluation enters. -/
theorem Formula.Enters.nested {f : Formula} {start stop : Nat} (h : f.Enters start stop)
    (hnested : Nested f.tokens.toList) : Nested (slice f.tokens start stop) := by
  induction h with
  | all => rwa [slice_zero_size]
  | inside hstop hlt _ hle hopen hpair ih =>
    -- the span that is entered is what is between a bracket and its partner
    obtain ⟨last, hpair', -, hpartners⟩ :=
      Bracket.pairWithin_of_nested (h := hstop) ih hle hlt (Nat.lt_of_lt_of_le hlt hstop) hopen
    rw [hpair'] at hpair
    obtain rfl : last = _ := by simpa using hpair
    exact hpartners.between

end Reckon
