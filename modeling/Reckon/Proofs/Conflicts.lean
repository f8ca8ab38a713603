import Reckon.Proofs.Sessions

/-!
# Symbols in order, and conflicts

Discovery goes through the tokens once, with a table of what it has met. The table lists the names
that are used, those of each kind in the order of their first use. `ConflictAt` says where a name is
used as another kind than before, by the indices of tokens and without any table, and discovery ends
at the first such index if there is one.

## Key results

- `Table.ofTokens_namesOf`: the symbols of a discovered table are in the order of their first use
- `Table.discover_concludes`: discovery succeeds if there is no conflict, and ends at the first one
- `Table.ofTokens_result_spec`: what discovery makes of tokens
-/

namespace Reckon

/-! ## The order of the symbols -/

namespace Table

open Logged

/-- The symbols of one kind, in the order of the table. -/
def namesOf (t : Table) : Kind → List String
  | .scalar => t.scalars.names
  | .array => t.arrays.names

/-- The names that tokens use as one kind, as often and in the order in which they do. -/
def usedAs (kind : Kind) (ps : List Placed) : List String :=
  ((uses ps).filter (·.2 = kind)).map Prod.fst

variable {t t' : Table} {name : String}

theorem usedAs_name (kind : Kind) (name : String) (o : Nat) (ps : List Placed) :
    usedAs kind (⟨.name name, o⟩ :: ps) =
      if kindBefore ps = kind then name :: usedAs kind ps else usedAs kind ps := by
  simp only [usedAs, uses_name, List.filter_cons, decide_eq_true_eq]
  split <;> rfl

/-- A symbol that is added comes after all others of its kind. -/
theorem namesOf_insert (kind kind' : Kind) (h : t.kind? name = none) :
    (t.insert kind name).namesOf kind' =
      t.namesOf kind' ++ if kind = kind' then [name] else [] := by
  obtain ⟨hs, ha⟩ := kind?_eq_none_iff.mp h
  cases kind <;> cases kind' <;>
    simp [insert, insertScalar, insertArray, namesOf, Bindings.names_insertNew, hs, ha]

theorem mem_namesOf_of_kind? {kind : Kind} (h : t.kind? name = some kind) :
    name ∈ t.namesOf kind := by
  cases kind with
  | scalar =>
    obtain ⟨value, hvalue⟩ := exists_scalar_of_kind? h
    exact Bindings.contains_iff_mem_names.mp (by simp [Bindings.contains, hvalue])
  | array =>
    obtain ⟨cells, hcells⟩ := exists_cells_of_kind? h
    exact Bindings.contains_iff_mem_names.mp (by simp [Bindings.contains, hcells])

/-- Discovery adds the names that a table has not, each where it is used first. -/
theorem discover_ok_namesOf (kind : Kind) {ps : List Placed}
    (hok : (discover t ps).result = .ok t') :
    t'.namesOf kind =
      t.namesOf kind ++ ((usedAs kind ps).filter (· ∉ t.namesOf kind)).eraseDups := by
  -- Induction along the recursion of `discover`; a name of another kind changes nothing here.
  fun_induction discover t ps with
  | case1 t =>
    obtain rfl : t = t' := by simpa using hok
    simp [usedAs, uses]
  | case2 t name offset rest kind' hnone ih =>
    rw [result_bind fun _ => discover_appends ..] at hok
    rw [ih hok, namesOf_insert kind' kind hnone, usedAs_name]
    by_cases hkind : kind' = kind
    · -- the name is new, and all further uses of it add nothing
      have hnew : name ∉ t.namesOf kind := fun hmem =>
        not_mem_names_iff.mpr hnone (by cases kind <;> simp_all [names, namesOf])
      rw [if_pos hkind, if_pos hkind, List.filter_cons_of_pos (by simpa using hnew),
        List.eraseDups_cons, List.filter_filter, List.append_assoc, List.singleton_append]
      congr 3
      refine List.filter_congr fun n _ => ?_
      simp [not_or, and_comm, Bool.beq_eq_decide_eq]
    · rw [if_neg hkind, if_neg hkind, List.append_nil]
  | case3 t name offset rest kind' hsome ih =>
    rw [ih hok, usedAs_name]
    by_cases hkind : kind' = kind
    · have hold : name ∈ t.namesOf kind := mem_namesOf_of_kind? (hkind ▸ hsome)
      rw [if_pos hkind, List.filter_cons_of_neg (by simpa using hold)]
    · rw [if_neg hkind]
  | case4 t name offset rest kind' known hsome hne => cases hok
  | case5 t p rest hne ih =>
    rw [ih hok, usedAs, usedAs, uses_cons_of_ne fun name hp => ?_]
    exact hne name p.offset (by rw [← hp])

/-- The symbols of tokens are in the order of their first use. -/
theorem ofTokens_namesOf {tokens : Array Placed} (h : (ofTokens tokens).result = .ok t)
    (kind : Kind) : t.namesOf kind = (usedAs kind tokens.toList).eraseDups := by
  have hnames := discover_ok_namesOf kind h
  have hempty : namesOf {} kind = [] := by cases kind <;> rfl
  simpa [hempty] using hnames

/-! ## Uses by index -/

/-- The name that the token at an index is, if it is one. -/
def nameAt? (ps : List Placed) (i : Nat) : Option String :=
  match ps[i]? with
  | some ⟨.name name, _⟩ => some name
  | _ => none

/-- What a name at an index is used as: an array if the token after it is an opening square
    bracket, and else a scalar. -/
def kindAt (ps : List Placed) (i : Nat) : Kind :=
  match ps[i + 1]? with
  | some ⟨.bracket .square .opening, _⟩ => .array
  | _ => .scalar

/-- The names that tokens use as a kind, as often and in the order in which they do. -/
def namesUsed (kind : Kind) (ps : List Placed) : List String :=
  (List.range ps.length).filterMap fun i => if kindAt ps i = kind then nameAt? ps i else none

/-- Whether the token at an index is a name that an earlier token uses as another kind. -/
def ConflictAt (ps : List Placed) (i : Nat) : Prop :=
  ∃ name, nameAt? ps i = some name ∧ ∃ j < i, nameAt? ps j = some name ∧ kindAt ps j ≠ kindAt ps i

/-- Whether a fault is that of the first token that is in conflict with an earlier one. -/
def FirstConflict (ps : List Placed) (fault : Fault) : Prop :=
  ∃ i name offset, ps[i]? = some ⟨.name name, offset⟩ ∧ fault = ⟨offset, .kindConflict name⟩ ∧
    ConflictAt ps i ∧ ∀ j < i, ¬ ConflictAt ps j

section

variable {ps rest : List Placed} {p : Placed} {i : Nat}

theorem getElem?_of_drop (h : ps.drop i = p :: rest) : ps[i]? = some p := by
  rw [← List.head?_drop, h]
  rfl

theorem drop_succ_of_drop (h : ps.drop i = p :: rest) : ps.drop (i + 1) = rest := by
  rw [← List.tail_drop, h]
  rfl

/-- The kind of a name shows in the tokens after it. -/
theorem kindAt_of_drop (h : ps.drop i = p :: rest) : kindAt ps i = kindBefore rest := by
  have hnext : ps[i + 1]? = rest.head? := by rw [← List.head?_drop, drop_succ_of_drop h]
  unfold kindAt kindBefore
  rw [hnext]
  cases rest with
  | nil => rfl
  | cons q qs =>
    obtain ⟨token, o⟩ := q
    cases token with
    | bracket kind side => cases kind <;> cases side <;> rfl
    | _ => rfl

theorem nameAt?_of_drop {name : String} {o : Nat} (h : ps.drop i = ⟨.name name, o⟩ :: rest) :
    nameAt? ps i = some name := by
  rw [nameAt?, getElem?_of_drop h]

theorem nameAt?_of_drop_ne (h : ps.drop i = p :: rest) (hne : ∀ name, p.token ≠ .name name) :
    nameAt? ps i = none := by
  rw [nameAt?, getElem?_of_drop h]
  split
  · next name o hp =>
    obtain rfl := Option.some.inj hp
    exact absurd rfl (hne name)
  · rfl

theorem nameAt?_of_le (h : ps.length ≤ i) : nameAt? ps i = none := by
  rw [nameAt?, List.getElem?_eq_none h]

/-- The uses of a name as a kind, by index and by the tokens after it. -/
theorem usedAs_eq_namesUsed (kind : Kind) (ps : List Placed) :
    usedAs kind ps = namesUsed kind ps := by
  induction ps with
  | nil => rfl
  | cons p ps ih =>
    -- the token at an index after the first one is the one at the index before in the rest
    have hrest : (List.range ps.length).filterMap
        ((fun i => if kindAt (p :: ps) i = kind then nameAt? (p :: ps) i else none) ∘ Nat.succ) =
        namesUsed kind ps := rfl
    rw [namesUsed, List.length_cons, List.range_succ_eq_map, List.filterMap_cons,
      List.filterMap_map, hrest, ← ih, kindAt_of_drop (i := 0) rfl]
    by_cases hname : ∃ name, p.token = .name name
    · obtain ⟨name, hname⟩ := hname
      have hp : p = ⟨.name name, p.offset⟩ := by rw [← hname]
      rw [hp, usedAs_name, nameAt?_of_drop (i := 0) rfl]
      by_cases hkind : kindBefore ps = kind
      · rw [if_pos hkind, if_pos hkind]
      · rw [if_neg hkind, if_neg hkind]
    · have hne : ∀ name, p.token ≠ .name name := fun name h => hname ⟨name, h⟩
      rw [nameAt?_of_drop_ne (i := 0) rfl hne, usedAs, uses_cons_of_ne hne, ite_self]
      rfl

/-! ## The first conflict -/

/-- What discovery has to make of tokens: it succeeds if there is no conflict, and else it ends with
    the first one. -/
def Concludes (ps : List Placed) : Except Fault Table → Prop
  | .ok _ => ∀ i, ¬ ConflictAt ps i
  | .error fault => FirstConflict ps fault

/-- A name that no earlier token uses as another kind is not in conflict. -/
theorem not_conflictAt {name : String} (hname : nameAt? ps i = some name)
    (h : ∀ j < i, nameAt? ps j = some name → kindAt ps j = kindAt ps i) : ¬ ConflictAt ps i := by
  intro hconflict
  obtain ⟨n, hn, j, hj, hnj, hne⟩ := hconflict
  obtain rfl : name = n := Option.some.inj (hname.symm.trans hn)
  exact hne (h j hj hnj)

theorem not_conflictAt_of_none (h : nameAt? ps i = none) : ¬ ConflictAt ps i := by
  intro hconflict
  obtain ⟨name, hname, -⟩ := hconflict
  rw [h] at hname
  exact nomatch hname

/-- Discovery that has come to an index without a conflict ends at the first conflict from there on.
    The table has the names of the tokens before the index. -/
theorem discover_concludes (t : Table) (rest : List Placed) : ∀ i, ps.drop i = rest →
    (∀ name kind, t.kind? name = some kind ↔
      ∃ j < i, nameAt? ps j = some name ∧ kindAt ps j = kind) →
    (∀ j < i, ¬ ConflictAt ps j) → Concludes ps (discover t rest).result := by
  -- Induction along the recursion of `discover`. What the table has and that there was no conflict
  -- is the invariant, which has to be shown for the next index in each case.
  fun_induction discover t rest with
  | case1 t =>
    intro i hrest hkinds hfree
    show ∀ j, ¬ ConflictAt ps j
    intro j
    by_cases hj : j < i
    · exact hfree j hj
    · have hlen : ps.length ≤ i := List.drop_eq_nil_iff.mp hrest
      exact not_conflictAt_of_none (nameAt?_of_le (by omega))
  | case2 t name offset rest kind hnone ih =>
    intro i hrest hkinds hfree
    have hname := nameAt?_of_drop hrest
    have hkind : kindAt ps i = kind := kindAt_of_drop hrest
    -- a new name is not used before
    have hnew : ∀ j < i, nameAt? ps j ≠ some name := by
      intro j hj hused
      have hknown := (hkinds name (kindAt ps j)).mpr ⟨j, hj, hused, rfl⟩
      rw [hnone] at hknown
      contradiction
    have hnot : ¬ ConflictAt ps i := not_conflictAt hname fun j hj hused => absurd hused (hnew j hj)
    rw [result_bind fun _ => discover_appends ..]
    apply ih (i + 1) (drop_succ_of_drop hrest)
    · intro n k
      rw [kind?_insert t kind name n hnone, Nat.exists_lt_succ_right, hname, hkind,
        Option.some.injEq]
      by_cases hn : n = name
      · rw [if_pos hn, hn]
        constructor
        · intro h
          exact Or.inr ⟨rfl, Option.some.inj h⟩
        · intro h
          rcases h with ⟨j, hj, hused, -⟩ | ⟨-, rfl⟩
          · exact absurd hused (hnew j hj)
          · rfl
      · rw [if_neg hn, hkinds]
        constructor
        · exact Or.inl
        · intro h
          rcases h with h | ⟨hn', -⟩
          · exact h
          · exact absurd hn'.symm hn
    · exact Nat.forall_lt_succ_right.mpr ⟨hfree, hnot⟩
  | case3 t name offset rest kind hsome ih =>
    intro i hrest hkinds hfree
    have hname := nameAt?_of_drop hrest
    have hkind : kindAt ps i = kind := kindAt_of_drop hrest
    -- every earlier use of the name is as the kind that the table has it
    have hnot : ¬ ConflictAt ps i := by
      apply not_conflictAt hname
      intro j hj hused
      have hknown := (hkinds name (kindAt ps j)).mpr ⟨j, hj, hused, rfl⟩
      rw [hkind]
      exact Option.some.inj (hknown.symm.trans hsome)
    apply ih (i + 1) (drop_succ_of_drop hrest)
    · intro n k
      rw [Nat.exists_lt_succ_right, hname, hkind, Option.some.injEq, hkinds]
      constructor
      · exact Or.inl
      · intro h
        rcases h with h | ⟨rfl, rfl⟩
        · exact h
        · exact (hkinds name kind).mp hsome
    · exact Nat.forall_lt_succ_right.mpr ⟨hfree, hnot⟩
  | case4 t name offset rest kind known hsome hne =>
    intro i hrest hkinds hfree
    have hname := nameAt?_of_drop hrest
    have hkind : kindAt ps i = kind := kindAt_of_drop hrest
    obtain ⟨j, hj, hused, hknown⟩ := (hkinds name known).mp hsome
    refine ⟨i, name, offset, getElem?_of_drop hrest, rfl, ?_, hfree⟩
    exact ⟨name, hname, j, hj, hused, by rw [hknown, hkind]; exact hne⟩
  | case5 t p rest hne ih =>
    intro i hrest hkinds hfree
    have hnone : nameAt? ps i = none :=
      nameAt?_of_drop_ne hrest fun name hname => hne name p.offset (by rw [← hname])
    apply ih (i + 1) (drop_succ_of_drop hrest)
    · intro n k
      rw [Nat.exists_lt_succ_right, hnone, hkinds]
      simp
    · exact Nat.forall_lt_succ_right.mpr ⟨hfree, not_conflictAt_of_none hnone⟩

/-- There is no conflict exactly if no name is used as both kinds. -/
theorem forall_not_conflictAt_iff :
    (∀ i, ¬ ConflictAt ps i) ↔ ¬ ∃ name i j, nameAt? ps i = some name ∧
      nameAt? ps j = some name ∧ kindAt ps i = .array ∧ kindAt ps j = .scalar := by
  constructor
  · intro hfree hboth
    obtain ⟨name, i, j, hi, hj, hki, hkj⟩ := hboth
    -- the later one of the two uses is in conflict with the earlier one
    rcases Nat.lt_trichotomy i j with hlt | rfl | hlt
    · exact hfree j ⟨name, hj, i, hlt, hi, by rw [hki, hkj]; exact nofun⟩
    · rw [hki] at hkj
      exact nomatch hkj
    · exact hfree i ⟨name, hi, j, hlt, hj, by rw [hki, hkj]; exact nofun⟩
  · intro hboth i hconflict
    obtain ⟨name, hi, j, -, hj, hne⟩ := hconflict
    apply hboth
    cases hki : kindAt ps i with
    | scalar =>
      cases hkj : kindAt ps j with
      | scalar => exact absurd (hkj.trans hki.symm) hne
      | array => exact ⟨name, j, i, hj, hi, hkj, hki⟩
    | array =>
      cases hkj : kindAt ps j with
      | scalar => exact ⟨name, i, j, hi, hj, hki, hkj⟩
      | array => exact absurd (hkj.trans hki.symm) hne

/-- There is only one first conflict. -/
theorem FirstConflict.unique {fault fault' : Fault} (h : FirstConflict ps fault)
    (h' : FirstConflict ps fault') : fault = fault' := by
  obtain ⟨i, name, o, hi, rfl, hconflict, hfirst⟩ := h
  obtain ⟨i', name', o', hi', rfl, hconflict', hfirst'⟩ := h'
  rcases Nat.lt_trichotomy i i' with hlt | rfl | hlt
  · exact absurd hconflict (hfirst' i hlt)
  · obtain ⟨rfl, rfl⟩ : name = name' ∧ o = o' := by simpa [hi] using hi'
    rfl
  · exact absurd hconflict' (hfirst i' hlt)

end

/-! ## What discovery gives -/

/-- A table as discovery leaves it: no symbol has a value, and no name is there twice. -/
structure Fresh (t : Table) : Prop where
  scalars_zero : t.scalars.entries = t.scalars.names.map (·, 0)
  arrays_unloaded : t.arrays.entries = t.arrays.names.map (·, .unloaded)
  nodup : t.names.Nodup

theorem Fresh.empty : Fresh {} where
  scalars_zero := rfl
  arrays_unloaded := rfl
  nodup := List.nodup_nil

theorem Fresh.insert (ht : t.Fresh) (kind : Kind) (hnone : t.kind? name = none) :
    (t.insert kind name).Fresh := by
  obtain ⟨hs, ha⟩ := kind?_eq_none_iff.mp hnone
  have hnodup : (t.insert kind name).names.Nodup := by
    rw [(names_insert kind hnone).nodup_iff]
    exact List.nodup_cons.mpr ⟨not_mem_names_iff.mpr hnone, ht.nodup⟩
  cases kind with
  | scalar =>
    refine ⟨?_, ht.arrays_unloaded, hnodup⟩
    simp only [Table.insert, insertScalar, Bindings.entries_insertNew hs,
      Bindings.names_insertNew hs]
    rw [ht.scalars_zero, List.map_append]
    rfl
  | array =>
    refine ⟨ht.scalars_zero, ?_, hnodup⟩
    simp only [Table.insert, insertArray, Bindings.entries_insertNew ha,
      Bindings.names_insertNew ha]
    rw [ht.arrays_unloaded, List.map_append]
    rfl

theorem discover_ok_fresh {ps : List Placed} (hok : (discover {} ps).result = .ok t') : t'.Fresh :=
  discover_ok_of_insert (fun _ kind _ _ _ hnone ht => ht.insert kind hnone) .empty hok

/-- Discovery succeeds exactly if no name is used both as an array and as a scalar. Then the scalars
    are the names that are not before an opening square bracket, and the arrays those that are, each
    of them once and in the order of their first use, the scalars zero and the arrays without cells.
    Else the fault is that of the first name that is used as another kind than before. -/
theorem ofTokens_result_spec (tokens : Array Placed) :
    let ps := tokens.toList
    ((∃ t, (ofTokens tokens).result = .ok t) ↔ ¬ ∃ name i j, nameAt? ps i = some name ∧
      nameAt? ps j = some name ∧ kindAt ps i = .array ∧ kindAt ps j = .scalar) ∧
    (∀ t, (ofTokens tokens).result = .ok t →
      t.scalars.entries = (namesUsed .scalar ps).eraseDups.map (·, 0) ∧
      t.arrays.entries = (namesUsed .array ps).eraseDups.map (·, .unloaded) ∧
      t.names.Nodup) ∧
    ∀ fault, (ofTokens tokens).result = .error fault ↔ FirstConflict ps fault := by
  intro ps
  have hconcludes : Concludes ps (ofTokens tokens).result := by
    apply discover_concludes {} tokens.toList 0 rfl
    · intro name kind
      simp [kind?, Bindings.contains]
    · exact fun j hj => absurd hj (Nat.not_lt_zero j)
  refine ⟨?_, ?_, ?_⟩
  · rw [← forall_not_conflictAt_iff]
    cases hresult : (ofTokens tokens).result with
    | ok t =>
      rw [hresult] at hconcludes
      exact ⟨fun _ => hconcludes, fun _ => ⟨t, rfl⟩⟩
    | error fault =>
      rw [hresult] at hconcludes
      obtain ⟨i, -, -, -, -, hconflict, -⟩ := hconcludes
      constructor
      · intro hbuilds
        obtain ⟨t, hok⟩ := hbuilds
        contradiction
      · exact fun hfree => absurd hconflict (hfree i)
  · intro t hok
    have hfresh := discover_ok_fresh hok
    have hnames : ∀ kind, t.namesOf kind = (namesUsed kind ps).eraseDups := by
      intro kind
      rw [← usedAs_eq_namesUsed, ofTokens_namesOf hok]
    rw [hfresh.scalars_zero, hfresh.arrays_unloaded, ← hnames .scalar, ← hnames .array]
    exact ⟨rfl, rfl, hfresh.nodup⟩
  · intro fault
    cases hresult : (ofTokens tokens).result with
    | ok t =>
      rw [hresult] at hconcludes
      constructor
      · intro heq
        contradiction
      · intro hfirst
        obtain ⟨i, -, -, -, -, hconflict, -⟩ := hfirst
        exact absurd hconflict (hconcludes i)
    | error fault' =>
      rw [hresult] at hconcludes
      constructor
      · intro heq
        exact Except.error.inj heq ▸ hconcludes
      · intro hfirst
        rw [hfirst.unique hconcludes]

/-- `b+A[a]-b` has the scalars `b` and `a` and the array `A`, and `x+x[1]` is refused for the second
    use of `x`. -/
theorem ofTokens_result_spec_mixed :
    (∃ t, (ofTokens (Token.scan "b+A[a]-b")).result = .ok t ∧
      t.scalars.entries = [("b", 0), ("a", 0)] ∧ t.arrays.entries = [("A", .unloaded)]) ∧
      (ofTokens (Token.scan "x+x[1]")).result = .error ⟨2, .kindConflict "x"⟩ := by
  constructor
  · have hok : (ofTokens (Token.scan "b+A[a]-b")).result.toBool := by decide +kernel
    have hscalars : namesUsed .scalar (Token.scan "b+A[a]-b").toList = ["b", "a", "b"] := by
      decide +kernel
    have harrays : namesUsed .array (Token.scan "b+A[a]-b").toList = ["A"] := by decide +kernel
    cases ht : (ofTokens (Token.scan "b+A[a]-b")).result with
    | error fault =>
      rw [ht] at hok
      exact nomatch hok
    | ok t =>
      have hentries := (ofTokens_result_spec _).2.1 t ht
      rw [hscalars, harrays] at hentries
      exact ⟨t, rfl, hentries.1, hentries.2.1⟩
  · apply ((ofTokens_result_spec _).2.2 _).mpr
    refine ⟨2, "x", 2, by with_unfolding_all rfl, rfl,
      ⟨"x", by decide +kernel, 0, by decide, by decide +kernel, by decide +kernel⟩, ?_⟩
    intro j hj
    match j with
    | 0 => exact fun ⟨_, _, k, hk, _⟩ => absurd hk (Nat.not_lt_zero k)
    | 1 => exact not_conflictAt_of_none (by decide +kernel)

end Table

end Reckon
