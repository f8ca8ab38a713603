import Reckon.Expression
import Reckon.Proofs.Logging

/-!
# The symbols that an expression uses

`Table.uses` lists the names in a row of tokens, each with the kind that the token after it gives
to it. Discovery goes through this list: it succeeds if no name is used as two kinds, and then a
name is a symbol of a kind exactly if it is used as that kind. No symbol has a value by then.

## Key results

- `discover_ok_of_insert`: what adding symbols preserves holds of a discovered table
- `discover_eq_error`: the only fault of discovery is a name that is used as two kinds
- `ofTokens_result_of_consistent`: without a conflict, the symbols are the names that are used
-/

namespace Reckon.Table

open Logged

/-- The names in a row of tokens, each as the kind that the token after it gives to it. -/
def uses : List Placed → List (String × Kind)
  | [] => []
  | ⟨.name name, _⟩ :: rest => (name, kindBefore rest) :: uses rest
  | _ :: rest => uses rest

theorem uses_name (name : String) (o : Nat) (ps : List Placed) :
    uses (⟨.name name, o⟩ :: ps) = (name, kindBefore ps) :: uses ps := rfl

/-- A token that is no name uses none. -/
theorem uses_cons_of_ne {p : Placed} (h : ∀ name, p.token ≠ .name name) (ps : List Placed) :
    uses (p :: ps) = uses ps := by
  rw [uses]
  rintro name o rfl
  exact h name rfl

/-- A name that occurs anywhere is used as the kind that what comes after it gives to it. -/
theorem mem_uses_append (ps : List Placed) (name : String) (o : Nat) (qs : List Placed) :
    (name, kindBefore qs) ∈ uses (ps ++ ⟨.name name, o⟩ :: qs) := by
  induction ps with
  | nil => exact List.mem_cons_self
  | cons p ps ih =>
    obtain ⟨token, o'⟩ := p
    cases token with
    | name n => exact List.mem_cons_of_mem _ ih
    | _ => exact ih

theorem kindBefore_eq_array_iff {ps : List Placed} :
    kindBefore ps = .array ↔ ∃ o qs, ps = ⟨.bracket .square .opening, o⟩ :: qs := by
  unfold kindBefore
  split
  · simp
  · next hne =>
    constructor
    · exact nofun
    · rintro ⟨o, qs, rfl⟩
      exact absurd rfl (hne o qs)

/-! ## The kinds of a table -/

section
variable (table : Table) (kind : Kind) (name n : String)

/-- Adding a symbol that the table has not gives its name a kind, and leaves the others alone. -/
theorem kind?_insert (h : table.kind? name = none) :
    (table.insert kind name).kind? n = if n = name then some kind else table.kind? n := by
  obtain ⟨hs, ha⟩ := kind?_eq_none_iff.mp h
  -- the table has the name as neither kind, so the new symbol is the first of this name
  cases kind with
  | scalar =>
    simp only [insert, insertScalar, kind?, Bindings.contains, Bindings.get?_insertNew]
    by_cases hn : n = name
    · simp [hn]
    · simp only [hn, ↓reduceIte]
      congr
  | array =>
    simp only [insert, insertArray, kind?, Bindings.contains, Bindings.get?_insertNew]
    by_cases hn : n = name
    · simp [hn, hs]
    · simp only [hn, ↓reduceIte]
      congr

end

/-- Whether no symbol of a table has a value. -/
def Unset (table : Table) : Prop :=
  ∀ name, table.scalarValue name = 0 ∧ table.cells name = .unloaded

theorem unset_empty : Unset {} := fun _ => ⟨rfl, rfl⟩

theorem Unset.insert {table : Table} (h : table.Unset) (kind : Kind) (name : String) :
    (table.insert kind name).Unset := by
  intro n
  obtain ⟨hs, hc⟩ := h n
  cases kind with
  | scalar =>
    refine ⟨?_, hc⟩
    simp only [Table.insert, insertScalar, scalarValue, Bindings.get?_insertNew] at hs ⊢
    split
    · simpa using hs
    · exact hs
  | array =>
    refine ⟨hs, ?_⟩
    simp only [Table.insert, insertArray, cells, Bindings.get?_insertNew] at hc ⊢
    split
    · simpa using hc
    · exact hc

/-! ## Discovery -/

theorem discover_appends (table : Table) (ps : List Placed) : (discover table ps).Appends := by
  fun_induction discover table ps with
  | case1 table => exact appends_pure _
  | case2 table name offset rest kind hnone ih => exact (appends_report _).bind fun _ => ih
  | case3 table name offset rest kind hsome ih => exact ih
  | case4 table name offset rest kind known hsome hne => exact appends_throw _
  | case5 table p rest hne ih => exact ih

/-- What holds of a table, and goes on to hold when a name of the tokens is added to it that it has
    not, holds when all of them have been discovered. -/
theorem discover_ok_of_insert {holds : Table → Prop} {table table' : Table} {ps : List Placed}
    (hinsert : ∀ t kind name offset, ⟨.name name, offset⟩ ∈ ps → t.kind? name = none → holds t →
      holds (t.insert kind name))
    (h : holds table) (hok : (discover table ps).result = .ok table') : holds table' := by
  -- Induction along the recursion of `discover`, which only adds symbols.
  fun_induction discover table ps with
  | case1 table =>
    obtain rfl : table = table' := by simpa using hok
    exact h
  | case2 table name offset rest kind hnone ih =>
    rw [result_bind fun _ => discover_appends ..] at hok
    exact ih (fun t k n o hn => hinsert t k n o (List.mem_cons_of_mem _ hn))
      (hinsert table kind name offset List.mem_cons_self hnone h) hok
  | case3 table name offset rest kind hsome ih =>
    exact ih (fun t k n o hn => hinsert t k n o (List.mem_cons_of_mem _ hn)) h hok
  | case4 table name offset rest kind known hsome hne => exact nomatch hok
  | case5 table p rest hne ih =>
    exact ih (fun t k n o hn => hinsert t k n o (List.mem_cons_of_mem _ hn)) h hok

/-- A discovered table has no values. -/
theorem discover_ok_unset {table table' : Table} {ps : List Placed} (h : table.Unset)
    (hok : (discover table ps).result = .ok table') : table'.Unset :=
  discover_ok_of_insert (fun _ kind name _ _ _ h => h.insert kind name) h hok

/-- The only fault of discovery is a name that is used as two kinds. -/
theorem discover_eq_error {table : Table} {ps : List Placed} {fault : Fault}
    (herror : (discover table ps).result = .error fault) :
    ∃ name, fault.cause = .kindConflict name := by
  fun_induction discover table ps with
  | case1 table => exact nomatch herror
  | case2 table name offset rest kind hnone ih =>
    rw [result_bind fun _ => discover_appends ..] at herror
    exact ih herror
  | case3 table name offset rest kind hsome ih => exact ih herror
  | case4 table name offset rest kind known hsome hne =>
    obtain rfl := Except.error.inj herror
    exact ⟨name, rfl⟩
  | case5 table p rest hne ih => exact ih herror

/-- Without a conflict, discovery succeeds, and adds the names that are used as symbols. -/
theorem discover_result_of_consistent {table : Table} {ps : List Placed}
    (hknown : ∀ name kind kind', table.kind? name = some kind → (name, kind') ∈ uses ps →
      kind = kind')
    (hused : ∀ name kind kind', (name, kind) ∈ uses ps → (name, kind') ∈ uses ps →
      kind = kind') :
    ∃ table', (discover table ps).result = .ok table' ∧ ∀ name kind,
      table'.kind? name = some kind ↔ table.kind? name = some kind ∨ (name, kind) ∈ uses ps := by
  -- Induction along the recursion of `discover`. The table changes with each new name, so what is
  -- known of its kinds has to be shown again: `hknown` is the invariant.
  fun_induction discover table ps with
  | case1 table => exact ⟨table, rfl, by simp [uses]⟩
  | case2 table name offset rest kind hnone ih =>
    simp only [uses_name] at hknown hused
    have hins : ∀ n k, (table.insert kind name).kind? n = some k ↔
        table.kind? n = some k ∨ (n = name ∧ k = kind) := by
      intro n k
      rw [kind?_insert table kind name n hnone]
      by_cases hn : n = name
      · subst hn
        simp [hnone, eq_comm]
      · simp [hn]
    obtain ⟨table', hok, hkinds⟩ := ih
      (by
        intro n k k' hk hk'
        -- the name was known before, or it is the new one, whose uses agree
        rcases (hins n k).mp hk with hk | ⟨rfl, rfl⟩
        · exact hknown n k k' hk (List.mem_cons_of_mem _ hk')
        · exact hused n _ k' List.mem_cons_self (List.mem_cons_of_mem _ hk'))
      (fun n k k' hk hk' =>
        hused n k k' (List.mem_cons_of_mem _ hk) (List.mem_cons_of_mem _ hk'))
    refine ⟨table', ?_, ?_⟩
    · rw [result_bind fun _ => discover_appends .., result_report, ok_bind]
      exact hok
    · intro n k
      rw [hkinds, hins, uses_name, List.mem_cons, Prod.mk.injEq, or_assoc]
  | case3 table name offset rest kind hsome ih =>
    simp only [uses_name] at hknown hused
    obtain ⟨table', hok, hkinds⟩ := ih
      (fun n k k' hk hk' => hknown n k k' hk (List.mem_cons_of_mem _ hk'))
      (fun n k k' hk hk' =>
        hused n k k' (List.mem_cons_of_mem _ hk) (List.mem_cons_of_mem _ hk'))
    refine ⟨table', hok, ?_⟩
    intro n k
    rw [hkinds, uses_name, List.mem_cons, Prod.mk.injEq]
    constructor
    · exact Or.imp_right Or.inr
    · rintro (hk | ⟨rfl, rfl⟩ | hk)
      · exact Or.inl hk
      · exact Or.inl hsome
      · exact Or.inr hk
  | case4 table name offset rest kind known hsome hne =>
    exact absurd (hknown name known kind hsome List.mem_cons_self) hne
  | case5 table p rest hne ih =>
    have huses : uses (p :: rest) = uses rest :=
      uses_cons_of_ne (fun name hname => hne name p.offset (by rw [← hname])) rest
    rw [huses] at hknown hused ⊢
    exact ih hknown hused

/-- Without a conflict, the symbols of a row of tokens are the names that it uses. -/
theorem ofTokens_result_of_consistent {tokens : Array Placed}
    (hused : ∀ name kind kind', (name, kind) ∈ uses tokens.toList →
      (name, kind') ∈ uses tokens.toList → kind = kind') :
    ∃ table, (ofTokens tokens).result = .ok table ∧ table.Unset ∧ ∀ name kind,
      table.kind? name = some kind ↔ (name, kind) ∈ uses tokens.toList := by
  obtain ⟨table, hok, hkinds⟩ := @discover_result_of_consistent {} _ nofun hused
  refine ⟨table, hok, discover_ok_unset unset_empty hok, ?_⟩
  intro name kind
  rw [hkinds]
  simp [kind?, Bindings.contains]

end Reckon.Table

namespace Reckon

/-- An expression is built with the table of its tokens. -/
theorem Expression.build_result (x : Expression) :
    x.build.result = (Table.ofTokens x.formula.tokens).result.map ({ x with table := · }) := by
  rw [build, Logged.result_bind fun _ => Logged.appends_pure _]
  cases (Table.ofTokens x.formula.tokens).result <;> rfl

/-- The expression of a text is built with the table of the text. -/
theorem Expression.build_ofText (text : String) :
    (ofText text).build.result =
      (Table.ofText text).map ({ ofText text with table := · }) :=
  build_result _

end Reckon
