import Reckon.Proofs.Conflicts

/-!
# Tables over time

A table starts empty. Symbols are registered in it by hand, it is replaced by the symbols of tokens,
sources are loaded into it and texts are evaluated with it, in any order. What it then lists is what
has been registered since it was replaced for the last time, each name once for each kind and in the
order in which they were registered. Registration looks for a name among those of its own kind only,
so a name that is registered as both kinds is in the table twice.

## Key results

- `Table.namesOf_insert_eq`: registering a symbol by hand, whether or not the table has it
- `Table.Registers.perform`: an operation registers what `Operation.register` says
- `Table.performed_spec`: what the table lists after any operations
- `Table.nodup_performed`: while names keep to their kinds, no name is there twice
-/

namespace Reckon.Table

/-! ## Operations -/

/-- What can be done with a table. -/
inductive Operation where
  /-- A symbol is registered. -/
  | insert (kind : Kind) (name : String)
  /-- A source of values is loaded into it. -/
  | load (source : Values.Source)
  /-- It is replaced by the symbols of some tokens, if these can be discovered. -/
  | discover (tokens : Array Placed)
  /-- A text is evaluated with it. -/
  | evaluate (text : String)

/-- A table after an operation. Evaluation only reads it. -/
def perform (t : Table) : Operation → Table
  | .insert kind name => t.insert kind name
  | .load source => (source.load t #[]).1.table
  | .discover tokens => (ofTokens tokens).result.toOption.getD t
  | .evaluate _ => t

/-- The table after some operations, the first of which was the first to be performed. -/
def performed (operations : List Operation) : Table :=
  operations.foldl perform {}

/-- The names that symbols have as one kind. -/
def ofKind (kind : Kind) (symbols : List (String × Kind)) : List String :=
  (symbols.filter (·.2 = kind)).map Prod.fst

/-- What has been registered after an operation, given what was before it: a symbol that is inserted
    comes last, and a table that is replaced starts again with the uses of the tokens. -/
def Operation.register (symbols : List (String × Kind)) : Operation → List (String × Kind)
  | .insert kind name => symbols ++ [(name, kind)]
  | .discover tokens =>
    match (ofTokens tokens).result with
    | .ok _ => uses tokens.toList
    | .error _ => symbols
  | .load _ | .evaluate _ => symbols

/-- What some operations have registered since the table was replaced for the last time. -/
def Operation.registered (operations : List Operation) : List (String × Kind) :=
  operations.foldl register []

section

variable {t : Table} {name : String} {symbols : List (String × Kind)}

theorem ofKind_concat (kind kind' : Kind) (name : String) :
    ofKind kind' (symbols ++ [(name, kind)]) =
      ofKind kind' symbols ++ if kind = kind' then [name] else [] := by
  rw [ofKind, ofKind, List.filter_append, List.map_append]
  by_cases h : kind = kind'
  · rw [if_pos h, List.filter_cons_of_pos (by simpa using h)]
    rfl
  · rw [if_neg h, List.filter_cons_of_neg (by simpa using h)]
    rfl

theorem mem_ofKind {kind : Kind} : name ∈ ofKind kind symbols ↔ (name, kind) ∈ symbols := by
  simp [ofKind]

/-- Registering a symbol puts its name last, unless it is among those of its own kind. -/
theorem namesOf_insert_eq (kind kind' : Kind) (name : String) :
    (t.insert kind name).namesOf kind' =
      if kind = kind' ∧ name ∉ t.namesOf kind then t.namesOf kind' ++ [name]
      else t.namesOf kind' := by
  have hold : ∀ {α : Type} (b : Bindings α) (a : α),
      (b.insertNew name a).names = if name ∉ b.names then b.names ++ [name] else b.names := by
    intro α b a
    by_cases h : name ∈ b.names
    · rw [if_neg (not_not_intro h), Bindings.insertNew,
        if_pos (Bindings.contains_iff_mem_names.mpr h)]
    · rw [if_pos h, Bindings.names_insertNew (Bindings.not_mem_names_iff.mp h)]
  cases kind <;> cases kind' <;> simp [Table.insert, insertScalar, insertArray, namesOf, hold]

/-- Loading adds no symbols and keeps their order. -/
theorem namesOf_load (source : Values.Source) (log : Log) (kind : Kind) :
    (source.load t log).1.table.namesOf kind = t.namesOf kind := by
  rw [source.load_table]
  cases kind <;> exact Bindings.names_mapValues ..

/-! ## What the table lists -/

/-- Whether a table lists what has been registered, each name once for each kind and in the order in
    which they were registered first. -/
def Registers (symbols : List (String × Kind)) (t : Table) : Prop :=
  ∀ kind, t.namesOf kind = (ofKind kind symbols).eraseDups

theorem Registers.empty : Registers [] {} := by
  intro kind
  cases kind <;> rfl

/-- Every operation keeps a table that of what has been registered. -/
theorem Registers.perform (h : Registers symbols t) (operation : Operation) :
    Registers (operation.register symbols) (t.perform operation) := by
  intro kind'
  cases operation with
  | insert kind name =>
    show (t.insert kind name).namesOf kind' = (ofKind kind' (symbols ++ [(name, kind)])).eraseDups
    rw [namesOf_insert_eq, ofKind_concat, h kind, h kind', List.eraseDups_append]
    by_cases hkind : kind = kind'
    · obtain rfl := hkind
      by_cases hmem : name ∈ ofKind kind symbols <;>
        simp [hmem, List.removeAll, List.eraseDups_cons]
    · simp [hkind, List.removeAll]
  | load source => exact (namesOf_load source #[] kind').trans (h kind')
  | discover tokens =>
    cases hfound : (ofTokens tokens).result with
    | ok t' =>
      rw [Table.perform, Operation.register, hfound]
      exact ofTokens_namesOf hfound kind'
    | error fault =>
      rw [Table.perform, Operation.register, hfound]
      exact h kind'
  | evaluate text => exact h kind'

theorem registers_performed (operations : List Operation) :
    Registers (Operation.registered operations) (performed operations) := by
  have hfold : ∀ symbols t, Registers symbols t →
      Registers (operations.foldl Operation.register symbols) (operations.foldl perform t) := by
    induction operations with
    | nil => exact fun _ _ h => h
    | cons operation operations ih => exact fun _ _ h => ih _ _ (h.perform operation)
  exact hfold [] {} .empty

end

/-- No name is left twice where later ones are dropped. -/
theorem nodup_eraseDups (names : List String) : names.eraseDups.Nodup := by
  cases names with
  | nil => exact List.nodup_nil
  | cons name names =>
    rw [List.eraseDups_cons]
    apply List.nodup_cons.mpr
    exact ⟨by simp, nodup_eraseDups (names.filter fun n => !n == name)⟩
termination_by names.length
decreasing_by
  have hlen := List.length_filter_le (fun n => !n == name) names
  simp only [List.length_cons]
  omega

/-- After any operations, a table lists for each kind the names that have been registered as that
    kind since it was replaced for the last time, each once and in the order in which they were
    registered first. A name is there as both kinds exactly if it has been registered as both. -/
theorem performed_spec (operations : List Operation) :
    let t := performed operations
    let symbols := Operation.registered operations
    (∀ kind, t.namesOf kind = (ofKind kind symbols).eraseDups ∧ (t.namesOf kind).Nodup) ∧
      ∀ name, name ∈ t.namesOf .scalar ∧ name ∈ t.namesOf .array ↔
        (name, .scalar) ∈ symbols ∧ (name, .array) ∈ symbols := by
  intro t symbols
  have hregisters : Registers symbols t := registers_performed operations
  constructor
  · intro kind
    rw [hregisters kind]
    exact ⟨rfl, nodup_eraseDups _⟩
  · intro name
    rw [hregisters .scalar, hregisters .array, List.mem_eraseDups, List.mem_eraseDups, mem_ofKind,
      mem_ofKind]

/-- Registering `x` as a scalar and then as an array gives a table that has it as both. -/
theorem not_forall_performed_disjoint :
    ¬ ∀ operations, (∀ kind, ((performed operations).namesOf kind).Nodup) ∧
      ∀ name, ¬ (name ∈ (performed operations).namesOf .scalar ∧
        name ∈ (performed operations).namesOf .array) := by
  intro h
  apply (h [.insert .scalar "x", .insert .array "x"]).2 "x"
  exact ⟨by decide, by decide⟩

/-! ## Names that keep to their kinds -/

section

variable {t : Table} {name : String}

/-- Registering a symbol that a table has does nothing. -/
theorem insert_of_kind? {kind : Kind} (h : t.kind? name = some kind) : t.insert kind name = t := by
  have hmem := mem_namesOf_of_kind? h
  cases kind with
  | scalar =>
    rw [Table.insert, insertScalar, Bindings.insertNew,
      if_pos (Bindings.contains_iff_mem_names.mpr hmem)]
  | array =>
    rw [Table.insert, insertArray, Bindings.insertNew,
      if_pos (Bindings.contains_iff_mem_names.mpr hmem)]

/-- No operation adds a name twice, unless it registers a name that the table has as another
    kind. -/
theorem nodup_perform (hnodup : t.names.Nodup) {operation : Operation}
    (h : ∀ kind name known, operation = .insert kind name → t.kind? name = some known →
      known = kind) : (t.perform operation).names.Nodup := by
  cases operation with
  | insert kind name =>
    show (t.insert kind name).names.Nodup
    cases hknown : t.kind? name with
    | none =>
      rw [(names_insert kind hknown).nodup_iff]
      exact List.nodup_cons.mpr ⟨not_mem_names_iff.mpr hknown, hnodup⟩
    | some known =>
      obtain rfl := h kind name known rfl hknown
      rwa [insert_of_kind? hknown]
  | load source =>
    show ((source.load t #[]).1.table.namesOf .scalar ++
      (source.load t #[]).1.table.namesOf .array).Nodup
    rw [namesOf_load, namesOf_load]
    exact hnodup
  | discover tokens =>
    cases hfound : (ofTokens tokens).result with
    | ok t' =>
      rw [Table.perform, hfound]
      exact (discover_ok_fresh hfound).nodup
    | error fault =>
      rw [Table.perform, hfound]
      exact hnodup
  | evaluate text => exact hnodup

/-- As long as no name is registered that the table has as another kind, no name is there twice. -/
theorem nodup_performed {operations : List Operation}
    (h : ∀ earlier kind name later, operations = earlier ++ .insert kind name :: later →
      ∀ known, (performed earlier).kind? name = some known → known = kind) :
    (performed operations).names.Nodup := by
  induction operations using List.reverseRecOn with
  | nil => exact List.nodup_nil
  | append_singleton operations operation ih =>
    rw [performed, List.foldl_append]
    apply nodup_perform
    · apply ih
      intro earlier kind name later heq
      apply h earlier kind name (later ++ [operation])
      rw [heq, List.append_assoc, List.cons_append]
    · intro kind name known heq hknown
      exact h operations kind name [] (heq ▸ rfl) known hknown

end

end Reckon.Table
