import Reckon.Proofs.Loading
import Reckon.Proofs.Splitting

/-!
# What is done with an expression

The symbols of an expression are built, sources are loaded into its table, and it is evaluated, in
any order and any number of times, and copies of it are made on the way. What an expression is after
all that depends only on what has been done with it and with those that it is a copy of: its table
is that of its text with the sources that have been loaded since it was built for the last time.

## Key results

- `Table.WellFormed`: what holds of the table of an expression at all times
- `Expression.act_fst`: what an action does is all in the table
- `Expression.table_after_build`: what a table holds after it has been built for the last time
- `Session.run_spec`: the expressions of a session, and what they answer
-/

namespace Reckon

/-! ## Well-formed tables -/

namespace Bindings

variable {α : Type} {b : Bindings α} {name : String}

theorem not_mem_names_iff : name ∉ b.names ↔ b.get? name = none := by
  rw [← contains_iff_mem_names, contains, Bool.not_eq_true, Option.isSome_eq_false_iff,
    Option.isNone_iff_eq_none]

theorem entries_insertNew (h : b.get? name = none) (a : α) :
    (b.insertNew name a).entries = b.entries ++ [(name, a)] := by
  simp [insertNew, contains, h]

theorem names_insertNew (h : b.get? name = none) (a : α) :
    (b.insertNew name a).names = b.names ++ [name] := by
  rw [names, entries_insertNew h, List.map_append]
  rfl

end Bindings

namespace Table

/-- The names of a table, those of its scalars first. -/
def names (t : Table) : List String :=
  t.scalars.names ++ t.arrays.names

theorem not_mem_names_iff {t : Table} {name : String} :
    name ∉ t.names ↔ t.kind? name = none := by
  rw [names, List.mem_append, not_or, Bindings.not_mem_names_iff, Bindings.not_mem_names_iff,
    kind?_eq_none_iff]

/-- Adding a symbol adds one name. -/
theorem names_insert {t : Table} (kind : Kind) {name : String} (h : t.kind? name = none) :
    (t.insert kind name).names.Perm (name :: t.names) := by
  obtain ⟨hs, ha⟩ := kind?_eq_none_iff.mp h
  cases kind with
  | scalar =>
    simp only [Table.insert, insertScalar, names, Bindings.names_insertNew hs]
    exact (List.perm_append_singleton name _).append_right t.arrays.names
  | array =>
    simp only [Table.insert, insertArray, names, Bindings.names_insertNew ha, ← List.append_assoc]
    exact List.perm_append_singleton name _

/-- Whether a table is one that an expression can have: its names are runs of ASCII letters, none of
    which occurs twice or as two kinds, and its arrays are no longer than a values line may make
    them. -/
structure WellFormed (t : Table) : Prop where
  letters : ∀ name ∈ t.names, ∃ id : Identifier, id.text = name
  nodup : t.names.Nodup
  length_le : ∀ name cells, (name, cells) ∈ t.arrays.entries →
    ∀ length, cells.length? = some length → length ≤ 2 ^ 24

namespace WellFormed

variable {t : Table}

theorem empty : WellFormed {} :=
  ⟨nofun, .nil, nofun⟩

/-- A new name keeps a table well-formed. -/
theorem insert (h : t.WellFormed) (kind : Kind) (id : Identifier) (hnone : t.kind? id.text = none) :
    (t.insert kind id.text).WellFormed := by
  have hperm := names_insert kind hnone
  refine ⟨fun n hn => ?_, ?_, ?_⟩
  · rcases List.mem_cons.mp (hperm.mem_iff.mp hn) with rfl | hn
    · exact ⟨id, rfl⟩
    · exact h.letters n hn
  · rw [hperm.nodup_iff]
    exact List.nodup_cons.mpr ⟨not_mem_names_iff.mpr hnone, h.nodup⟩
  · intro n cells hmem length hlength
    cases kind with
    | scalar => exact h.length_le n cells hmem length hlength
    | array =>
      simp only [Table.insert, insertArray,
        Bindings.entries_insertNew (kind?_eq_none_iff.mp hnone).2] at hmem
      rcases List.mem_append.mp hmem with hmem | hmem
      · exact h.length_le n cells hmem length hlength
      · -- the new array is not loaded
        obtain ⟨rfl, rfl⟩ : n = id.text ∧ cells = .unloaded := by simpa using hmem
        cases hlength

/-- Setting some of the symbols keeps a table well-formed, unless an array is made too long. -/
theorem overwrite (h : t.WellFormed) {given : String → Option Values.Setting}
    (hgiven : ∀ name cells, (given name).bind Values.Setting.cells? = some cells →
      ∀ length, cells.length? = some length → length ≤ 2 ^ 24) :
    (t.overwrite given).WellFormed := by
  have hnames : (t.overwrite given).names = t.names := by simp [names, Table.overwrite]
  refine ⟨hnames ▸ h.letters, hnames ▸ h.nodup, fun name cells hmem length hlength => ?_⟩
  obtain ⟨old, hold, rfl | rfl⟩ := Bindings.exists_of_mem_mapValues hmem
  · exact h.length_le name cells hold length hlength
  · cases hset : (given name).bind Values.Setting.cells? with
    | none =>
      rw [hset, Option.getD_none] at hlength
      exact h.length_le name old hold length hlength
    | some cells =>
      rw [hset, Option.getD_some] at hlength
      exact hgiven name cells hset length hlength

/-- Loading a source keeps a table well-formed, whatever the source delivers. -/
theorem load (h : t.WellFormed) (source : Values.Source) (log : Log) :
    (source.load t log).1.table.WellFormed := by
  rw [source.load_table]
  exact h.overwrite fun _ _ hset _ hlength => Values.Line.length?_le_of_last? hset hlength

/-- The symbols of a text make a well-formed table. -/
theorem ofText {text : String} (h : Table.ofText text = .ok t) : t.WellFormed := by
  refine discover_ok_of_insert (fun t kind name offset hname hnone ht => ?_) empty h
  obtain ⟨id, rfl⟩ := Token.identifier_of_mem_scan hname
  exact ht.insert kind id hnone

end WellFormed

end Table

/-! ## Actions -/

namespace Expression

/-- What can be done with an expression. -/
inductive Action where
  /-- The table of its symbols is built. -/
  | build
  /-- A source of values is loaded into its table. -/
  | load (source : Values.Source)
  /-- It is evaluated. -/
  | evaluate

/-- What an action answers. -/
inductive Answer where
  | built (outcome : Except Fault Unit)
  | loaded (outcome : Except Values.LoadError Unit)
  | evaluated (outcome : Except Fault Float)

/-- An expression after an action, and what the action answers. An expression whose symbols cannot
    be built is left as it is. -/
def act (x : Expression) : Action → Expression × Answer
  | .build =>
    match x.build.result with
    | .ok built => (built, .built (.ok ()))
    | .error fault => (x, .built (.error fault))
  | .load source =>
    let (loaded, outcome) := (x.load source #[]).1
    (loaded, .loaded outcome)
  | .evaluate => (x, .evaluated x.eval.result)

/-- The expression of a text after some actions, the first of which was the first to be done. -/
def after (text : String) (history : List Action) : Expression :=
  history.foldl (fun x action => (x.act action).1) (.ofText text)

/-- The sources that have been loaded by some actions. -/
def Action.sources (actions : List Action) : List Values.Source :=
  actions.filterMap fun
    | .load source => some source
    | _ => none

end Expression

/-- The table after an action, given what discovery finds in the text. -/
def Table.advance (discovered : Except Fault Table) (t : Table) : Expression.Action → Table
  | .build => discovered.toOption.getD t
  | .load source => (source.load t #[]).1.table
  | .evaluate => t

/-- The table after some sources have been loaded into it, one after the other. -/
def Table.loadAll (t : Table) (sources : List Values.Source) : Table :=
  sources.foldl (fun t source => (source.load t #[]).1.table) t

namespace Expression

variable {text : String}

/-- Building answers what discovery finds, and replaces the table if there is no conflict. -/
theorem act_build (x : Expression) :
    x.act .build = (match (Table.ofTokens x.formula.tokens).result with
      | .ok t => ({ x with table := t }, .built (.ok ()))
      | .error fault => (x, .built (.error fault))) := by
  rw [act, build_result]
  cases (Table.ofTokens x.formula.tokens).result <;> rfl

/-- What an action does is all in the table. -/
theorem act_fst (x : Expression) (action : Action) :
    (x.act action).1 =
      { x with table := x.table.advance (Table.ofTokens x.formula.tokens).result action } := by
  cases action with
  | build =>
    rw [act_build]
    cases hfound : (Table.ofTokens x.formula.tokens).result <;> rfl
  | load source => rfl
  | evaluate => rfl

/-- The text and its tokens stay the same, and the table goes through the actions. -/
theorem after_eq (history : List Action) :
    after text history =
      { ofText text with table := history.foldl (Table.advance (Table.ofText text)) {} } := by
  have hfold : ∀ x : Expression, x.formula = .ofText text →
      history.foldl (fun x action => (x.act action).1) x =
        { x with table := history.foldl (Table.advance (Table.ofText text)) x.table } := by
    induction history with
    | nil => exact fun x _ => rfl
    | cons action history ih =>
      intro x hx
      rw [List.foldl_cons, act_fst, ih, hx]
      · rfl
      · exact hx
  exact hfold (ofText text) rfl

end Expression

/-! ## Tables over time -/

namespace Table

open Expression (Action)

variable {discovered : Except Fault Table} {t : Table} {actions : List Action}

/-- Actions that do not build the table load their sources into it. -/
theorem foldl_advance_of_not_mem (h : .build ∉ actions) :
    actions.foldl (advance discovered) t = t.loadAll (Action.sources actions) := by
  induction actions generalizing t with
  | nil => rfl
  | cons action actions ih =>
    obtain ⟨hne, hnot⟩ := List.ne_and_not_mem_of_not_mem_cons h
    rw [List.foldl_cons, ih hnot]
    cases action with
    | build => exact absurd rfl hne
    | load source => rfl
    | evaluate => rfl

/-- A table without symbols stays empty, whatever is loaded. -/
theorem load_empty (source : Values.Source) (log : Log) :
    (source.load {} log).1.table = {} := by
  rw [source.load_table]
  rfl

/-- A table is empty as long as it has not been built. -/
theorem foldl_advance_empty (h : .build ∉ actions ∨ ∃ fault, discovered = .error fault) :
    actions.foldl (advance discovered) {} = {} := by
  have hstep : ∀ action ∈ actions, advance discovered {} action = {} := by
    intro action hmem
    cases action with
    | build =>
      rcases h with hnot | ⟨fault, rfl⟩
      · exact absurd hmem hnot
      · rfl
    | load source => exact load_empty source #[]
    | evaluate => rfl
  clear h
  induction actions with
  | nil => rfl
  | cons action actions ih =>
    rw [List.foldl_cons, hstep action List.mem_cons_self]
    exact ih fun a ha => hstep a (List.mem_cons_of_mem _ ha)

/-- Every action keeps a table well-formed, if discovery gives a well-formed one. -/
theorem WellFormed.advance (h : t.WellFormed)
    (hdiscovered : ∀ t', discovered = .ok t' → t'.WellFormed) (action : Action) :
    (t.advance discovered action).WellFormed := by
  cases action with
  | build =>
    cases discovered with
    | ok t' => exact hdiscovered t' rfl
    | error fault => exact h
  | load source => exact h.load source #[]
  | evaluate => exact h

/-- A table stays well-formed, whatever is done with it. -/
theorem WellFormed.foldl_advance (h : t.WellFormed)
    (hdiscovered : ∀ t', discovered = .ok t' → t'.WellFormed) (actions : List Action) :
    (actions.foldl (Table.advance discovered) t).WellFormed := by
  induction actions generalizing t with
  | nil => exact h
  | cons action actions ih => exact ih (h.advance hdiscovered action)

end Table

namespace Expression

variable {text : String}

theorem table_after_empty {history : List Action}
    (h : .build ∉ history ∨ ∃ fault, Table.ofText text = .error fault) :
    (after text history).table = {} := by
  rw [after_eq]
  exact Table.foldl_advance_empty h

/-- After it has been built for the last time, a table holds the symbols of its text with the values
    that have been loaded since. -/
theorem table_after_build {before since : List Action} {t : Table} (hnot : .build ∉ since)
    (ht : Table.ofText text = .ok t) :
    (after text (before ++ .build :: since)).table = t.loadAll (Action.sources since) := by
  rw [after_eq, List.foldl_append, List.foldl_cons, ht]
  exact Table.foldl_advance_of_not_mem hnot

theorem wellFormed_after (history : List Action) : (after text history).table.WellFormed := by
  rw [after_eq]
  exact Table.WellFormed.empty.foldl_advance (fun _ => .ofText) history

end Expression

/-! ## Sessions -/

namespace Session

open Expression (Action)

/-- A step of a session. -/
inductive Step where
  /-- Something is done with the expression at an index. -/
  | act (index : Nat) (action : Action)
  /-- A copy is made of the expression at an index, and comes after all others. -/
  | clone (index : Nat)

variable {σ τ : Type}

/-- The objects of a session after a step, given what an action makes of an object. -/
def step (act : σ → Action → σ) (objects : List σ) : Step → List σ
  | .act index action => objects.modify index (act · action)
  | .clone index => objects ++ objects[index]?.toList

/-- The objects of a session that starts with one of them. -/
def run (act : σ → Action → σ) (start : σ) (steps : List Step) : List σ :=
  steps.foldl (step act) [start]

/-- A session of objects that follow other objects follows the session of the others. -/
theorem run_map {f : σ → τ} {act : σ → Action → σ} {act' : τ → Action → τ}
    (h : ∀ s action, f (act s action) = act' (f s) action) (start : σ) (steps : List Step) :
    run act' (f start) steps = (run act start steps).map f := by
  have hstep : ∀ objects s, step act' (objects.map f) s = (step act objects s).map f := by
    intro objects s
    cases s with
    | act index action =>
      refine List.ext_getElem? fun i => ?_
      simp only [step, List.getElem?_modify, List.getElem?_map]
      cases objects[i]? with
      | none => rfl
      | some s => split <;> simp [h]
    | clone index =>
      simp only [step, List.map_append, List.getElem?_map]
      cases objects[index]? <;> rfl
  show steps.foldl (step act') ([start].map f) = _
  exact List.foldl_hom (List.map f) hstep

/-- Each expression of a session is what its own history has made of it, where a copy has the
    history of its original. -/
theorem run_eq_after (text : String) (steps : List Step) :
    run (fun x action => (Expression.act x action).1) (.ofText text) steps =
      (run (fun history action => history ++ [action]) [] steps).map (Expression.after text) := by
  have hact : ∀ history action, Expression.after text (history ++ [action]) =
      ((Expression.after text history).act action).1 := by
    intro history action
    simp [Expression.after]
  exact run_map (f := Expression.after text) hact [] steps

/-- In every session of a text, each expression is what its own history has made of it. Whatever has
    been done with it, building answers the same, and leaves it as it is if there is a conflict. As
    long as no build has succeeded, its table is empty, and from then on it holds the symbols of the
    text with the sources that have been loaded since the last build. Its table is well-formed, and
    evaluating it gives the value of its text with its table. -/
theorem run_spec (text : String) :
    (∀ steps, run (fun x action => (Expression.act x action).1) (.ofText text) steps =
      (run (fun history action => history ++ [action]) [] steps).map (Expression.after text)) ∧
    ∀ history : List Action,
      let x := Expression.after text history
      (x.act .build).2 = .built ((Table.ofText text).map fun _ => ()) ∧
      (∀ fault, Table.ofText text = .error fault →
        (∃ name, fault.cause = .kindConflict name) ∧ (x.act .build).1 = x) ∧
      (.build ∉ history ∨ (∃ fault, Table.ofText text = .error fault) → x.table = {}) ∧
      (∀ before since t, history = before ++ .build :: since → .build ∉ since →
        Table.ofText text = .ok t → x.table = t.loadAll (Action.sources since)) ∧
      x.table.WellFormed ∧
      (x.act .evaluate).2 = .evaluated (evaluate text x.table) := by
  refine ⟨run_eq_after text, fun history => ?_⟩
  intro x
  have hx : x.formula = .ofText text := congrArg Expression.formula (Expression.after_eq history)
  have hbuild : x.act .build = (match Table.ofText text with
      | .ok t => ({ x with table := t }, .built (.ok ()))
      | .error fault => (x, .built (.error fault))) := by
    rw [Expression.act_build, hx]
    rfl
  refine ⟨?_, fun fault hfault => ⟨Table.discover_eq_error hfault, ?_⟩,
    Expression.table_after_empty, ?_, Expression.wellFormed_after history, ?_⟩
  · rw [hbuild]
    cases Table.ofText text <;> rfl
  · rw [hbuild, hfault]
  · rintro before since t rfl hnot ht
    exact Expression.table_after_build hnot ht
  · simp only [Expression.act, Expression.eval, hx]
    rfl

/-- Of the values that are loaded into `x+y`, those from before it is built again are lost, and none
    are loaded before it is built, or into `x+x[1]`, which cannot be built. -/
theorem run_spec_rebuilt :
    let x := Values.Source.ofText "x 1"
    let y := Values.Source.ofText "y 2"
    (Expression.after "x+y" [.load x]).table = {} ∧
      (∃ t, Table.ofText "x+y" = .ok t ∧
        (Expression.after "x+y" [.build, .load x, .build, .evaluate, .load y]).table =
          t.loadAll [y]) ∧
      (Expression.after "x+x[1]" [.build, .load x]).table = {} := by
  intro x y
  have hbuilds : (Table.ofText "x+y").toBool = true := by decide +kernel
  have hfails : (Table.ofText "x+x[1]").toBool = false := by decide +kernel
  refine ⟨?_, ?_, ?_⟩
  · exact ((run_spec "x+y").2 _).2.2.1 (Or.inl (by simp))
  · cases ht : Table.ofText "x+y" with
    | ok t =>
      exact ⟨t, rfl, ((run_spec "x+y").2 _).2.2.2.1 [.build, .load x] [.evaluate, .load y] t rfl
        (by simp) ht⟩
    | error fault =>
      rw [ht] at hbuilds
      exact nomatch hbuilds
  · cases ht : Table.ofText "x+x[1]" with
    | ok t =>
      rw [ht] at hfails
      exact nomatch hfails
    | error fault => exact ((run_spec "x+x[1]").2 _).2.2.1 (Or.inr ⟨fault, ht⟩)

end Session

end Reckon
