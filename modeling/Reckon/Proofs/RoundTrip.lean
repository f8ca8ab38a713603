import Reckon.Expression
import Reckon.Proofs.Acceptance
import Reckon.Proofs.Parsing

/-!
# Evaluating what is printed

An expression and an environment for it are printed, and the two texts are given to `value`. All
the work on them, scanning, discovery, loading and evaluation, undoes the printing: what comes out
is the value of the expression in the environment.

## Key results

- `Environment.ListedBy.holds`: a table holds an environment once its entries are loaded
- `value_printed`: the value of what is printed is the value of what was printed
-/

namespace Reckon

/-! ## Loading what is printed -/

/-- Whether an environment gives something to names only that are used as the kinds they have in
    it. -/
structure Environment.IsFor (env : Environment) (uses : List (String × Kind)) : Prop where
  scalar : ∀ name n, env.scalar? name = some n → (name, .scalar) ∈ uses
  array : ∀ name row, env.row? name = some row → (name, .array) ∈ uses

/-- The names that an expression uses are names that it can contain. -/
theorem Expr.identifier_of_mem_uses {e : Expr} {name : String} {kind : Kind}
    (h : (name, kind) ∈ e.uses) : ∃ id : Identifier, id.text = name := by
  induction e with
  | literal l => exact nomatch h
  | scalar id =>
    rw [uses, List.mem_singleton, Prod.mk.injEq] at h
    exact ⟨id, h.1.symm⟩
  | cell id subscript ih =>
    rw [uses, List.mem_cons, Prod.mk.injEq] at h
    exact h.elim (fun h => ⟨id, h.1.symm⟩) ih
  | binary op left right ihl ihr =>
    rw [uses, List.mem_append] at h
    exact h.elim ihl ihr

namespace Environment.ListedBy

open Values

variable {env : Environment} {entries : List Entry} {e : Expr}

/-- The entries of an environment for an expression are accepted by its symbols. -/
theorem readable (h : env.ListedBy entries) (hfor : env.IsFor e.uses) {kind? : String → Option Kind}
    (hkinds : ∀ name kind, (name, kind) ∈ e.uses → kind? name = some kind) :
    ∀ entry ∈ entries, entry.Readable kind? := by
  intro entry hentry
  cases entry with
  | scalar name n =>
    have hn := (h.scalar_mem_iff name n).mp hentry
    have huse := hfor.scalar name n hn
    exact ⟨Expr.identifier_of_mem_uses huse, env.exact hn, hkinds name .scalar huse⟩
  | array name length pairs =>
    obtain ⟨row, hrow, rfl, -, hpairs⟩ := h.of_array_mem name length pairs hentry
    have huse := hfor.array name row hrow
    refine ⟨Expr.identifier_of_mem_uses huse, ⟨row.length_le, fun pair hpair => ?_⟩,
      hkinds name .array huse⟩
    have hcell := (hpairs pair.1 pair.2).mp hpair
    exact ⟨row.lt_length hcell, row.exact hcell⟩

/-- A name that is given nothing is on no line. -/
theorem name_not_mem (h : env.ListedBy entries) {name : String} (hscalar : env.scalar? name = none)
    (harray : env.row? name = none) : name ∉ entries.map Entry.name := by
  intro hmem
  obtain ⟨entry, hentry, rfl⟩ := List.mem_map.mp hmem
  cases entry with
  | scalar name n => exact nomatch hscalar.symm.trans ((h.scalar_mem_iff name n).mp hentry)
  | array name length pairs =>
    obtain ⟨row, hrow, -⟩ := h.of_array_mem name length pairs hentry
    exact nomatch harray.symm.trans hrow

/-- The row of cells that an entry sets is the row that the environment gives. -/
theorem cellsOf_get? (h : env.ListedBy entries) {name : String} {length : Nat}
    {pairs : List (Nat × Int)} (hentry : .array name length pairs ∈ entries) {row : Row}
    (hrow : env.row? name = some row) {i : Nat} (hlt : i < row.length) :
    (Setting.cellsOf row.length
        (pairs.map fun (index, value) => (index, Binary64.ofInteger value))).get? i =
      some (row.value i) := by
  obtain ⟨row', hrow', rfl, hnodup, hpairs⟩ := h.of_array_mem name length pairs hentry
  obtain rfl : row = row' := Option.some.inj (hrow.symm.trans hrow')
  -- the pairs of an entry are about the same cells as those that it sets
  have hsame : ∀ {ps : List (Nat × Int)} {y : Float},
      (i, y) ∈ ps.map (fun (index, value) => (index, Binary64.ofInteger value)) →
      ∃ n, (i, n) ∈ ps := by
    intro ps y hmem
    obtain ⟨⟨j, n⟩, hpair, heq⟩ := List.mem_map.mp hmem
    exact ⟨n, (Prod.mk.inj heq).1 ▸ hpair⟩
  unfold Row.value
  cases hcell : row.cell? i with
  | none =>
    -- a cell that is given nothing keeps the zero that it has been allocated with
    refine Setting.get?_cellsOf_of_not_mem hlt fun y hmem => ?_
    obtain ⟨n, hpair⟩ := hsame hmem
    rw [(hpairs i n).mp hpair] at hcell
    exact nomatch hcell
  | some n =>
    obtain ⟨earlier, later, rfl⟩ := List.append_of_mem ((hpairs i n).mpr hcell)
    rw [List.map_append, List.map_cons] at hnodup ⊢
    -- each cell is given a value once, so the pairs after this one are about others
    obtain ⟨hnot, -⟩ := List.nodup_cons.mp (List.nodup_append.mp hnodup).2.1
    refine Setting.get?_cellsOf_of_last hlt fun y hmem => hnot ?_
    obtain ⟨m, hpair⟩ := hsame hmem
    exact List.mem_map.mpr ⟨_, hpair, rfl⟩

/-- The last line about a scalar sets what the environment gives it. -/
theorem last?_scalar (h : env.ListedBy entries) {kind? : String → Option Kind}
    (hread : ∀ entry ∈ entries, entry.Readable kind?) {name : String}
    (hrow : env.row? name = none) :
    Line.last? kind? (entries.map Entry.text) name =
      (env.scalar? name).map fun n => .scalar name (Binary64.ofInteger n) := by
  cases hn : env.scalar? name with
  | none => exact Entry.last?_of_not_mem hread (h.name_not_mem hn hrow)
  | some n => exact Entry.last?_of_mem hread h.nodup ((h.scalar_mem_iff name n).mpr hn)

/-- The table of an expression holds an environment once the entries of it are loaded. -/
theorem holds (h : env.ListedBy entries) (hfor : env.IsFor e.uses) {t : Table} (hunset : t.Unset)
    (hkinds : ∀ name kind, (name, kind) ∈ e.uses → t.kind? name = some kind) :
    (t.overwrite (Line.last? t.kind? (entries.map Entry.text))).Holds env e.uses := by
  have hread := h.readable hfor hkinds
  -- a scalar is given no row, and an array is given no value
  have hrow : ∀ name, (name, .scalar) ∈ e.uses → env.row? name = none := by
    intro name huse
    refine Option.eq_none_iff_forall_ne_some.mpr fun row hrow => ?_
    have hkind := hkinds name .array (hfor.array name row hrow)
    exact nomatch hkind.symm.trans (hkinds name .scalar huse)
  have hscalar : ∀ name, (name, .array) ∈ e.uses → env.scalar? name = none := by
    intro name huse
    refine Option.eq_none_iff_forall_ne_some.mpr fun n hn => ?_
    have hkind := hkinds name .scalar (hfor.scalar name n hn)
    exact nomatch hkind.symm.trans (hkinds name .array huse)
  have hcells : ∀ name (row : Row) pairs, (name, .array) ∈ e.uses →
      .array name row.length pairs ∈ entries →
      (t.overwrite (Line.last? t.kind? (entries.map Entry.text))).cells name =
        Setting.cellsOf row.length
          (pairs.map fun (index, value) => (index, Binary64.ofInteger value)) := by
    intro name row pairs huse hentry
    have hlast : Line.last? t.kind? (entries.map Entry.text) name =
        some (Entry.array name row.length pairs).setting :=
      Entry.last?_of_mem hread h.nodup hentry
    rw [Table.cells_overwrite (hkinds name .array huse), hlast]
    rfl
  constructor
  · intro name huse
    rw [Table.scalarValue_overwrite (hkinds name .scalar huse),
      h.last?_scalar hread (hrow name huse), (hunset name).1, Environment.value]
    cases env.scalar? name <;> rfl
  · intro name huse
    cases hgiven : env.row? name with
    | none =>
      rw [Table.cells_overwrite (hkinds name .array huse),
        Entry.last?_of_not_mem hread (h.name_not_mem (hscalar name huse) hgiven), (hunset name).2]
      rfl
    | some row =>
      obtain ⟨pairs, hentry⟩ := h.array_mem name row hgiven
      simp [hcells name row pairs huse hentry, Setting.length?_cellsOf]
  · intro name row huse hgiven i hlt
    obtain ⟨pairs, hentry⟩ := h.array_mem name row hgiven
    rw [hcells name row pairs huse hentry]
    exact h.cellsOf_get? hentry hgiven hlt

end Environment.ListedBy

/-! ## The value of what is printed -/

/-- Whether no name of an expression is used both as a scalar and as an array. -/
def Expr.Consistent (e : Expr) : Prop :=
  ∀ name kind kind', (name, kind) ∈ e.uses → (name, kind') ∈ e.uses → kind = kind'

/-- A text whose symbols cannot be discovered has no value, and no values are loaded. -/
theorem value_of_fault {text : String} {fault : Fault} (h : Table.ofText text = .error fault)
    (source : Option Values.Source) : value text source = .error (.expression fault) := by
  have hbuild : (Expression.ofText text).build.result = .error fault := by
    rw [Expression.build_ofText, h]
    rfl
  simp only [value, hbuild, Except.mapError, error_bind]

/-- A text whose symbols can be discovered is built with the table of these. -/
theorem Expression.build_of_table {text : String} {t : Table} (h : Table.ofText text = .ok t) :
    (Expression.ofText text).build.result = .ok { Expression.ofText text with table := t } := by
  rw [Expression.build_ofText, h]
  rfl

/-- Without any values, the value is that with the table of the symbols. -/
theorem value_none {text : String} {t : Table} (h : Table.ofText text = .ok t) :
    value text none = (evaluate text t).mapError .expression := by
  simp only [value, Expression.build_of_table h, Except.mapError, ok_bind]
  rfl

/-- The value is that with the table which a load leaves, unless the load has an error. -/
theorem value_of_table {text : String} {t : Table} (h : Table.ofText text = .ok t)
    (source : Values.Source) :
    value text (some source) =
      match (source.load t #[]).1.outcome with
      | .ok () => (evaluate text (source.load t #[]).1.table).mapError .expression
      | .error error => .error (.values error) := by
  have hload : (({ Expression.ofText text with table := t } : Expression).load source #[]).1 =
      ({ Expression.ofText text with table := (source.load t #[]).1.table },
        (source.load t #[]).1.outcome) := rfl
  simp only [value, Expression.build_of_table h, Except.mapError, ok_bind, hload]
  cases (source.load t #[]).1.outcome <;> rfl

/-- With values that load without an error, the value is that of the expression with the table that
    they leave. -/
theorem value_of_load {text : String} {source : Values.Source} {t t' : Table}
    (htable : Table.ofText text = .ok t) (hload : (source.load t #[]).1 = { table := t' }) :
    value text (some source) =
      ((Formula.ofText text).eval t').result.mapError .expression := by
  rw [value_of_table htable, hload]
  rfl

/-- A text whose tokens have a parse tree that is not nested too deep evaluates as the tree. -/
theorem evaluate_of_derives {text : String} {tree : Tree}
    (ht : Derives .sum (Token.scan text).toList tree) (hd : tree.depth ≤ greatestDepth)
    (t : Table) : evaluate text t = tree.eval t := by
  have hderives : Derives .sum
      (slice (Formula.ofText text).tokens 0 (Formula.ofText text).tokens.size) tree := by
    rwa [slice_zero_size, Formula.ofText]
  exact Evaluation.evalSpan_result_of_derives (e := { Formula.ofText text with table := t })
    (Nat.le_refl _) hderives hd

/-- What is printed evaluates as the expression, with any table that holds the environment. -/
theorem Formula.eval_printed {e : Expr} {env : Environment} {t : Table} (ht : t.Holds env e.uses)
    {gap : Nat → List Char} (hgap : ∀ i, ∀ c ∈ gap i, c = ' ' ∨ c = '\t')
    (hdepth : Piece.nesting 0 e.pieces ≤ greatestDepth) :
    ((Formula.ofText (String.ofList (Piece.spread gap 0 e.pieces))).eval t).result =
      e.eval env (Piece.offsetIn gap e.pieces) 0 := by
  -- the tokens of the text are those of the pieces, which have the tree of the expression
  have hderives : Derives .sum
      (Token.scan (String.ofList (Piece.spread gap 0 e.pieces))).toList
      (e.tree (Piece.offsetIn gap e.pieces) 0) := by
    rw [Piece.scan_spread hgap e.isChain_pieces]
    exact .of_precedence_le (Phrase.sum_le _) (e.derives_pieces _ 0)
  -- the tree is not nested too deep, since the brackets that are printed are not
  have hnesting := e.nesting_pieces (Piece.offsetIn gap e.pieces) 0 0 []
  rw [List.append_nil] at hnesting
  rw [← Expr.eval_tree ht e (fun _ hu => hu)]
  exact evaluate_of_derives hderives (by omega) t

/-- An expression and an environment for it are printed, with any blanks between the tokens of the
    expression and with the lines and the pairs of the environment in any order. The value of what
    is printed is the value of the expression in the environment, or the fault of its first
    subscript that is not valid. -/
theorem value_printed (e : Expr) (he : e.Consistent) (env : Environment) (hfor : env.IsFor e.uses)
    {entries : List Values.Entry} (hlist : env.ListedBy entries) {gap : Nat → List Char}
    (hgap : ∀ i, ∀ c ∈ gap i, c = ' ' ∨ c = '\t')
    (hdepth : Piece.nesting 0 e.pieces ≤ greatestDepth) :
    value (String.ofList (Piece.spread gap 0 e.pieces))
        (some (.ofText (Values.Entry.texts entries))) =
      (e.eval env (Piece.offsetIn gap e.pieces) 0).mapError .expression := by
  have hscan := Piece.scan_spread hgap e.isChain_pieces
  have huses : Table.uses (Token.scan (String.ofList (Piece.spread gap 0 e.pieces))).toList =
      e.uses := by
    have hplaced : Table.uses (Piece.placed (Piece.offsetIn gap e.pieces) 0 e.pieces ++ []) =
        e.uses ++ Table.uses [] := e.uses_placed _ 0 rfl
    rw [hscan]
    simpa [Table.uses] using hplaced
  -- the symbols are the names of the expression, and loading gives them what the environment does
  obtain ⟨t, hok, hunset, hkinds⟩ := Table.ofTokens_result_of_consistent (by rwa [huses])
  rw [huses] at hkinds
  have hkinds' := fun name kind => (hkinds name kind).mpr
  have hload := Values.Entry.load_texts (hlist.readable hfor hkinds') #[]
  have hholds := hlist.holds hfor hunset hkinds'
  rw [value_of_load hok hload, Formula.eval_printed hholds hgap hdepth]

/-- The value of `A[x] / (x - 2) + 3 * x`, printed with some blanks, where `x` is 1 and `A` has two
    cells, of which the last is 7. -/
theorem value_printed_quotient :
    let x : Identifier := ⟨"x", by simp, by simp⟩
    let two : Literal := ⟨⟨['2'], none, []⟩, ⟨by simp, by simp, by simp, rfl⟩⟩
    let three : Literal := ⟨⟨['3'], none, []⟩, ⟨by simp, by simp, by simp, rfl⟩⟩
    let e : Expr := .binary .add
      (.binary .div (.cell ⟨"A", by simp, by simp⟩ (.scalar x))
        (.binary .sub (.scalar x) (.literal two)))
      (.binary .mul (.literal three) (.scalar x))
    let row : Row := ⟨2, fun i => if i = 1 then some 7 else none, by decide, by grind,
      by grind [Binary64.greatestExact]⟩
    let env : Environment := ⟨fun name => if name = "x" then some 1 else none,
      fun name => if name = "A" then some row else none,
      by grind [Binary64.greatestExact]⟩
    let gap : Nat → List Char := fun i => if i = 4 then [' '] else if i = 9 then ['\t'] else []
    e.eval env (Piece.offsetIn gap e.pieces) 0 = .ok (-4) ∧
      value "A[x] /(x-2\t)+3*x" (some (.ofText "A 2 (1,7)\nx 1\n")) = .ok (-4) := by
  intro x two three e row env gap
  have huses : e.uses = [("A", .array), ("x", .scalar), ("x", .scalar), ("x", .scalar)] := rfl
  have htext : String.ofList (Piece.spread gap 0 e.pieces) = "A[x] /(x-2\t)+3*x" := by
    decide +kernel
  have hvalues : Values.Entry.texts [.array "A" 2 [(1, 7)], .scalar "x" 1] =
      "A 2 (1,7)\nx 1\n" := by decide +kernel
  have hlist : env.ListedBy [.array "A" 2 [(1, 7)], .scalar "x" 1] := by
    refine ⟨by decide, ?_, ?_, ?_⟩
    · intro name n
      simp only [List.mem_cons, List.not_mem_nil, reduceCtorEq, Values.Entry.scalar.injEq,
        false_or, or_false, env]
      grind
    · intro name r hr
      have hname : name = "A" ∧ r = row := by grind
      exact ⟨[(1, 7)], by simp [hname, row]⟩
    · intro name length pairs hmem
      obtain ⟨rfl, rfl, rfl⟩ : name = "A" ∧ length = 2 ∧ pairs = [(1, 7)] := by
        simpa using hmem
      refine ⟨row, rfl, rfl, by decide, fun i n => ?_⟩
      simp only [List.mem_singleton, Prod.mk.injEq, row]
      grind
  have heval : e.eval env (Piece.offsetIn gap e.pieces) 0 = .ok (-4) :=
    toOption_eq_some_iff.mp (by decide +kernel)
  refine ⟨heval, ?_⟩
  have hvalue : value (String.ofList (Piece.spread gap 0 e.pieces))
      (some (.ofText (Values.Entry.texts [.array "A" 2 [(1, 7)], .scalar "x" 1]))) =
        (e.eval env (Piece.offsetIn gap e.pieces) 0).mapError .expression := by
    refine value_printed e ?_ env ⟨?_, ?_⟩ hlist ?_ (by decide +kernel)
    · rw [Expr.Consistent, huses]
      grind
    · rw [huses]
      grind
    · rw [huses]
      grind
    · grind
  rw [← htext, ← hvalues, hvalue, heval]
  rfl

end Reckon
