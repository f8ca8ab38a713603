import Reckon.CommandLine
import Reckon.Proofs.Conflicts
import Reckon.Proofs.Reporting
import Reckon.Proofs.RoundTrip

/-!
# What the program prints

The program prints the value of an expression as `value` has it. The one difference is that it does
not give up on a values file with lines that fail: it prints what is wrong with them, and goes on
with the lines that are accepted. The symbols are printed in the order of their first use.

## Key results

- `Loaded.loadLines_table`: lines apply what those of them set that are accepted
- `valueLogged_of_table`: how the value with all that is reported ends, and what is reported
- `Invocation.run_of_table`: what is printed for an expression whose symbols can be discovered
- `Invocation.run_follows_value`: what is printed, for each way in which `value` can end
-/

namespace Reckon

namespace Values

/-! ## What the accepted lines set -/

namespace Line

/-- What a line sets, if it is accepted and sets anything. -/
def setting? (kind? : String → Option Kind) (line : String) : Option Setting :=
  match read kind? line with
  | .ok (.sets setting) => some setting
  | _ => none

/-- What the lines set that are accepted, in the order of the lines. -/
def settings (kind? : String → Option Kind) (lines : List String) : List Setting :=
  lines.filterMap (setting? kind?)

end Line

end Values

/-- The table after all that the accepted ones of some lines set. -/
def Table.withAccepted (t : Table) (lines : List String) : Table :=
  (Values.Line.settings t.kind? lines).foldl (fun t setting => setting.applyTo t) t

/-- Settings keep the symbols of a table, and their order. -/
theorem Table.namesOf_withAccepted (t : Table) (lines : List String) (kind : Kind) :
    (t.withAccepted lines).namesOf kind = t.namesOf kind := by
  have hstep : ∀ (s : Values.Setting) (t : Table), (s.applyTo t).namesOf kind = t.namesOf kind := by
    intro s t
    cases s <;> cases kind <;>
      simp [Values.Setting.applyTo, Table.setScalar, Table.setCells, Table.namesOf]
  have hfold : ∀ (settings : List Values.Setting) (t : Table),
      (settings.foldl (fun t s => s.applyTo t) t).namesOf kind = t.namesOf kind := by
    intro settings
    induction settings with
    | nil => exact fun t => rfl
    | cons s settings ih => exact fun t => (ih (s.applyTo t)).trans (hstep s t)
  exact hfold _ t

/-- Whatever is set, the symbols of a text are in the order of their first use. -/
theorem Table.namesOf_withAccepted_ofText {t : Table} {text : String} (h : ofText text = .ok t)
    (lines : List String) (kind : Kind) :
    (t.withAccepted lines).namesOf kind = (usedAs kind (Token.scan text).toList).eraseDups := by
  rw [namesOf_withAccepted, ofTokens_namesOf h]

namespace Values

/-- A line applies what it sets, if it is accepted, and else leaves the table as it is. -/
theorem Loaded.load_table (loaded : Loaded) (number : Nat) (line : String) (log : Log) :
    (loaded.load number line log).1.table = loaded.table.withAccepted [line] := by
  unfold load Table.withAccepted Line.settings Line.setting?
  rw [List.filterMap_cons, List.filterMap_nil]
  cases Line.read loaded.table.kind? line with
  | error cause => rfl
  | ok line' => cases line' <;> rfl

/-- Lines apply what they set one after the other. -/
theorem Loaded.loadLines_table (loaded : Loaded) (number : Nat) (lines : List String) (log : Log) :
    (loaded.loadLines number lines log).1.table = loaded.table.withAccepted lines := by
  -- Induction on the lines. Which of them are accepted can be said beforehand, since the kinds of
  -- the names stay as they are.
  induction lines generalizing loaded number log with
  | nil => rfl
  | cons line lines ih =>
    have hkinds : (loaded.load number line log).1.table.kind? = loaded.table.kind? := by
      rw [load_fst]
      exact Table.kind?_overwrite _ _
    rw [loadLines_cons, ih, Table.withAccepted, hkinds, load_table]
    -- what the first line sets comes before what the others do
    simp only [Table.withAccepted, Line.settings]
    rw [← List.foldl_append, ← List.filterMap_append, List.singleton_append]

namespace Source

/-- A load of a text applies what its accepted lines set. -/
theorem load_ofText_table (v : String) (t : Table) (log : Log) :
    ((ofText v).load t log).1.table = t.withAccepted (Text.lines v) := by
  rw [load_ofText, Loaded.loadLines_table]

variable {source : Source} {t : Table} {log : Log}

/-- The errors that a load has collected are had back from its outcome. -/
theorem errors_of_outcome {error : LoadError} (h : (source.load t log).1.outcome = .error error) :
    error.errors = (source.load t log).1.errors.toList := by
  rw [Loaded.outcome, load_errors] at h
  rw [load_errors, LoadError.errors_of_fold h]

/-- A load whose outcome is an error has collected at least one. -/
theorem errors_ne_nil {error : LoadError} (h : (source.load t log).1.outcome = .error error) :
    error.errors ≠ [] := by
  rw [errors_of_outcome h]
  intro hnil
  rw [Loaded.outcome, hnil] at h
  cases h

end Source

end Values

/-! ## The value with all that is reported -/

/-- A load changes the table of an expression, and adds its events to the log. -/
theorem Expression.load_eq (x : Expression) (source : Values.Source) (log : Log) :
    x.load source log =
      (({ x with table := (source.load x.table #[]).1.table },
        (source.load x.table #[]).1.outcome), log ++ (source.load x.table #[]).2) := by
  show (fun loaded : Values.Loaded × Log => ((({ x with table := loaded.1.table } : Expression),
    loaded.1.outcome), loaded.2)) (source.load x.table log) = _
  rw [source.load_eq]

/-- A text whose symbols cannot be discovered is not evaluated. -/
theorem valueLogged_of_fault {text : String} {fault : Fault} (h : Table.ofText text = .error fault)
    (source : Option Values.Source) : (valueLogged text source).result = .error fault := by
  have htokens : (Table.ofTokens (Token.scan text)).run #[] =
      (.error fault, (Table.ofTokens (Token.scan text)).log) := Prod.ext h rfl
  have hbuild : (Expression.ofText text).build.run #[] =
      (.error fault, (Table.ofTokens (Token.scan text)).log) := Logged.run_bind_of_error htokens
  exact congrArg Prod.fst (Logged.run_bind_of_error hbuild)

/-- Discovery, loading and evaluation report one after the other, and lines that fail do not keep
    the expression from being evaluated. -/
theorem valueLogged_of_table {text : String} {t : Table} (h : Table.ofText text = .ok t)
    (source : Values.Source) :
    let loaded := (source.load t #[]).1
    let evaluation := (Formula.ofText text).eval loaded.table
    (valueLogged text (some source)).result = evaluation.result ∧
      (valueLogged text (some source)).log =
        (Table.ofTokens (Token.scan text)).log ++ (source.load t #[]).2 ++ evaluation.log := by
  intro loaded evaluation
  let x : Expression := { Expression.ofText text with table := t }
  let discovered : Log := (Table.ofTokens (Token.scan text)).log
  have hbuild : (Expression.ofText text).build.run #[] = (.ok x, discovered) := by
    have htokens : (Table.ofTokens (Token.scan text)).run #[] = (.ok t, discovered) :=
      Prod.ext h rfl
    exact Logged.run_bind_of_ok htokens
  have hload : (liftM (x.load source) : Logged Fault _).run discovered =
      (.ok ({ x with table := loaded.table }, loaded.outcome),
        discovered ++ (source.load t #[]).2) := by
    show (Except.ok (x.load source discovered).1, (x.load source discovered).2) = _
    rw [x.load_eq]
  have hrun : (valueLogged text (some source)).run #[] =
      (evaluation.result, discovered ++ (source.load t #[]).2 ++ evaluation.log) := by
    rw [valueLogged, Logged.run_bind_of_ok hbuild]
    exact (Logged.run_bind_of_ok hload).trans ((Evaluation.evalSpan_appends ..).run_eq _)
  exact ⟨by simp only [Logged.result, hrun], by simp only [Logged.log, hrun, discovered]⟩

namespace CommandLine

open Values (Source LoadError)

/-! ## Output -/

/-- A text of lines, each of which is ended. -/
def unlines : List String → String
  | [] => ""
  | line :: lines => line ++ "\n" ++ unlines lines

theorem unlines_ne_empty {lines : List String} (h : lines ≠ []) : unlines lines ≠ "" := by
  cases lines with
  | nil => exact absurd rfl h
  | cons line lines => simp [unlines]

namespace Output

theorem foldl_print (lines : List String) (out : Output) :
    lines.foldl print out = { out with stdout := out.stdout ++ unlines lines } := by
  induction lines generalizing out with
  | nil => simp [unlines]
  | cons line lines ih =>
    rw [List.foldl_cons, ih]
    simp [print, unlines, String.append_assoc]

theorem foldl_complain (errors : List LoadError) (out : Output) :
    errors.foldl (fun out error => out.complain error.message) out =
      { out with stderr := out.stderr ++ unlines (errors.map LoadError.message) } := by
  induction errors generalizing out with
  | nil => simp [unlines]
  | cons error errors ih =>
    rw [List.foldl_cons, ih]
    simp [complain, unlines, String.append_assoc]

/-- What is printed of a value, or of the fault that there is instead of one. -/
def ofResult : Except Fault Float → Output
  | .ok value => { stdout := Decimal.text value ++ "\n" }
  | .error fault => { code := 1, stderr := fault.message ++ "\n" }

/-- An output with some text before it. -/
def after (out : Output) (stdout stderr : String) : Output :=
  { out with stdout := stdout ++ out.stdout, stderr := stderr ++ out.stderr }

end Output

/-! ## Runs -/

/-- The text that is evaluated, which is that of the expression without the blanks at its ends. -/
def trimmed (e : String) : String :=
  String.ofList (Text.trim e.toList)

/-- The line about a scalar. -/
def scalarLine : String × Float → String
  | (name, value) => name ++ "=" ++ Decimal.text value

/-- The line about an array, with the values of its cells in their order. One that was never loaded
    has no cells. -/
def arrayLine : String × Cells → String
  | (name, .unloaded) => name ++ "=[]"
  | (name, .loaded values) =>
    name ++ "=[" ++ ", ".intercalate (values.toList.map Decimal.text) ++ "]"

/-- The lines about the symbols of a table, those that are scalars first. -/
def symbolLines (t : Table) : List String :=
  t.scalars.entries.map scalarLine ++ t.arrays.entries.map arrayLine

/-- The texts of a table are the lines about its symbols. -/
theorem texts_eq_symbolLines (t : Table) : t.scalarTexts ++ t.arrayTexts = symbolLines t := by
  have harray : t.arrayTexts = t.arrays.entries.map arrayLine := by
    refine List.map_congr_left fun entry _ => ?_
    obtain ⟨name, cells⟩ := entry
    cases cells with
    | unloaded =>
      show name ++ "=[" ++ "" ++ "]" = name ++ "=[]"
      rw [String.append_empty, String.append_assoc]
      rfl
    | loaded values => rfl
  rw [harray]
  rfl

namespace Invocation

/-- The value comes after all that has been printed before, and so does a fault. -/
theorem finish_eq (inv : Invocation) (x : Expression) (messages : String) :
    inv.finish x { stderr := messages } =
      (Output.ofResult x.eval.result).after
        (if inv.printSymbols then unlines (symbolLines x.table) else "") messages := by
  unfold finish
  rw [texts_eq_symbolLines, Output.foldl_print, String.empty_append]
  cases inv.printSymbols <;> cases x.eval.result <;>
    simp [Output.ofResult, Output.after, Output.print, Output.fail, Output.complain,
      String.append_assoc]

variable {inv : Invocation} {e path v : String} {t : Table}

/-- An expression whose symbols cannot be discovered is not evaluated, and no values are loaded. -/
theorem run_of_fault {fault : Fault} (hread : inv.expression.read = .ok e)
    (hfault : Table.ofText (trimmed e) = .error fault) :
    inv.run = Output.ofResult (.error fault) := by
  have hbuild : (Expression.ofText (trimmed e)).build.result = .error fault := by
    rw [Expression.build_ofText, hfault]
    rfl
  unfold trimmed at hbuild
  simp only [run, hread, hbuild]
  simp [Output.ofResult, Output.fail, Output.complain]

/-- All errors of the values are printed, and the expression is evaluated with what has been
    loaded. -/
theorem loadAndFinish_eq {bytes : ByteArray} (hvalues : inv.values = some ⟨path, some bytes⟩)
    (x : Expression) :
    inv.loadAndFinish x {} =
      let loaded := ((Source.ofBytes bytes).load x.table #[]).1
      inv.finish { x with table := loaded.table }
        { stderr := unlines (loaded.errors.toList.map LoadError.message) } := by
  have hload : (x.load (.ofBytes bytes) #[]).1 =
      ({ x with table := ((Source.ofBytes bytes).load x.table #[]).1.table },
        ((Source.ofBytes bytes).load x.table #[]).1.outcome) := rfl
  unfold loadAndFinish
  rw [hvalues]
  simp only [hload]
  cases houtcome : ((Source.ofBytes bytes).load x.table #[]).1.outcome with
  | ok =>
    have hnil := LoadError.fold_eq_ok_iff.mp houtcome
    simp only [Output.foldl_complain, hnil, String.empty_append]
  | error error =>
    simp only [Output.foldl_complain, Source.errors_of_outcome houtcome, String.empty_append]

/-- An expression whose symbols can be discovered is evaluated with the values that can be loaded,
    whatever is wrong with the others. -/
theorem run_of_table (hread : inv.expression.read = .ok e)
    (hvalues : inv.values = some ⟨path, some v.toUTF8⟩)
    (ht : Table.ofText (trimmed e) = .ok t) :
    inv.run =
      (Output.ofResult (evaluate (trimmed e) (t.withAccepted (Text.lines v)))).after
        (if inv.printSymbols then unlines (symbolLines (t.withAccepted (Text.lines v))) else "")
        (unlines (((Source.ofText v).load t #[]).1.errors.toList.map LoadError.message)) := by
  have hbuild : (Expression.ofText (trimmed e)).build.result =
      .ok { Expression.ofText (trimmed e) with table := t } := by
    rw [Expression.build_ofText, ht]
    rfl
  unfold trimmed at hbuild ⊢
  simp only [run, hread, hbuild, loadAndFinish_eq hvalues, finish_eq]
  rw [← Source.load_ofText_table v t #[]]
  rfl

/-- The program ends as the value with all that is reported does, after the symbols and the errors
    of the values. -/
theorem run_eq_valueLogged (hread : inv.expression.read = .ok e)
    (hvalues : inv.values = some ⟨path, some v.toUTF8⟩) :
    ∃ symbols errors,
      inv.run = (Output.ofResult (valueLogged (trimmed e) (some (.ofText v))).result).after
        symbols errors := by
  cases ht : Table.ofText (trimmed e) with
  | error fault =>
    refine ⟨"", "", ?_⟩
    rw [run_of_fault hread ht, valueLogged_of_fault ht]
    simp [Output.after]
  | ok t =>
    rw [run_of_table hread hvalues ht, (valueLogged_of_table ht (.ofText v)).1,
      Source.load_ofText_table]
    exact ⟨_, _, rfl⟩

/-- If the symbols are printed, they come first, and all else is the same. -/
theorem run_of_printSymbols (hread : inv.expression.read = .ok e)
    (hvalues : inv.values = some ⟨path, some v.toUTF8⟩) (hnot : inv.printSymbols = false)
    (ht : Table.ofText (trimmed e) = .ok t) :
    { inv with printSymbols := true }.run =
      { inv.run with
        stdout := unlines (symbolLines (t.withAccepted (Text.lines v))) ++ inv.run.stdout } := by
  have hprinted : { inv with printSymbols := true }.run = _ := run_of_table hread hvalues ht
  rw [hprinted, run_of_table hread hvalues ht, hnot]
  simp [Output.after]

/-- If nothing is wrong with the values, the program prints nothing but the value or the fault. -/
theorem run_of_loaded (hread : inv.expression.read = .ok e)
    (hvalues : inv.values = some ⟨path, some v.toUTF8⟩) (hnot : inv.printSymbols = false)
    (ht : Table.ofText (trimmed e) = .ok t)
    (hload : ((Source.ofText v).load t #[]).1.outcome = .ok ()) :
    inv.run = Output.ofResult (evaluate (trimmed e) (t.withAccepted (Text.lines v))) := by
  rw [run_of_table hread hvalues ht, LoadError.fold_eq_ok_iff.mp hload, hnot]
  simp [Output.after, unlines]

/-- If the values have errors, the program prints them before it goes on. -/
theorem run_of_skipped (hread : inv.expression.read = .ok e)
    (hvalues : inv.values = some ⟨path, some v.toUTF8⟩) (hnot : inv.printSymbols = false)
    (ht : Table.ofText (trimmed e) = .ok t) {error : LoadError}
    (hload : ((Source.ofText v).load t #[]).1.outcome = .error error) :
    inv.run =
      (Output.ofResult (evaluate (trimmed e) (t.withAccepted (Text.lines v)))).after ""
        (unlines (error.errors.map LoadError.message)) := by
  rw [run_of_table hread hvalues ht, Source.errors_of_outcome hload, hnot,
    if_neg Bool.false_ne_true]

/-- Either `value` ends as an evaluation does, and so does what is printed, or it fails with an
    error of the values, and these errors are printed before the program goes on. -/
theorem run_cases (hread : inv.expression.read = .ok e)
    (hvalues : inv.values = some ⟨path, some v.toUTF8⟩) (hnot : inv.printSymbols = false) :
    (∃ result : Except Fault Float,
      value (trimmed e) (some (.ofText v)) = result.mapError .expression ∧
        inv.run = Output.ofResult result) ∨
    ∃ t error, Table.ofText (trimmed e) = .ok t ∧
      value (trimmed e) (some (.ofText v)) = .error (.values error) ∧
        unlines (error.errors.map LoadError.message) ≠ "" ∧
        inv.run =
          (Output.ofResult (evaluate (trimmed e) (t.withAccepted (Text.lines v)))).after ""
            (unlines (error.errors.map LoadError.message)) := by
  cases ht : Table.ofText (trimmed e) with
  | error fault => exact Or.inl ⟨.error fault, value_of_fault ht _, run_of_fault hread ht⟩
  | ok t =>
    have hvalue := value_of_table ht (.ofText v)
    rw [Source.load_ofText_table] at hvalue
    cases hload : ((Source.ofText v).load t #[]).1.outcome with
    | ok =>
      rw [hload] at hvalue
      exact Or.inl ⟨_, hvalue, run_of_loaded hread hvalues hnot ht hload⟩
    | error error =>
      rw [hload] at hvalue
      refine Or.inr ⟨t, error, rfl, hvalue, ?_, run_of_skipped hread hvalues hnot ht hload⟩
      exact unlines_ne_empty (mt List.map_eq_nil_iff.mp (Source.errors_ne_nil hload))

/-- With a values file that is UTF-8, the program prints the value, or the fault of the expression,
    as `value` has it. Where `value` fails with an error of the values, the program prints all of
    them, and goes on as if the lines that fail were not there. So it ends well and prints no error
    exactly if `value` succeeds. If it is asked for the symbols, it prints them before the value in
    the order of their first use, each with its value or those of its cells, provided that they can
    be discovered, and all else is the same. -/
theorem run_follows_value {origin : Origin} {e : String} (hread : origin.read = .ok e)
    (path v : String) :
    let inv : Invocation := { expression := origin, values := some ⟨path, some v.toUTF8⟩ }
    let r := value (trimmed e) (some (.ofText v))
    (∀ x, r = .ok x →
      inv.run = { code := 0, stdout := Decimal.text x ++ "\n", stderr := "" }) ∧
    (∀ fault, r = .error (.expression fault) →
      inv.run = { code := 1, stdout := "", stderr := fault.message ++ "\n" }) ∧
    (∀ error, r = .error (.values error) → ∃ t, Table.ofText (trimmed e) = .ok t ∧
      let messages := unlines (error.errors.map LoadError.message)
      match evaluate (trimmed e) (t.withAccepted (Text.lines v)) with
      | .ok x => inv.run = { code := 0, stdout := Decimal.text x ++ "\n", stderr := messages }
      | .error fault =>
        inv.run = { code := 1, stdout := "", stderr := messages ++ (fault.message ++ "\n") }) ∧
    ((inv.run.code = 0 ∧ inv.run.stderr = "") ↔ ∃ x, r = .ok x) ∧
    (∀ fault, Table.ofText (trimmed e) = .error fault →
      { inv with printSymbols := true }.run = inv.run) ∧
    ∀ t, Table.ofText (trimmed e) = .ok t →
      let t' := t.withAccepted (Text.lines v)
      (∀ kind,
        t'.namesOf kind = (Table.usedAs kind (Token.scan (trimmed e)).toList).eraseDups) ∧
      { inv with printSymbols := true }.run =
        { inv.run with
          stdout :=
            unlines (t'.scalars.entries.map scalarLine ++ t'.arrays.entries.map arrayLine) ++
              inv.run.stdout } := by
  intro inv r
  -- what is printed of the symbols does not depend on how `value` ends
  have hfault : ∀ fault, Table.ofText (trimmed e) = .error fault →
      { inv with printSymbols := true }.run = inv.run := fun fault h =>
    (run_of_fault hread h).trans (run_of_fault hread h).symm
  have hsymbols := fun t (ht : Table.ofText (trimmed e) = .ok t) =>
    And.intro (Table.namesOf_withAccepted_ofText ht (Text.lines v))
      (run_of_printSymbols (show inv.expression.read = .ok e from hread) rfl rfl ht)
  rcases run_cases (show inv.expression.read = .ok e from hread) rfl rfl with
    ⟨result, hr, hrun⟩ | ⟨t, error, ht, hr, hmessages, hrun⟩
  · cases result with
    | ok x =>
      refine ⟨?_, ?_, ?_, ?_, hfault, hsymbols⟩ <;>
        simp [r, hr, hrun, Except.mapError, Output.ofResult]
    | error fault =>
      refine ⟨?_, ?_, ?_, ?_, hfault, hsymbols⟩ <;>
        simp [r, hr, hrun, Except.mapError, Output.ofResult]
  · refine ⟨by simp [r, hr], by simp [r, hr], ?_, ?_, hfault, hsymbols⟩
    · intro error' herror
      refine ⟨t, ht, ?_⟩
      obtain rfl : error = error' := by simpa [r, hr] using herror
      intro messages
      rw [hrun]
      cases evaluate (trimmed e) (t.withAccepted (Text.lines v)) with
      | ok x => simp [Output.ofResult, Output.after, messages]
      | error fault => simp [Output.ofResult, Output.after, messages]
    · simp [r, hr, hrun, Output.after, hmessages]

/-- The first line of a file is evaluated with three lines of values, the last of which fails. So an
    error is printed, and then what the evaluation with the other two gives. The symbols are printed
    in the order of their first use, with the values that these two lines have given them. -/
theorem run_follows_value_skipped :
    let origin : Origin := .firstLine ⟨"input", some " A[y+1]+x*B[7] \n+".toUTF8⟩
    let v := "x 1\nA 2 (1,-2.5)\ny x\n"
    let inv : Invocation := { expression := origin, values := some ⟨"values", some v.toUTF8⟩ }
    let message := "Error on line 3: Malformed value line: expected a number but found 'x'.\n"
    inv.run = { code := 0, stdout := "-2.5\n", stderr := message } ∧
      { inv with printSymbols := true }.run =
        { code := 0, stdout := "y=0\nx=1\nA=[0, -2.5]\nB=[]\n-2.5\n", stderr := message } := by
  intro origin v inv message
  have hread : origin.read = .ok " A[y+1]+x*B[7] " := by with_unfolding_all rfl
  have htrimmed : trimmed " A[y+1]+x*B[7] " = "A[y+1]+x*B[7]" := by decide +kernel
  let t : Table :=
    { scalars := ⟨[("y", 0), ("x", 0)]⟩, arrays := ⟨[("A", .unloaded), ("B", .unloaded)]⟩ }
  have ht : Table.ofText "A[y+1]+x*B[7]" = .ok t := toOption_eq_some_iff.mp (by decide +kernel)
  have hmessages : ((Source.ofText v).load t #[]).1.errors.toList.map LoadError.message =
      ["Error on line 3: Malformed value line: expected a number but found 'x'."] := by
    decide +kernel
  have hresult : evaluate "A[y+1]+x*B[7]" (t.withAccepted (Text.lines v)) = .ok (-2.5) :=
    toOption_eq_some_iff.mp (by decide +kernel)
  have hlines : unlines (symbolLines (t.withAccepted (Text.lines v))) =
      "y=0\nx=1\nA=[0, -2.5]\nB=[]\n" := by decide +kernel
  have htext : Decimal.text (-2.5) = "-2.5" := by decide +kernel
  obtain ⟨-, -, hskipped, -, -, hsymbols⟩ := run_follows_value hread "values" v
  rw [htrimmed] at hskipped hsymbols
  have hvalue := value_of_table ht (.ofText v)
  cases houtcome : ((Source.ofText v).load t #[]).1.outcome with
  | ok =>
    rw [LoadError.fold_eq_ok_iff.mp houtcome] at hmessages
    exact absurd hmessages (by decide)
  | error error =>
    rw [houtcome] at hvalue
    rw [← Source.errors_of_outcome houtcome] at hmessages
    obtain ⟨t', ht', hrun⟩ := hskipped error hvalue
    obtain rfl : t = t' := Except.ok.inj (ht.symm.trans ht')
    have hplain : inv.run = { code := 0, stdout := "-2.5" ++ "\n", stderr := message } := by
      rw [hresult, hmessages] at hrun
      rw [← htext]
      exact hrun
    refine ⟨hplain, (hsymbols t ht).2.trans ?_⟩
    unfold symbolLines at hlines
    rw [hlines, show Invocation.run _ = _ from hplain]
    rfl

end Invocation

end CommandLine

end Reckon
