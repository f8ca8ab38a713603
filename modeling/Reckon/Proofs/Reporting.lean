import Reckon.Proofs.Loading

/-!
# What a load reports

A load reports each line that fails, by its number, and warns of each one that it has skipped. The
numbers count all lines of the source, those that are blank or about no symbol, too. A line that
cannot be read is reported without a warning, and is the last one, since the load ends there.

## Key results

- `Reading.mem_failures_iff`: the failures of a reading are those of its lines
- `Source.load_errors`: a load reports the failures of what can be read of its source
- `Source.load_log`: what a load adds to the log
- `Source.load_reports_failures`: the outcome of a load, its errors and its warnings
-/

namespace Reckon.Values

/-! ## Lines that fail -/

namespace Line

/-- What is wrong with a line, if it is not accepted. -/
def cause? (kind? : String → Option Kind) (line : String) : Option Cause :=
  match read kind? line with
  | .ok _ => none
  | .error cause => some cause

variable {kind? : String → Option Kind} {line : String} {cause : Cause} {number : Nat}

theorem cause?_eq_some_iff : cause? kind? line = some cause ↔ read kind? line = .error cause := by
  unfold cause?
  cases read kind? line <;> simp

/-- What is wrong with a line that has a number, if it is not accepted. -/
def failure? (kind? : String → Option Kind) (line : String × Nat) : Option (Nat × Cause) :=
  (cause? kind? line.1).map (line.2, ·)

theorem failure?_eq_some_iff {line : String × Nat} :
    failure? kind? line = some (number, cause) ↔
      line.2 = number ∧ read kind? line.1 = .error cause := by
  rw [failure?, Option.map_eq_some_iff, ← cause?_eq_some_iff]
  constructor
  · rintro ⟨c, hc, heq⟩
    obtain ⟨hnumber, rfl⟩ := Prod.mk.inj heq
    exact ⟨hnumber, hc⟩
  · rintro ⟨hnumber, hc⟩
    exact ⟨cause, hc, congrArg (·, cause) hnumber⟩

theorem error?_eq_map_cause? :
    error? kind? number line = (cause? kind? line).map (.onLine number) := by
  unfold error? cause?
  cases read kind? line <;> rfl

end Line

/-- Whether the cause is that a line cannot be read. -/
def Cause.isUnreadable : Cause → Bool
  | .unreadable _ => true
  | _ => false

/-- Whether the cause is in what a line gives to its symbol, and not in how the line starts, is cut
    into tokens or is read. -/
def Cause.isOfSetting : Cause → Bool
  | .malformed (.unexpectedText _) => false
  | .malformed (.wrongStart _) => false
  | .unreadable _ => false
  | _ => true

namespace Reading

/-- What is wrong with the lines of a reading that fail, each with the number of the line. A line
    that cannot be read comes after all those that can. -/
def failures (kind? : String → Option Kind) (reading : Reading) : List (Nat × Cause) :=
  (reading.lines.zipIdx 1).filterMap (Line.failure? kind?) ++
  (reading.fault.map fun fault => (reading.lines.length + 1, .unreadable fault)).toList

/-- Whether a line fails, and with what. The lines that can be read are counted from one, and fail
    if they are not accepted; the one after them fails if it cannot be read. -/
def Fails (kind? : String → Option Kind) (reading : Reading) (number : Nat) (cause : Cause) :
    Prop :=
  (∃ index line, reading.lines[index]? = some line ∧ number = index + 1 ∧
    Line.read kind? line = .error cause) ∨
  ∃ fault, reading.fault = some fault ∧ number = reading.lines.length + 1 ∧
    cause = .unreadable fault

variable {kind? : String → Option Kind} {reading : Reading} {number : Nat} {cause : Cause}

/-- The failures of a reading are those of its lines. -/
theorem mem_failures_iff :
    (number, cause) ∈ reading.failures kind? ↔ reading.Fails kind? number cause := by
  rw [failures, List.mem_append]
  refine or_congr ?_ ?_
  · rw [List.mem_filterMap]
    constructor
    · rintro ⟨⟨line, n⟩, hmem, hfailure⟩
      obtain ⟨rfl, hread⟩ := Line.failure?_eq_some_iff.mp hfailure
      obtain ⟨hle, hline⟩ := List.mk_mem_zipIdx_iff_le_and_getElem?_sub.mp hmem
      exact ⟨n - 1, line, hline, (Nat.sub_add_cancel hle).symm, hread⟩
    · rintro ⟨index, line, hline, rfl, hread⟩
      refine ⟨(line, index + 1), ?_, Line.failure?_eq_some_iff.mpr ⟨rfl, hread⟩⟩
      exact List.mk_mem_zipIdx_iff_le_and_getElem?_sub.mpr ⟨Nat.le_add_left .., hline⟩
  · cases reading.fault with
    | none => simp
    | some fault => simp

/-- The failures of a reading are in the order of its lines. -/
theorem failures_pairwise (kind? : String → Option Kind) (reading : Reading) :
    (reading.failures kind?).Pairwise (·.1 < ·.1) := by
  rw [failures, List.pairwise_append]
  refine ⟨?_, ?_, ?_⟩
  · rw [List.pairwise_filterMap, List.pairwise_iff_getElem]
    intro i j hi hj hlt b hb b' hb'
    -- the failure of a line has the number of the line
    obtain ⟨hnumber, -⟩ := Line.failure?_eq_some_iff.mp hb
    obtain ⟨hnumber', -⟩ := Line.failure?_eq_some_iff.mp hb'
    rw [List.getElem_zipIdx] at hnumber hnumber'
    omega
  · cases reading.fault with
    | none => exact .nil
    | some fault => exact List.pairwise_singleton ..
  · intro a ha b hb
    obtain ⟨⟨line, n⟩, hmem, hfailure⟩ := List.mem_filterMap.mp ha
    obtain ⟨hnumber, -⟩ := Line.failure?_eq_some_iff.mp hfailure
    obtain ⟨fault, -, rfl⟩ := Option.map_eq_some_iff.mp (Option.mem_toList.mp hb)
    have hbound := (List.mem_zipIdx hmem).2.1
    show a.1 < reading.lines.length + 1
    omega

end Reading

/-! ## Lines that cannot be read -/

namespace Line

theorem isOfSetting_of_number {token : Token} {cause : Cause}
    (h : number token = .error cause) : cause.isOfSetting := by
  unfold number at h
  split at h
  · cases h
  · split at h <;> cases h
    rfl
  · cases h
    rfl

theorem isOfSetting_of_length {name : String} {token : Token} {cause : Cause}
    (h : length name token = .error cause) : cause.isOfSetting := by
  unfold length at h
  split at h
  · split at h
    · cases h
      rfl
    · split at h <;> cases h
      rfl
  · cases h
    rfl

theorem isOfSetting_of_index {name : String} {length : Nat} {token : Token} {cause : Cause}
    (h : index name length token = .error cause) : cause.isOfSetting := by
  unfold index at h
  split at h
  · split at h
    · cases h
      rfl
    · split at h <;> cases h
      rfl
  · cases h
    rfl

theorem isOfSetting_of_pairs {name : String} {length : Nat} {found : Array (Nat × Float)}
    {tokens : List Token} {cause : Cause} (h : pairs name length found tokens = .error cause) :
    cause.isOfSetting := by
  fun_induction pairs name length found tokens with
  | case1 found => cases h
  | case2 found i x rest ih =>
    rcases bind_eq_error_iff.mp h with hi | ⟨index, -, h⟩
    · exact isOfSetting_of_index hi
    · rcases bind_eq_error_iff.mp h with hx | ⟨value, -, h⟩
      · exact isOfSetting_of_number hx
      · exact ih index value h
  | case3 found tokens hne hshape =>
    cases h
    rfl

theorem isOfSetting_of_setting {kind : Kind} {name : String} {tokens : List Token} {cause : Cause}
    (h : setting kind name tokens = .error cause) : cause.isOfSetting := by
  unfold setting at h
  split at h
  · rcases bind_eq_error_iff.mp h with hnumber | ⟨value, -, hok⟩
    · exact isOfSetting_of_number hnumber
    · cases hok
  · cases h
    rfl
  · cases h
    rfl
  · rcases bind_eq_error_iff.mp h with hlength | ⟨length, -, h⟩
    · exact isOfSetting_of_length hlength
    · rcases bind_eq_error_iff.mp h with hpairs | ⟨pairs, -, hok⟩
      · exact isOfSetting_of_pairs hpairs
      · cases hok

/-- A line that has been read is not unreadable, whatever is wrong with it. -/
theorem isUnreadable_of_read {kind? : String → Option Kind} {line : String} {cause : Cause}
    (h : read kind? line = .error cause) : cause.isUnreadable = false := by
  unfold read at h
  split at h
  · cases h
  · split at h
    · cases h
    · split at h
      · cases h
        rfl
      · split at h
        · split at h
          · have hcause := isOfSetting_of_setting (map_eq_error_iff.mp h)
            cases cause with
            | unreadable fault => exact nomatch hcause
            | _ => rfl
          · cases h
            rfl
        · cases h
          rfl

end Line

namespace Reading

variable {kind? : String → Option Kind} {reading : Reading}

/-- Only the last of the failures can be that a line cannot be read. -/
theorem getLast?_failures {number : Nat} {fault : ReadFault}
    (h : (number, .unreadable fault) ∈ reading.failures kind?) :
    (reading.failures kind?).getLast? = some (number, .unreadable fault) := by
  rcases mem_failures_iff.mp h with ⟨index, line, -, -, hread⟩ | ⟨fault', hfault, rfl, hcause⟩
  · exact absurd (Line.isUnreadable_of_read hread) (by simp [Cause.isUnreadable])
  · obtain rfl := Cause.unreadable.inj hcause
    rw [failures, hfault]
    exact List.getLast?_concat ..

/-- The failures that are warned of are those of the lines that can be read. -/
theorem filter_failures (kind? : String → Option Kind) (reading : Reading) :
    (reading.failures kind?).filter (!·.2.isUnreadable) =
      (reading.lines.zipIdx 1).filterMap (Line.failure? kind?) := by
  rw [failures, List.filter_append]
  have hlast : (reading.fault.map fun fault => (reading.lines.length + 1,
      Cause.unreadable fault)).toList.filter (!·.2.isUnreadable) = [] := by
    cases reading.fault <;> rfl
  rw [hlast, List.append_nil, List.filter_eq_self]
  intro failure hmem
  obtain ⟨line, -, hfailure⟩ := List.mem_filterMap.mp hmem
  obtain ⟨-, hread⟩ := Line.failure?_eq_some_iff.mp hfailure
  simp only [Line.isUnreadable_of_read hread, Bool.not_false]

end Reading

/-! ## Errors and the log -/

namespace LoadError

/-- The error that reports a failure. -/
def ofFailure (failure : Nat × Cause) : LoadError :=
  .onLine failure.1 failure.2

variable {failed : List (Nat × Cause)}

/-- Failures that are folded into one error can be had back from it. -/
theorem errors_of_fold {error : LoadError} (h : fold (failed.map ofFailure) = .error error) :
    error.errors = failed.map ofFailure := by
  cases failed with
  | nil => cases h
  | cons failure rest =>
    cases rest with
    | nil =>
      cases h
      rfl
    | cons failure' rest =>
      cases h
      rfl

/-- Failures are folded into an error for several lines exactly if there are several. -/
theorem fold_eq_onLines_iff :
    (∃ errors, fold (failed.map ofFailure) = .error (.onLines errors)) ↔ 2 ≤ failed.length := by
  cases failed with
  | nil => simp [fold]
  | cons failure rest =>
    cases rest with
    | nil => simp [fold, ofFailure]
    | cons failure' rest => simp [fold]

end LoadError

namespace Line

/-- What is added to the log for a line with a number. -/
def events (kind? : String → Option Kind) (number : Nat) (line : String) : List Event :=
  match read kind? line with
  | .ok .blank => []
  | .ok (.unknown word) => [.unknownSymbol number word]
  | .ok (.sets setting) => [Loaded.eventOf number setting]
  | .error cause => [.lineSkipped number (.onLine number cause)]

/-- What is added to the log for lines, the first of which has a given number. -/
def eventsFrom (kind? : String → Option Kind) (number : Nat) (lines : List String) : List Event :=
  (lines.zipIdx number).flatMap fun line => events kind? line.2 line.1

theorem eventsFrom_cons (kind? : String → Option Kind) (number : Nat) (line : String)
    (lines : List String) :
    eventsFrom kind? number (line :: lines) =
      events kind? number line ++ eventsFrom kind? (number + 1) lines := rfl

/-- The warning of a failure. -/
def warningOf (failure : Nat × Cause) : Event :=
  .lineSkipped failure.1 (.ofFailure failure)

theorem text_warningOf (failure : Nat × Cause) :
    (warningOf failure).text =
      s!"WARN skipping line {failure.1}: {(LoadError.ofFailure failure).message}" := by
  show "WARN" ++ " " ++ ("skipping line " ++ toString failure.1 ++ ": " ++ _) =
    "WARN skipping line " ++ toString failure.1 ++ ": " ++ _
  have hstart : "WARN" ++ " " ++ "skipping line " = "WARN skipping line " := by decide
  simp only [← hstart, String.append_assoc]

/-- Among the events of a line there is a warning if it fails, and else there is none. -/
theorem filter_events (kind? : String → Option Kind) (line : String × Nat) :
    (events kind? line.2 line.1).filter (·.level = .warn) =
      ((failure? kind? line).map warningOf).toList := by
  unfold events failure? cause?
  cases read kind? line.1 with
  | error cause => rfl
  | ok line' =>
    cases line' with
    | blank => rfl
    | unknown word => rfl
    | sets s => cases s <;> rfl

end Line

namespace Loaded

/-- A line adds its events to the log. -/
theorem load_snd (loaded : Loaded) (number : Nat) (line : String) (log : Log) :
    (loaded.load number line log).2 =
      log ++ (Line.events loaded.table.kind? number line).toArray := by
  unfold load Line.events
  cases Line.read loaded.table.kind? line with
  | error cause => rfl
  | ok line' => cases line' <;> rfl

/-- Lines add their events to the log, the first line those of the first number. -/
theorem loadLines_snd (loaded : Loaded) (number : Nat) (lines : List String) (log : Log) :
    (loaded.loadLines number lines log).2 =
      log ++ (Line.eventsFrom loaded.table.kind? number lines).toArray := by
  -- Induction on the lines. What a line adds depends on the kinds of the names only, which are the
  -- same before every line.
  induction lines generalizing loaded number log with
  | nil => exact (Array.append_empty ..).symm
  | cons line lines ih =>
    rw [loadLines_cons, ih, load_snd, load_fst, Table.kind?_overwrite, Line.eventsFrom_cons]
    simp

end Loaded

namespace Source

/-- A load collects an error for each failure of what can be read of its source. -/
theorem load_errors (source : Source) (t : Table) (log : Log) :
    (source.load t log).1.errors.toList =
      (source.read.failures t.kind?).map LoadError.ofFailure := by
  have hlines : Line.errors t.kind? 1 source.read.lines =
      ((source.read.lines.zipIdx 1).filterMap (Line.failure? t.kind?)).map LoadError.ofFailure := by
    rw [Line.errors, List.map_filterMap]
    congr 1
    funext line
    rw [Line.failure?, Option.map_map]
    exact Line.error?_eq_map_cause?
  have hloaded := Loaded.loadLines_fst { table := t } 1 source.read.lines log
  rw [Reading.failures, List.map_append, ← hlines]
  unfold load Reading.load
  cases source.read.fault with
  | none =>
    show (Loaded.loadLines { table := t } 1 source.read.lines log).1.errors.toList = _
    rw [hloaded]
    simp
  | some fault =>
    show ((Loaded.loadLines { table := t } 1 source.read.lines log).1.errors.push _).toList = _
    rw [hloaded]
    simp [LoadError.ofFailure]

/-- A load adds the events of its lines to the log, and nothing else. -/
theorem load_log (source : Source) (t : Table) (log : Log) :
    (source.load t log).2 = log ++ (Line.eventsFrom t.kind? 1 source.read.lines).toArray := by
  have hload : (source.load t log).2 =
      (Loaded.loadLines { table := t } 1 source.read.lines log).2 := by
    unfold load Reading.load
    cases source.read.fault <;> rfl
  rw [hload, Loaded.loadLines_snd]

/-- What a load leaves does not depend on what has been reported before. -/
theorem load_eq (source : Source) (t : Table) (log : Log) :
    source.load t log = ((source.load t #[]).1, log ++ (source.load t #[]).2) := by
  have htable : (source.load t log).1.table = (source.load t #[]).1.table := by
    rw [load_table, load_table]
  have herrors : (source.load t log).1.errors = (source.load t #[]).1.errors := by
    rw [← Array.toList_inj, load_errors, load_errors]
  have hloaded : (source.load t log).1 = (source.load t #[]).1 := by
    cases hl : (source.load t log).1
    cases hr : (source.load t #[]).1
    rw [hl, hr] at htable herrors
    rw [Loaded.mk.injEq]
    exact ⟨htable, herrors⟩
  refine Prod.ext hloaded ?_
  rw [load_log source t log, load_log source t #[], Array.empty_append]

end Source

/-- The warnings among the events of the lines of a reading are those of its failures, unless a line
    cannot be read. -/
theorem Reading.filter_eventsFrom (kind? : String → Option Kind) (reading : Reading) :
    (Line.eventsFrom kind? 1 reading.lines).filter (·.level = .warn) =
      ((reading.failures kind?).filter (!·.2.isUnreadable)).map Line.warningOf := by
  rw [filter_failures, List.map_filterMap, Line.eventsFrom]
  induction reading.lines.zipIdx 1 with
  | nil => rfl
  | cons line lines ih =>
    rw [List.flatMap_cons, List.filter_append, ih, Line.filter_events, List.filterMap_cons]
    cases Line.failure? kind? line <;> rfl

/-! ## What a load reports -/

/-- A load succeeds if no line fails. Else its errors are those of the lines that fail, in the order
    of the lines and each with the number of its line, and only the last can be that a line cannot
    be read. They are reported as the errors of several lines exactly if there are several. The log
    has a warning for each of them, unless a line cannot be read. Whether a line fails is the same
    at all times, since no line changes the kind of a symbol; so the source has the same errors if
    it is loaded again. -/
theorem Source.load_reports_failures (source : Source) (t : Table) (log : Log) :
    let failed := source.read.failures t.kind?
    let loaded := (source.load t log).1
    (∀ number cause, (number, cause) ∈ failed ↔ source.read.Fails t.kind? number cause) ∧
    (∀ number,
      (Loaded.loadLines { table := t } 1 (source.read.lines.take number) log).1.table.kind? =
        t.kind?) ∧
    failed.Pairwise (·.1 < ·.1) ∧
    (∀ number fault, (number, .unreadable fault) ∈ failed →
      failed.getLast? = some (number, .unreadable fault)) ∧
    (loaded.outcome = .ok () ↔ ∀ number cause, ¬ source.read.Fails t.kind? number cause) ∧
    (∀ error, loaded.outcome = .error error →
      error.errors = failed.map fun failure => .onLine failure.1 failure.2) ∧
    ((∃ errors, loaded.outcome = .error (.onLines errors)) ↔ 2 ≤ failed.length) ∧
    (∃ events : List Event, (source.load t log).2 = log ++ events.toArray ∧
      (events.filter (·.level = .warn)).map Event.text =
        (failed.filter (!·.2.isUnreadable)).map fun failure =>
          s!"WARN skipping line {failure.1}: {(LoadError.onLine failure.1 failure.2).message}") ∧
    ∀ log', (source.load loaded.table log').1.outcome = loaded.outcome := by
  intro failed loaded
  have houtcome : loaded.outcome = LoadError.fold (failed.map LoadError.ofFailure) := by
    rw [Loaded.outcome, load_errors]
  refine ⟨fun number cause => Reading.mem_failures_iff, fun number => ?_,
    Reading.failures_pairwise .., fun number fault => Reading.getLast?_failures, ?_, ?_, ?_, ?_, ?_⟩
  · rw [Loaded.loadLines_fst]
    exact Table.kind?_overwrite _ _
  · rw [houtcome, LoadError.fold_eq_ok_iff, List.map_eq_nil_iff, List.eq_nil_iff_forall_not_mem]
    simp only [Prod.forall, failed, Reading.mem_failures_iff]
  · intro error herror
    rw [houtcome] at herror
    exact LoadError.errors_of_fold herror
  · rw [houtcome]
    exact LoadError.fold_eq_onLines_iff
  · refine ⟨_, source.load_log t log, ?_⟩
    rw [Reading.filter_eventsFrom, List.map_map]
    exact List.map_congr_left fun failure _ => Line.text_warningOf failure
  · -- the table that is left has the same kinds, so the same lines fail
    intro log'
    have hkinds : loaded.table.kind? = t.kind? := by
      rw [source.load_table, Table.kind?_overwrite]
    rw [houtcome, Loaded.outcome, load_errors, hkinds]

/-- A source that fails in its third line reports this line and the first, in which a scalar is
    given no number, and warns of the first only. -/
theorem Source.load_reports_failures_interrupted :
    let t : Table := { scalars := ⟨[("x", 0)]⟩ }
    let source : Source := { chunks := ["x y\n".toUTF8, "\nx".toUTF8], failure := some "gone" }
    let failed : List (Nat × Cause) :=
      [(1, .malformed (.notNumber (.name "y"))), (3, .unreadable (.failed "gone"))]
    source.read.failures t.kind? = failed ∧
      failed.getLast? = some (3, .unreadable (.failed "gone")) ∧
      ∃ error, (source.load t #[]).1.outcome = .error error ∧
        error.errors = failed.map fun failure => .onLine failure.1 failure.2 := by
  intro t source failed
  have hfailed : source.read.failures t.kind? = failed := by with_unfolding_all rfl
  have hmem : (3, .unreadable (.failed "gone")) ∈ failed := by simp [failed]
  obtain ⟨hfails, -, -, hlast, hok, herrors, -⟩ := source.load_reports_failures t #[]
  rw [hfailed] at hfails hlast herrors
  cases houtcome : (source.load t #[]).1.outcome with
  | ok => exact absurd ((hfails 3 _).mp hmem) (hok.mp houtcome 3 _)
  | error error => exact ⟨hfailed, hlast 3 _ hmem, error, rfl, herrors error houtcome⟩

end Reckon.Values
