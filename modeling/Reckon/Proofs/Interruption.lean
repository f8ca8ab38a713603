import Reckon.Proofs.Reporting

/-!
# How far a source is read

A source is read up to the first line that is not UTF-8, or up to its end, or, if it fails, up to
the line that has begun then. `Source.lines` cuts the bytes of a source at its line feeds, all of
them at once, and `Source.cut?` says in which line the reading ends before the end of the source.
What comes before that line is loaded as if it were all there is.

## Key results

- `Assembly.foldl_push_ended`: the lines that are put together from the bytes of a source
- `Source.read_eq`: what can be read of a source are its lines before the one in which it is cut
- `Source.load_eq_before`: a load of a source is a load of what comes before that line
-/

namespace Reckon.Values

/-! ## Lines of bytes -/

namespace Source

/-- All bytes that a source delivers. -/
def bytes (source : Source) : List UInt8 :=
  source.chunks.flatMap (·.data.toList)

/-- A line without the carriage return at its end. -/
def dropReturn (line : List UInt8) : List UInt8 :=
  if line.getLast? = some 13 then line.dropLast else line

/-- The lines of a source. Each ends at a line feed, and a carriage return directly before that
    belongs to the end of the line, too. What comes after the last line feed is a line unless it is
    empty or the source fails. -/
def lines (source : Source) : List (List UInt8) :=
  let pieces := source.bytes.splitOn 10
  let last := pieces.getLastD []
  pieces.dropLast.map dropReturn ++
    if source.failure.isSome ∨ last = [] then [] else [last]

/-- Whether a line is not UTF-8. -/
def notUtf8 (line : List UInt8) : Bool :=
  (String.fromUTF8? line.toByteArray).isNone

/-- The text of a line that is UTF-8. -/
def decode (line : List UInt8) : String :=
  (String.fromUTF8? line.toByteArray).getD ""

/-- The number of the line in which the reading ends before the end of the source, and why: it is
    the first that is not UTF-8, or else the one that has begun when the source fails. -/
def cut? (source : Source) : Option (Nat × ReadFault) :=
  match source.lines.findIdx? notUtf8 with
  | some index => some (index + 1, .notUtf8)
  | none => source.failure.map fun reason => (source.bytes.count 10 + 1, .failed reason)

/-- The bytes before a line with a number. -/
def before (source : Source) (number : Nat) : List UInt8 :=
  ((source.bytes.splitOn 10).take (number - 1)).flatMap (· ++ [10])

end Source

/-! ## Cutting bytes at line feeds -/

/-- Bytes are cut at their line feeds into pieces without one, of which all but the last are
    ended. -/
theorem exists_splitOn_feed (bytes : List UInt8) :
    ∃ ended last, bytes.splitOn 10 = ended ++ [last] ∧
      bytes = ended.flatMap (· ++ [10]) ++ last ∧ (∀ line ∈ ended, 10 ∉ line) ∧ 10 ∉ last ∧
      ended.length = bytes.count 10 := by
  induction bytes with
  | nil => exact ⟨[], [], rfl, rfl, nofun, nofun, rfl⟩
  | cons b bytes ih =>
    obtain ⟨ended, last, hsplit, hbytes, hended, hlast, hlength⟩ := ih
    rw [List.splitOn_cons_eq_if_modifyHead, hsplit]
    by_cases hb : b = 10
    · -- an empty piece is ended here
      subst hb
      refine ⟨[] :: ended, last, rfl, ?_, ?_, hlast, ?_⟩
      · rw [hbytes]
        rfl
      · exact List.forall_mem_cons.mpr ⟨List.not_mem_nil, hended⟩
      · rw [List.length_cons, hlength, List.count_cons_self]
    · -- the byte belongs to the first piece, which is the last if none is ended
      have hcount : (b :: bytes).count 10 = bytes.count 10 := List.count_cons_of_ne hb
      rw [if_neg (by simpa using hb), hcount]
      cases ended with
      | nil =>
        refine ⟨[], b :: last, rfl, ?_, nofun, ?_, hlength⟩
        · rw [hbytes]
          rfl
        · exact List.not_mem_cons_of_ne_of_not_mem (Ne.symm hb) hlast
      | cons line ended =>
        obtain ⟨hline, hended⟩ := List.forall_mem_cons.mp hended
        refine ⟨(b :: line) :: ended, last, rfl, ?_, ?_, hlast, hlength⟩
        · rw [hbytes]
          rfl
        · refine List.forall_mem_cons.mpr ⟨?_, hended⟩
          exact List.not_mem_cons_of_ne_of_not_mem (Ne.symm hb) hline

/-- Pieces that are all ended are had back from their bytes. -/
theorem splitOn_flatMap_feed {ended : List (List UInt8)} (h : ∀ line ∈ ended, 10 ∉ line) :
    (ended.flatMap (· ++ [10])).splitOn 10 = ended ++ [[]] := by
  induction ended with
  | nil => rfl
  | cons line ended ih =>
    obtain ⟨hline, hended⟩ := List.forall_mem_cons.mp h
    rw [List.flatMap_cons, List.append_assoc, List.singleton_append,
      List.splitOn_append_cons_self_of_not_mem hline, ih hended]
    rfl

/-! ## Putting lines together -/

namespace Assembly

theorem dropReturn_toByteArray (line : List UInt8) :
    dropReturn line.toByteArray = (Source.dropReturn line).toByteArray := by
  unfold dropReturn Source.dropReturn
  rw [List.data_toByteArray, List.back?_toArray, List.pop_toArray]
  split
  · ext1
    rw [List.data_toByteArray]
  · rfl

/-- The bytes of a line that is ended put the line together. -/
theorem foldl_push_line (found : Array ByteArray) {line : List UInt8} (h : 10 ∉ line) :
    (line ++ [10]).foldl push { lines := found } =
      { lines := found.push (Source.dropReturn line).toByteArray } := by
  rw [List.foldl_append, foldl_push_of_not_mem _ h, List.foldl_cons, List.foldl_nil, push,
    if_pos rfl, ByteArray.empty_append, dropReturn_toByteArray]

/-- The bytes of some lines that are ended, and of one that is not, put these lines together. -/
theorem foldl_push_ended (found : Array ByteArray) {ended : List (List UInt8)} {last : List UInt8}
    (hended : ∀ line ∈ ended, 10 ∉ line) (hlast : 10 ∉ last) :
    (ended.flatMap (· ++ [10]) ++ last).foldl push { lines := found } =
      { lines := found ++ (ended.map fun line => (Source.dropReturn line).toByteArray).toArray
        begun := last.toByteArray } := by
  induction ended generalizing found with
  | nil =>
    rw [List.flatMap_nil, List.nil_append, foldl_push_of_not_mem _ hlast, ByteArray.empty_append]
    simp
  | cons line ended ih =>
    obtain ⟨hline, hended⟩ := List.forall_mem_cons.mp hended
    rw [List.flatMap_cons, List.append_assoc, List.foldl_append, foldl_push_line found hline,
      ih _ hended]
    simp

/-- Where the chunks are cut makes no difference: all that counts are the bytes. -/
theorem foldl_pushChunk (a : Assembly) (chunks : List ByteArray) :
    chunks.foldl pushChunk a = (chunks.flatMap (·.data.toList)).foldl push a := by
  induction chunks generalizing a with
  | nil => rfl
  | cons chunk chunks ih =>
    rw [List.foldl_cons, ih, List.flatMap_cons, List.foldl_append, pushChunk,
      ← Array.foldl_toList]

end Assembly

namespace Source

/-- The lines of a source, by the pieces into which its bytes are cut. -/
theorem lines_eq {source : Source} {ended : List (List UInt8)} {last : List UInt8}
    (h : source.bytes.splitOn 10 = ended ++ [last]) :
    source.lines = ended.map dropReturn ++
      if source.failure.isSome ∨ last = [] then [] else [last] := by
  rw [lines, h, List.dropLast_concat]
  simp

/-- The lines of bytes that are put together from the chunks of a source. -/
theorem read_eq_ofLines (source : Source) :
    source.read =
      .ofLines #[] (source.failure.map .failed) (source.lines.map List.toByteArray) := by
  obtain ⟨ended, last, hsplit, hbytes, hended, hlast, -⟩ := exists_splitOn_feed source.bytes
  have hassembly : source.chunks.foldl Assembly.pushChunk {} =
      { lines := #[] ++ (ended.map fun line => (dropReturn line).toByteArray).toArray
        begun := last.toByteArray } := by
    rw [Assembly.foldl_pushChunk, ← Assembly.foldl_push_ended #[] hended hlast, ← hbytes]
    rfl
  rw [lines_eq hsplit]
  unfold read
  rw [hassembly]
  cases source.failure with
  | some reason => simp [Function.comp_def]
  | none =>
    -- what has begun at the end is a line if it has any bytes
    by_cases hempty : last = []
    · simp [Assembly.finish, Function.comp_def, ByteArray.isEmpty, hempty]
    · simp [Assembly.finish, Function.comp_def, ByteArray.isEmpty, hempty]

end Source

/-! ## Reading lines -/

/-- The bytes of the text of a line are those of the line. -/
theorem Source.toUTF8_decode {line : List UInt8} (h : notUtf8 line = false) :
    (decode line).toUTF8.data.toList = line := by
  unfold notUtf8 at h
  unfold decode
  unfold String.fromUTF8? at h ⊢
  split at h
  · next hvalid =>
    rw [dif_pos hvalid, Option.getD_some]
    show line.toByteArray.data.toList = line
    rw [List.data_toByteArray]
  · exact nomatch h

/-- Lines are read up to the first that is not UTF-8. -/
theorem Reading.ofLines_toByteArray (found : Array String) (last : Option ReadFault)
    (ls : List (List UInt8)) :
    ofLines found last (ls.map List.toByteArray) =
      match ls.findIdx? Source.notUtf8 with
      | none => ⟨found.toList ++ ls.map Source.decode, last⟩
      | some index => ⟨found.toList ++ (ls.take index).map Source.decode, some .notUtf8⟩ := by
  induction ls generalizing found with
  | nil => simp [ofLines]
  | cons line ls ih =>
    rw [List.map_cons, ofLines, List.findIdx?_cons]
    cases hline : String.fromUTF8? line.toByteArray with
    | none => simp [Source.notUtf8, hline]
    | some text =>
      have hdecode : Source.decode line = text := by rw [Source.decode, hline, Option.getD_some]
      simp only
      rw [ih]
      simp only [Source.notUtf8, hline, Option.isNone_some, Bool.false_eq_true, if_false]
      cases ls.findIdx? Source.notUtf8 <;> simp [hdecode]

namespace Source

variable {source : Source} {number : Nat} {fault : ReadFault}

/-- There is a line for each line feed, and one more at the end unless the source fails. -/
theorem length_lines (source : Source) :
    source.bytes.count 10 ≤ source.lines.length ∧
      source.lines.length ≤ source.bytes.count 10 + 1 ∧
      (source.failure.isSome → source.lines.length = source.bytes.count 10) := by
  obtain ⟨ended, last, hsplit, -, -, -, hlength⟩ := exists_splitOn_feed source.bytes
  rw [lines_eq hsplit, List.length_append, List.length_map, hlength]
  split
  · simp
  · next hne =>
    rw [not_or] at hne
    exact ⟨Nat.le_add_right .., Nat.le_refl _, fun hfails => absurd hfails hne.1⟩

/-- The line in which the reading ends is one of the source, or the one that has begun when it
    fails, and all lines before it are UTF-8. -/
theorem of_cut?_eq_some (h : source.cut? = some (number, fault)) :
    0 < number ∧ number - 1 ≤ source.bytes.count 10 ∧ number - 1 ≤ source.lines.length ∧
      ∀ line ∈ source.lines.take (number - 1), notUtf8 line = false := by
  obtain ⟨hle, hge, hfails⟩ := source.length_lines
  unfold cut? at h
  split at h
  · next index hindex =>
    obtain ⟨rfl, -⟩ := Prod.mk.inj (Option.some.inj h)
    obtain ⟨hlt, -, hbefore⟩ := List.findIdx?_eq_some_iff_getElem.mp hindex
    rw [Nat.add_sub_cancel]
    refine ⟨Nat.succ_pos _, by omega, by omega, fun line hline => ?_⟩
    obtain ⟨i, hi, rfl⟩ := List.mem_take_iff_getElem.mp hline
    simpa using hbefore i (by omega)
  · next hnone =>
    obtain ⟨reason, hreason, heq⟩ := Option.map_eq_some_iff.mp h
    obtain ⟨rfl, -⟩ := Prod.mk.inj heq
    rw [Nat.add_sub_cancel]
    refine ⟨Nat.succ_pos _, Nat.le_refl _, hle, fun line hline => ?_⟩
    exact List.findIdx?_eq_none_iff.mp hnone line (List.mem_of_mem_take hline)

/-- A source without a line in which its reading ends does not fail, and is UTF-8. -/
theorem of_cut?_eq_none (h : source.cut? = none) :
    source.failure = none ∧ ∀ line ∈ source.lines, notUtf8 line = false := by
  unfold cut? at h
  split at h
  · exact nomatch h
  · next hnone => exact ⟨Option.map_eq_none_iff.mp h, List.findIdx?_eq_none_iff.mp hnone⟩

/-- What can be read of a source are its lines before the one in which its reading ends. -/
theorem read_eq (source : Source) :
    source.read =
      match source.cut? with
      | none => ⟨source.lines.map decode, none⟩
      | some (number, fault) => ⟨(source.lines.take (number - 1)).map decode, some fault⟩ := by
  rw [read_eq_ofLines, Reading.ofLines_toByteArray, cut?]
  cases source.lines.findIdx? notUtf8 with
  | some index => simp
  | none =>
    cases hfailure : source.failure with
    | none => simp
    | some reason =>
      -- the lines are those that end before the source fails
      have hlength : source.lines.length = source.bytes.count 10 :=
        source.length_lines.2.2 (by rw [hfailure]; rfl)
      simp [← hlength]

/-! ## What comes before a line -/

theorem bytes_ofBytes (bytes : List UInt8) : (ofBytes bytes.toByteArray).bytes = bytes := by
  simp [Source.bytes, ofBytes, List.data_toByteArray]

/-- What comes before a line is what a source delivers first. -/
theorem before_isPrefix (h : number - 1 ≤ source.bytes.count 10) :
    source.before number <+: source.bytes := by
  obtain ⟨ended, last, hsplit, hbytes, -, -, hlength⟩ := exists_splitOn_feed source.bytes
  have hcut : ended.flatMap (· ++ [10]) =
      (ended.take (number - 1)).flatMap (· ++ [10]) ++
        (ended.drop (number - 1)).flatMap (· ++ [10]) := by
    rw [← List.flatMap_append, List.take_append_drop]
  rw [before, hsplit, List.take_append_of_le_length (by omega), hbytes, hcut, List.append_assoc]
  exact List.prefix_append ..

/-- What comes before a line has the lines before it. -/
theorem lines_before (h : number - 1 ≤ source.bytes.count 10) :
    (ofBytes (source.before number).toByteArray).lines = source.lines.take (number - 1) := by
  obtain ⟨ended, last, hsplit, -, hended, -, hlength⟩ := exists_splitOn_feed source.bytes
  have hbefore : source.before number = (ended.take (number - 1)).flatMap (· ++ [10]) := by
    rw [before, hsplit, List.take_append_of_le_length (by omega)]
  have hpieces : (ofBytes (source.before number).toByteArray).bytes.splitOn 10 =
      ended.take (number - 1) ++ [[]] := by
    rw [bytes_ofBytes, hbefore]
    exact splitOn_flatMap_feed fun line hline => hended line (List.mem_of_mem_take hline)
  rw [lines_eq hpieces, lines_eq hsplit, if_pos (Or.inr rfl), List.append_nil,
    List.take_append_of_le_length (by rw [List.length_map]; omega), List.map_take]

/-- What comes before the line in which the reading of a source ends is read to its end. -/
theorem cut?_before (h : source.cut? = some (number, fault)) :
    (ofBytes (source.before number).toByteArray).cut? = none := by
  obtain ⟨-, hle, -, hvalid⟩ := of_cut?_eq_some h
  unfold cut?
  rw [lines_before hle, List.findIdx?_eq_none_iff.mpr hvalid]
  rfl

/-! ## Loading -/

/-- A source that is read to its end is loaded with all of its lines. -/
theorem load_of_cut?_eq_none (h : source.cut? = none) (t : Table) (log : Log) :
    source.load t log = Loaded.loadLines { table := t } 1 (source.lines.map decode) log := by
  have hread : source.read = ⟨source.lines.map decode, none⟩ := by rw [read_eq, h]
  unfold load
  rw [hread]
  rfl

/-- No line of a source that is read to its end is reported as one that cannot be read. -/
theorem not_mem_errors_of_cut?_eq_none (h : source.cut? = none) (t : Table) (log : Log) (n : Nat)
    (fault' : ReadFault) :
    .onLine n (.unreadable fault') ∉ (source.load t log).1.errors.toList := by
  have hread : source.read = ⟨source.lines.map decode, none⟩ := by rw [read_eq, h]
  rw [load_errors, List.mem_map]
  rintro ⟨⟨n', cause⟩, hmem, heq⟩
  obtain ⟨rfl, rfl⟩ := LoadError.onLine.inj heq
  rcases Reading.mem_failures_iff.mp hmem with ⟨index, line, -, -, hline⟩ | ⟨f, hf, -⟩
  · exact absurd (Line.isUnreadable_of_read hline) (by simp [Cause.isUnreadable])
  · rw [hread] at hf
    cases hf

/-- A load of a source whose reading ends in some line leaves what a load of all that comes before
    that line leaves, in the table, among the errors and in the log, except that one error more
    says that the line cannot be read. Nothing from that line on has any effect. A source that is
    read to its end is loaded with all of its lines, one at the end included that is not ended, and
    none of them is reported as unreadable. Where the chunks of a source are cut does not matter. -/
theorem load_eq_before (source : Source) (t : Table) (log : Log) :
    (∀ number fault, source.cut? = some (number, fault) →
      let alone := ofBytes (source.before number).toByteArray
      (source.before number <+: source.bytes ∧
        alone.cut? = none ∧ alone.lines = source.lines.take (number - 1)) ∧
      source.load t log =
        ({ (alone.load t log).1 with
            errors := (alone.load t log).1.errors.push (.onLine number (.unreadable fault)) },
          (alone.load t log).2)) ∧
    (source.cut? = none →
      (∃ texts : List String, texts.map (·.toUTF8.data.toList) = source.lines ∧
        source.load t log = Loaded.loadLines { table := t } 1 texts log) ∧
      ∀ number fault,
        .onLine number (.unreadable fault) ∉ (source.load t log).1.errors.toList) := by
  refine ⟨fun number fault hcut => ?_, fun hnone => ⟨?_, ?_⟩⟩
  · intro alone
    obtain ⟨hpos, hle, hlength, -⟩ := of_cut?_eq_some hcut
    refine ⟨⟨before_isPrefix hle, cut?_before hcut, lines_before hle⟩, ?_⟩
    have halone : alone.load t log =
        Loaded.loadLines { table := t } 1 ((source.lines.take (number - 1)).map decode) log := by
      rw [load_of_cut?_eq_none (cut?_before hcut), lines_before hle]
    have hread : source.read = ⟨(source.lines.take (number - 1)).map decode, some fault⟩ := by
      rw [read_eq, hcut]
    -- as many lines are read as come before the line that is reported
    have hnumber : ((source.lines.take (number - 1)).map decode).length + 1 = number := by
      rw [List.length_map, List.length_take]
      omega
    rw [halone]
    unfold load Reading.load
    rw [hread]
    simp only [hnumber]
    rfl
  · refine ⟨source.lines.map decode, ?_, load_of_cut?_eq_none hnone t log⟩
    rw [List.map_map]
    exact (List.map_congr_left fun line hline =>
      toUTF8_decode ((of_cut?_eq_none hnone).2 line hline)).trans (List.map_id _)
  · exact not_mem_errors_of_cut?_eq_none hnone t log

/-- A source whose third line is not UTF-8 is loaded up to there, though it also fails later on, and
    one that ends within its second line is loaded with that line. In both a chunk ends inside of a
    character, and another between the two bytes that end a line. -/
theorem load_eq_before_invalid :
    let t : Table := { scalars := ⟨[("x", 0)]⟩ }
    let start : List UInt8 := [120, 32, 49, 13, 10, 195, 169, 32, 50]
    let chunks : List ByteArray := [⟨#[120, 32, 49, 13]⟩, ⟨#[10, 195]⟩, ⟨#[169, 32, 50]⟩]
    let invalid : Source :=
      { chunks := chunks ++ [⟨#[10, 255, 10, 120]⟩], failure := some "gone" }
    let alone := ofBytes (start ++ [10]).toByteArray
    invalid.load t #[] =
        ({ (alone.load t #[]).1 with
            errors := (alone.load t #[]).1.errors.push (.onLine 3 (.unreadable .notUtf8)) },
          (alone.load t #[]).2) ∧
      ∃ texts : List String,
        texts.map (·.toUTF8.data.toList) = [[120, 32, 49], [195, 169, 32, 50]] ∧
        Source.load { chunks } t #[] = Loaded.loadLines { table := t } 1 texts #[] := by
  intro t start chunks invalid alone
  refine ⟨?_, ?_⟩
  · have hcut : invalid.cut? = some (3, .notUtf8) := by with_unfolding_all rfl
    have hbefore : invalid.before 3 = start ++ [10] := by decide +kernel
    have halone : ofBytes (invalid.before 3).toByteArray = alone := by rw [hbefore]
    have hload := ((load_eq_before invalid t #[]).1 3 .notUtf8 hcut).2
    rw [halone] at hload
    exact hload
  · have hcut : Source.cut? { chunks } = none := by decide +kernel
    have hlines : Source.lines { chunks } = [[120, 32, 49], [195, 169, 32, 50]] := by
      decide +kernel
    have hload := ((load_eq_before { chunks } t #[]).2 hcut).1
    rw [hlines] at hload
    exact hload

end Source

end Reckon.Values
