import Mathlib.Logic.Relation
import Reckon.Proofs.LongestMatch

/-!
# Blanks in a values text

Spaces, tabs, carriage returns and form feeds separate the tokens of a values line and have no other
meaning. Three things look at them: the end of a line loses one carriage return, the first word ends
at any white space, and a scan skips just these four characters. A blank ends both a word and a
lexeme, so a line with a blank in it has the first word of one of its parts and the tokens of both.
For that reason a line is read as before if a run of blanks is replaced by another one, or is put in
where no lexeme and no part of the first word is, and a text is loaded as before if its lines are
ended in another way.

## Key results

- `Lexeme.first?_append_blank`: no lexeme goes over a blank
- `Token.scan_go_append_blanks`: the tokens of a line with blanks in it
- `Line.Respaces.alike`: blanks between tokens do not matter to the reading of a line
- `Source.load_of_respaced`: nor do they to the loading of a text
-/

namespace Reckon

/-! ## The first word -/

namespace Text

theorem firstWord?_cons_blank {c : Char} (hc : isBlank c) (cs : List Char) :
    firstWord? (c :: cs) = firstWord? cs := by
  rw [firstWord?, List.dropWhile_cons_of_pos hc]
  rfl

/-- A line with a blank in it has the first word of what is before the blank, or else of what is
    after it. -/
theorem firstWord?_append_blank {c : Char} (hc : isBlank c) (cs ds : List Char) :
    firstWord? (cs ++ c :: ds) = (firstWord? cs).or (firstWord? ds) := by
  induction cs with
  | nil => exact firstWord?_cons_blank hc ds
  | cons d cs ih =>
    by_cases hd : isBlank d
    · rw [List.cons_append, firstWord?_cons_blank hd, firstWord?_cons_blank hd, ih]
    · -- the word has begun, and the blank is where it ends at the latest
      have hword : ∀ rest, firstWord? (d :: rest) = some (d :: rest.takeWhile (!isBlank ·)) := by
        intro rest
        rw [firstWord?, List.dropWhile_cons_of_neg hd, List.takeWhile_cons_of_pos (by simp [hd])]
      have hends : (cs ++ c :: ds).takeWhile (!isBlank ·) = cs.takeWhile (!isBlank ·) := by
        rw [List.takeWhile_append, List.takeWhile_cons_of_neg (by simp [hc])]
        split
        · next hlength =>
          rw [List.append_nil, (List.takeWhile_prefix _).eq_of_length hlength]
        · rfl
      rw [List.cons_append, hword, hword, hends, Option.some_or]

theorem firstWord?_blanks_append {blanks : List Char} (h : ∀ c ∈ blanks, isBlank c)
    (cs : List Char) : firstWord? (blanks ++ cs) = firstWord? cs := by
  induction blanks with
  | nil => rfl
  | cons c blanks ih =>
    obtain ⟨hc, hblanks⟩ := List.forall_mem_cons.mp h
    rw [List.cons_append, firstWord?_cons_blank hc, ih hblanks]

theorem firstWord?_append_blanks {blanks : List Char} (hne : blanks ≠ [])
    (h : ∀ c ∈ blanks, isBlank c) (cs ds : List Char) :
    firstWord? (cs ++ (blanks ++ ds)) = (firstWord? cs).or (firstWord? ds) := by
  cases blanks with
  | nil => exact absurd rfl hne
  | cons c blanks =>
    obtain ⟨hc, hblanks⟩ := List.forall_mem_cons.mp h
    rw [List.cons_append, firstWord?_append_blank hc, firstWord?_blanks_append hblanks]

end Text

namespace Values

/-! ## Lexemes and blanks -/

namespace Lexeme

/-- A lexeme contains no blank. -/
theorem isBlank_eq_false_of_mem {w : List Char} (hw : w ∈ language) {c : Char} (hc : c ∈ w) :
    Token.isBlank c = false := by
  obtain ⟨l, hl, rfl⟩ := mem_language_iff.mp hw
  have hchar := hl.of_mem_text hc
  rw [Bool.eq_false_iff]
  intro hblank
  simp only [Token.isBlank, Bool.or_eq_true, decide_eq_true_eq, or_assoc] at hblank
  rcases hblank with rfl | rfl | rfl | rfl <;> exact absurd hchar (by decide)

variable {c : Char} {cs ds w : List Char}

theorem isPrefix_append_blank_iff (hw : w ∈ language) (hc : Token.isBlank c) :
    w <+: cs ++ c :: ds ↔ w <+: cs := by
  refine ⟨fun h => ?_, fun h => h.trans (List.prefix_append _ _)⟩
  rcases List.prefix_or_prefix_of_prefix h (List.prefix_append cs (c :: ds)) with hle | ⟨rest, rfl⟩
  · exact hle
  · cases rest with
    | nil => simp
    | cons d rest =>
      -- a lexeme that goes on would go on with the blank
      obtain rfl : d = c := (List.cons_prefix_cons.mp ((List.prefix_append_right_inj cs).mp h)).1
      rw [isBlank_eq_false_of_mem hw (by simp)] at hc
      exact nomatch hc

/-- No lexeme goes over a blank. -/
theorem first?_append_blank (hc : Token.isBlank c) (cs ds : List Char) :
    first? (cs ++ c :: ds) = first? cs := by
  have hlongest : ∀ w, Longest (cs ++ c :: ds) w ↔ Longest cs w := by
    intro w
    constructor
    · rintro ⟨hmem, hprefix, hle⟩
      refine ⟨hmem, (isPrefix_append_blank_iff hmem hc).mp hprefix, fun v hv hvcs => ?_⟩
      exact hle v hv ((isPrefix_append_blank_iff hv hc).mpr hvcs)
    · rintro ⟨hmem, hprefix, hle⟩
      refine ⟨hmem, (isPrefix_append_blank_iff hmem hc).mpr hprefix, fun v hv hvcs => ?_⟩
      exact hle v hv ((isPrefix_append_blank_iff hv hc).mp hvcs)
  refine Option.ext fun l => ?_
  rw [first?_eq_some_iff_longest, first?_eq_some_iff_longest, hlongest]

end Lexeme

/-! ## Scans and blanks -/

namespace Token

variable {blanks cs ds : List Char}

theorem scan_go_blanks (h : ∀ c ∈ blanks, isBlank c) (found : Array Token) (cs : List Char) :
    scan.go found (blanks ++ cs) = scan.go found cs := by
  induction blanks with
  | nil => rfl
  | cons c blanks ih =>
    obtain ⟨hc, hblanks⟩ := List.forall_mem_cons.mp h
    rw [List.cons_append, scan_go_blank hc, ih hblanks]

/-- A scan comes to a blank when it has found the tokens before it. -/
theorem scan_go_append_blank {c : Char} (hc : isBlank c) (found : Array Token)
    (cs ds : List Char) :
    scan.go found (cs ++ c :: ds) = (scan.go found cs).bind fun found => scan.go found ds := by
  -- Induction along the scan of the part before the blank, which finds the same lexemes there.
  fun_induction scan.go found cs with
  | case1 found => rw [List.nil_append, scan_go_blank hc, Except.bind]
  | case2 found d cs hblank ih => rw [List.cons_append, scan_go_blank hblank, ih]
  | case3 found d cs hblank hnone =>
    rw [← Lexeme.first?_append_blank hc _ ds, List.cons_append] at hnone
    rw [List.cons_append, scan.go, if_neg hblank, hnone, Except.bind]
  | case4 found d cs hblank l hfirst hnone =>
    rw [← Lexeme.first?_append_blank hc _ ds, List.cons_append] at hfirst
    rw [List.cons_append, scan.go, if_neg hblank, hfirst]
    simp only [hnone, Except.bind]
  | case5 found d cs hblank l hfirst token htoken ih =>
    have hlength : l.text.length - 1 ≤ cs.length := by
      have hle := (Lexeme.spelled_of_first? hfirst).2.length_le
      rw [List.length_cons] at hle
      omega
    rw [← Lexeme.first?_append_blank hc _ ds, List.cons_append] at hfirst
    rw [List.cons_append, scan.go, if_neg hblank, hfirst]
    simp only [htoken, List.drop_append_of_le_length hlength, ih]

/-- The tokens of a line with blanks in it are those before the blanks and those after them. -/
theorem scan_go_append_blanks (hne : blanks ≠ []) (h : ∀ c ∈ blanks, isBlank c)
    (found : Array Token) (cs ds : List Char) :
    scan.go found (cs ++ (blanks ++ ds)) =
      (scan.go found cs).bind fun found => scan.go found ds := by
  cases blanks with
  | nil => exact absurd rfl hne
  | cons c blanks =>
    obtain ⟨hc, hblanks⟩ := List.forall_mem_cons.mp h
    rw [List.cons_append, scan_go_append_blank hc]
    simp only [scan_go_blanks hblanks]

/-- What is the longest lexeme in front of a text is so in front of its first part. -/
theorem longest_of_append {w cs ds : List Char} (h : Lexeme.Longest (w ++ (cs ++ ds)) w) :
    Lexeme.Longest (w ++ cs) w := by
  refine ⟨h.mem, List.prefix_append _ _, fun v hv hvcs => h.length_le v hv ?_⟩
  rw [← List.append_assoc]
  exact hvcs.trans (List.prefix_append _ _)

theorem Munches.exists_append {bs ds : List Char} {lexemes : List (List Char)}
    (h : Munches bs lexemes ds) : ∃ cs, bs = cs ++ ds ∧ ∀ found,
      scan.go found bs = (scan.go found cs).bind fun found => scan.go found ds := by
  -- Induction on the rules, with a token or an error for each lexeme that is cut off.
  induction h with
  | refl cs => exact ⟨[], rfl, fun found => by rw [scan.go, Except.bind]⟩
  | @blank c cs rest lexemes hc _ ih =>
    obtain ⟨cs, rfl, hscan⟩ := ih
    refine ⟨c :: cs, rfl, fun found => ?_⟩
    rw [scan_go_blank hc, scan_go_blank hc, hscan]
  | @lexeme w cs rest lexemes hlongest _ ih =>
    obtain ⟨cs, rfl, hscan⟩ := ih
    refine ⟨w ++ cs, by rw [List.append_assoc], fun found => ?_⟩
    obtain ⟨l, hl, htext, hwhole⟩ := scan_go_longest hlongest
    obtain ⟨l', hl', htext', hpart⟩ := scan_go_longest (longest_of_append hlongest)
    obtain rfl := hl.eq_of_text hl' (htext.trans htext'.symm)
    rw [hwhole, hpart]
    cases l.token? with
    | none => rfl
    | some token => exact hscan _

/-- The tokens of a line that is cut between two lexemes are those of its parts. -/
theorem Munches.scan_go_append {lexemes : List (List Char)} (h : Munches (cs ++ ds) lexemes ds)
    (found : Array Token) :
    scan.go found (cs ++ ds) = (scan.go found cs).bind fun found => scan.go found ds := by
  obtain ⟨front, heq, hscan⟩ := h.exists_append
  obtain rfl := List.append_cancel_right heq
  exact hscan found

end Token

/-! ## Lines -/

namespace Line

/-- The changes of a line that leave its first word and its tokens alone. -/
inductive Respaces : List Char → List Char → Prop
  /-- Blanks are replaced by other blanks. -/
  | replace (before after : List Char) {blanks blanks' : List Char} : blanks ≠ [] → blanks' ≠ [] →
      (∀ c ∈ blanks, Token.isBlank c) → (∀ c ∈ blanks', Token.isBlank c) →
      Respaces (before ++ (blanks ++ after)) (before ++ (blanks' ++ after))
  /-- Blanks are put in at the start. -/
  | start (line : List Char) {blanks : List Char} : blanks ≠ [] →
      (∀ c ∈ blanks, Token.isBlank c) → Respaces line (blanks ++ line)
  /-- Blanks are put in at the end. -/
  | finish (line : List Char) {blanks : List Char} : blanks ≠ [] →
      (∀ c ∈ blanks, Token.isBlank c) → Respaces line (line ++ blanks)
  /-- Blanks are put in where the first word has ended and the line can be cut between lexemes. -/
  | between {before after blanks word : List Char} {lexemes : List (List Char)} :
      Text.firstWord? before = some word → Text.firstWord? (before ++ after) = some word →
      Token.Munches (before ++ after) lexemes after → blanks ≠ [] →
      (∀ c ∈ blanks, Token.isBlank c) → Respaces (before ++ after) (before ++ (blanks ++ after))

/-- Whether lines have the same first word and the same tokens, or fail to have tokens for the same
    reason. -/
structure Alike (cs ds : List Char) : Prop where
  word : Text.firstWord? cs = Text.firstWord? ds
  tokens : Token.scan.go #[] cs = Token.scan.go #[] ds

variable {cs ds es : List Char}

theorem Alike.refl (cs : List Char) : Alike cs cs :=
  ⟨rfl, rfl⟩

theorem Alike.symm (h : Alike cs ds) : Alike ds cs :=
  ⟨h.word.symm, h.tokens.symm⟩

theorem Alike.trans (h : Alike cs ds) (h' : Alike ds es) : Alike cs es :=
  ⟨h.word.trans h'.word, h.tokens.trans h'.tokens⟩

/-- Lines that are alike are read alike. -/
theorem Alike.read_eq (h : Alike cs ds) (kind? : String → Option Kind) :
    read kind? (String.ofList cs) = read kind? (String.ofList ds) := by
  unfold read Token.scan
  rw [String.toList_ofList, String.toList_ofList, h.word, h.tokens]

/-- Blanks at the end of a line do not matter. -/
theorem alike_append_blanks {blanks : List Char} (hne : blanks ≠ [])
    (h : ∀ c ∈ blanks, Token.isBlank c) (cs : List Char) : Alike (cs ++ blanks) cs where
  word := by
    have hword := Text.firstWord?_append_blanks hne
      (fun c hc => Token.textIsBlank_of_isBlank (h c hc)) cs []
    rwa [List.append_nil, show Text.firstWord? [] = none from rfl, Option.or_none] at hword
  tokens := by
    have hscan := Token.scan_go_append_blanks hne h #[] cs []
    rw [List.append_nil] at hscan
    rw [hscan]
    cases Token.scan.go #[] cs with
    | error text => rfl
    | ok found => rw [Except.bind, Token.scan.go]

/-- A line is alike without the carriage return at its end. -/
theorem alike_dropReturn (cs : List Char) : Alike (Text.dropReturn cs) cs := by
  unfold Text.dropReturn
  split
  · next hlast =>
    obtain ⟨front, rfl⟩ := List.getLast?_eq_some_iff.mp hlast
    rw [List.dropLast_concat]
    have hreturn : ∀ c ∈ ['\r'], Token.isBlank c := List.forall_mem_singleton.mpr rfl
    exact (alike_append_blanks (List.cons_ne_nil _ _) hreturn front).symm
  · exact Alike.refl cs

/-- Blanks between tokens do not matter to the reading of a line. -/
theorem Respaces.alike (h : Respaces cs ds) : Alike ds cs := by
  have htext : ∀ {blanks : List Char}, (∀ c ∈ blanks, Token.isBlank c) →
      ∀ c ∈ blanks, Text.isBlank c := fun h c hc => Token.textIsBlank_of_isBlank (h c hc)
  cases h with
  | replace before after hne hne' hblanks hblanks' =>
    constructor
    · rw [Text.firstWord?_append_blanks hne' (htext hblanks'),
        Text.firstWord?_append_blanks hne (htext hblanks)]
    · rw [Token.scan_go_append_blanks hne' hblanks', Token.scan_go_append_blanks hne hblanks]
  | start line hne hblanks =>
    exact ⟨Text.firstWord?_blanks_append (htext hblanks) cs, Token.scan_go_blanks hblanks #[] cs⟩
  | finish line hne hblanks => exact alike_append_blanks hne hblanks cs
  | @between before after blanks word lexemes hword hword' hmunches hne hblanks =>
    constructor
    · rw [Text.firstWord?_append_blanks hne (htext hblanks), hword, hword', Option.some_or]
    · rw [Token.scan_go_append_blanks hne hblanks, hmunches.scan_go_append]

/-- Blanks in a line leave it one line. -/
theorem Respaces.lineFeed_not_mem (h : Respaces cs ds) (hcs : '\n' ∉ cs) : '\n' ∉ ds := by
  have hblank : ∀ {blanks : List Char}, (∀ c ∈ blanks, Token.isBlank c) → '\n' ∉ blanks :=
    fun h hmem => absurd (h _ hmem) (by decide)
  cases h with
  | replace before after _ _ _ hblanks' =>
    simp only [List.mem_append, not_or] at hcs ⊢
    exact ⟨hcs.1, hblank hblanks', hcs.2.2⟩
  | start line _ hblanks => simp [hblank hblanks, hcs]
  | finish line _ hblanks => simp [hblank hblanks, hcs]
  | between _ _ _ _ hblanks =>
    simp only [List.mem_append, not_or] at hcs ⊢
    exact ⟨hcs.1, hblank hblanks, hcs.2⟩

end Line

/-! ## Texts -/

/-- Whether lines are loaded to the same effect into every table. -/
def SameLoad (ls ls' : List (List Char)) : Prop :=
  ∀ (loaded : Loaded) (number : Nat) (log : Log),
    loaded.loadLines number (ls.map String.ofList) log =
      loaded.loadLines number (ls'.map String.ofList) log

namespace SameLoad

variable {ls ls' ls'' : List (List Char)} {line line' : List Char}

theorem refl (ls : List (List Char)) : SameLoad ls ls :=
  fun _ _ _ => rfl

theorem symm (h : SameLoad ls ls') : SameLoad ls' ls :=
  fun loaded number log => (h loaded number log).symm

theorem trans (h : SameLoad ls ls') (h' : SameLoad ls' ls'') : SameLoad ls ls'' :=
  fun loaded number log => (h loaded number log).trans (h' loaded number log)

/-- One line after the other can be put in the place of one that is alike. -/
theorem cons (hline : Line.Alike line line') (h : SameLoad ls ls') :
    SameLoad (line :: ls) (line' :: ls') := by
  intro loaded number log
  have hload : loaded.load number (String.ofList line) log =
      loaded.load number (String.ofList line') log := by
    unfold Loaded.load
    rw [hline.read_eq]
  rw [List.map_cons, List.map_cons, Loaded.loadLines_cons, Loaded.loadLines_cons, hload, h]

theorem append_left (front : List (List Char)) (h : SameLoad ls ls') :
    SameLoad (front ++ ls) (front ++ ls') := by
  induction front with
  | nil => exact h
  | cons line front ih => exact cons (Line.Alike.refl line) ih

end SameLoad

/-- An empty line at the end of a text has no effect. -/
theorem sameLoad_empty : SameLoad [[]] [] :=
  fun _ _ _ => rfl

end Values

namespace Text

/-- A carriage return goes before a line feed. -/
def withReturn (c : Char) : List Char :=
  if c = '\n' then ['\r', '\n'] else [c]

/-- The changes of a values text that leave the tokens of its lines alone. -/
inductive Respaces : List Char → List Char → Prop
  /-- All line feeds get a carriage return before them. -/
  | returns (text : List Char) : Respaces text (text.flatMap withReturn)
  /-- One line gets other blanks. -/
  | line {before line line' after : List Char} : (∀ c ∈ before.getLast?, c = '\n') →
      (∀ c ∈ after.head?, c = '\n') → '\n' ∉ line → Values.Line.Respaces line line' →
      Respaces (before ++ (line ++ after)) (before ++ (line' ++ after))

theorem linesFrom_line {line : List Char} (h : '\n' ∉ line) (begun : List Char) :
    linesFrom begun line = if begun ++ line = [] then [] else [begun ++ line] := by
  induction line generalizing begun with
  | nil => simp [linesFrom]
  | cons c line ih =>
    have hc : c ≠ '\n' := fun hc => h (hc ▸ List.mem_cons_self)
    rw [linesFrom, if_neg hc, ih fun hmem => h (List.mem_cons_of_mem _ hmem)]
    simp

/-- The lines of a text of two parts, the first of which is ended. -/
theorem linesFrom_ended (front begun rest : List Char) :
    linesFrom begun (front ++ '\n' :: rest) =
      linesFrom begun (front ++ ['\n']) ++ linesFrom [] rest := by
  induction front generalizing begun with
  | nil => simp [linesFrom]
  | cons c front ih =>
    rw [List.cons_append, List.cons_append, linesFrom, linesFrom]
    split
    · rw [ih, List.cons_append]
    · rw [ih]

theorem linesFrom_append_of_getLast? {before : List Char} (h : ∀ c ∈ before.getLast?, c = '\n')
    (rest : List Char) :
    linesFrom [] (before ++ rest) = linesFrom [] before ++ linesFrom [] rest := by
  rcases List.eq_nil_or_concat before with rfl | ⟨front, c, rfl⟩
  · rfl
  · obtain rfl := h c (by simp)
    rw [List.concat_eq_append, List.append_assoc, List.singleton_append, linesFrom_ended]

end Text

namespace Values

open Text

/-- Carriage returns before the line feeds have no effect. -/
theorem sameLoad_withReturn (begun cs : List Char) :
    SameLoad (linesFrom begun (cs.flatMap withReturn)) (linesFrom begun cs) := by
  -- Induction on the text. Each line gets a carriage return at its end and loses it again, so it
  -- keeps the one that it may have had.
  induction cs generalizing begun with
  | nil => exact .refl _
  | cons c cs ih =>
    rw [List.flatMap_cons, withReturn]
    by_cases hc : c = '\n'
    · have hline : dropReturn (begun ++ ['\r']) = begun := by simp [dropReturn]
      rw [if_pos hc, List.cons_append, List.cons_append, List.nil_append, linesFrom,
        if_neg (by decide), linesFrom, if_pos rfl, hline, linesFrom, if_pos hc]
      exact .cons (Line.alike_dropReturn begun).symm (ih [])
    · rw [if_neg hc, List.singleton_append, linesFrom, if_neg hc, linesFrom, if_neg hc]
      exact ih _

/-- The last line of a text is loaded as if it counted even without characters. -/
theorem sameLoad_lastLine {line : List Char} (h : '\n' ∉ line) :
    SameLoad (linesFrom [] line) [line] := by
  rw [linesFrom_line h, List.nil_append]
  split
  · next hnil =>
    rw [hnil]
    exact sameLoad_empty.symm
  · exact .refl _

/-- A line that is alike has the same effect, whether or not it is the last one. -/
theorem sameLoad_of_alike {line line' after : List Char} (hafter : ∀ c ∈ after.head?, c = '\n')
    (hline : '\n' ∉ line) (hline' : '\n' ∉ line') (halike : Line.Alike line' line) :
    SameLoad (linesFrom [] (line' ++ after)) (linesFrom [] (line ++ after)) := by
  cases after with
  | nil =>
    rw [List.append_nil, List.append_nil]
    exact (sameLoad_lastLine hline').trans
      ((SameLoad.cons halike (.refl [])).trans (sameLoad_lastLine hline).symm)
  | cons c rest =>
    obtain rfl := hafter c rfl
    rw [linesFrom_append hline', linesFrom_append hline, List.nil_append, List.nil_append]
    exact .cons ((Line.alike_dropReturn line').trans
      (halike.trans (Line.alike_dropReturn line).symm)) (.refl _)

theorem sameLoad_of_respaces {text text' : List Char} (h : Text.Respaces text text') :
    SameLoad (linesFrom [] text') (linesFrom [] text) := by
  cases h with
  | returns => exact sameLoad_withReturn [] text
  | line hbefore hafter hline hrespaces =>
    rw [linesFrom_append_of_getLast? hbefore, linesFrom_append_of_getLast? hbefore]
    exact .append_left _
      (sameLoad_of_alike hafter hline (hrespaces.lineFeed_not_mem hline) hrespaces.alike)

theorem sameLoad_of_respaced {text text' : List Char}
    (h : Relation.ReflTransGen Text.Respaces text text') :
    SameLoad (linesFrom [] text') (linesFrom [] text) := by
  induction h with
  | refl => exact .refl _
  | tail _ hstep ih => exact (sameLoad_of_respaces hstep).trans ih

/-- A text that has other blanks in its lines, or carriage returns before its line feeds, leaves the
    same table, the same errors and the same reports as before. -/
theorem Source.load_of_respaced {text text' : String}
    (h : Relation.ReflTransGen Text.Respaces text.toList text'.toList) (t : Table) (log : Log) :
    (Source.ofText text').load t log = (Source.ofText text).load t log := by
  rw [load_ofText, load_ofText]
  exact sameLoad_of_respaced h { table := t } 1 log

/-- A blank before the bracket, and another end of the lines, leave both the line that is accepted
    and the one that fails as they are. -/
theorem Source.load_of_respaced_malformed :
    let t : Table := { scalars := ⟨[("x", 0)]⟩, arrays := ⟨[("A", .unloaded)]⟩ }
    let loaded := ((Source.ofText "x 5\nA 1(\n").load t #[]).1
    loaded.table = { scalars := ⟨[("x", 5)]⟩, arrays := ⟨[("A", .unloaded)]⟩ } ∧
      loaded.errors.map LoadError.message =
        #["Error on line 2: Malformed value line: " ++
          "expected '(index,value)' pairs after the length of 'A'."] ∧
      (Source.ofText "x 5\r\nA 1 (\r\n").load t #[] =
        (Source.ofText "x 5\nA 1(\n").load t #[] := by
  intro t loaded
  have hmunches : Token.Munches (['A'] ++ ' ' :: (['1'] ++ ['('])) [['A'], ['1']] ['('] := by
    refine .lexeme ?_ (.blank rfl (.lexeme ?_ (.refl _)))
    · exact (Lexeme.first?_eq_some_iff_longest (l := .name ['A']).mp rfl).2
    · exact (Lexeme.first?_eq_some_iff_longest (l := .integer false ['1']).mp rfl).2
  have hbetween : Line.Respaces "A 1(".toList "A 1 (".toList :=
    @Line.Respaces.between "A 1".toList ['('] [' '] ['A'] _ (by decide +kernel)
      (by decide +kernel) hmunches (List.cons_ne_nil _ _) (List.forall_mem_singleton.mpr rfl)
  have hline : Text.Respaces "x 5\nA 1(\n".toList "x 5\nA 1 (\n".toList :=
    @Text.Respaces.line ['x', ' ', '5', '\n'] _ _ ['\n'] (by simp) (by simp) (by decide) hbetween
  have hreturns : Text.Respaces "x 5\nA 1 (\n".toList "x 5\r\nA 1 (\r\n".toList :=
    .returns "x 5\nA 1 (\n".toList
  exact ⟨by decide +kernel, by decide +kernel,
    load_of_respaced ((Relation.ReflTransGen.single hline).tail hreturns) t #[]⟩

end Values

end Reckon
