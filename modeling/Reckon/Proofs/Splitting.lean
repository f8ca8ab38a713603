import Reckon.Proofs.Scanning

/-!
# How a text is cut into tokens

`Token.Splits` says which tokens a text has, one rule for each thing that can come next: a blank is
lost, a symbol is a token of its own, and a maximal run of other characters is one token, which
`Token.ReadsRun` classifies by the regular language of the numerals and by the ASCII letters. The
relation knows nothing of how a scan looks for the end of a run. A scan finds the tokens that the
relation gives to the text, and no others.

## Key results

- `Token.splits_iff_scan`: the tokens of a text are those of a scan
- `Token.Splits.exists_covers`: every character that is not blank is in one token and no other
- `Token.text_of_mem_scan`: a token is displayed as it stands in the text, unless it is a number
- `Token.scan_eq_reference`: the tokens of a scan, what they leave out, and their offsets
-/

namespace Reckon

namespace Token

/-! ## The tokens of a text -/

/-- What a maximal run of ordinary characters is: a number if the whole run is in the language of
    the numerals, a name if it consists of ASCII letters, and else unrecognized. The value of a
    number is that of the numeral that is spelled, and the others carry the run. -/
structure ReadsRun (run : List Char) (token : Token) : Prop where
  isNumber : (∃ v, token = number v) ↔ run ∈ Numeral.plainLanguage
  value : ∀ v, token = number v ↔ ∃ n : Numeral, n.Plain ∧ n.text = run ∧ n.value false = v
  isName : ∀ s, token = name s ↔ (∀ c ∈ run, c.isAlpha) ∧ s = String.ofList run
  isUnrecognized : ∀ s, token = unrecognized s ↔
    run ∉ Numeral.plainLanguage ∧ ¬ (∀ c ∈ run, c.isAlpha) ∧ s = String.ofList run

/-- The tokens of what is left of a text from a byte offset on. -/
inductive Splits : Nat → List Char → List Placed → Prop
  /-- Nothing is left. -/
  | nil (offset : Nat) : Splits offset [] []
  /-- A blank is no token. -/
  | blank {offset : Nat} {c : Char} {cs : List Char} {ps : List Placed} : Blank c →
      Splits (offset + 1) cs ps → Splits offset (c :: cs) ps
  /-- A symbol is a token. -/
  | symbol {offset : Nat} {c : Char} {token : Token} {cs : List Char} {ps : List Placed} :
      (c, token) ∈ symbols → Splits (offset + 1) cs ps →
      Splits offset (c :: cs) (⟨token, offset⟩ :: ps)
  /-- A maximal run of ordinary characters is a token. -/
  | run {offset : Nat} {run : List Char} {token : Token} {cs : List Char} {ps : List Placed} :
      run ≠ [] → (∀ c ∈ run, Ordinary c) → (∀ c ∈ cs.head?, ¬ Ordinary c) → ReadsRun run token →
      Splits (offset + Text.byteLength run) cs ps →
      Splits offset (run ++ cs) (⟨token, offset⟩ :: ps)

/-! ## Runs -/

theorem Blank.byteLength {c : Char} (h : Blank c) : Text.byteLength [c] = 1 := by
  rw [Text.byteLength_cons, h.utf8Size]
  rfl

theorem byteLength_of_mem_symbols {c : Char} {token : Token} (h : (c, token) ∈ symbols) :
    Text.byteLength [c] = 1 := by
  rw [Text.byteLength_cons, utf8Size_of_mem_symbols h]
  rfl

/-- A run is read as `ofRun` says, and as nothing else. -/
theorem readsRun_iff {run : List Char} (hne : run ≠ []) {token : Token} :
    ReadsRun run token ↔ token = ofRun run := by
  have hnumeral : run ∈ Numeral.plainLanguage ↔ ∃ n, Numeral.ofPlain? run = some n := by
    simp only [Numeral.mem_plainLanguage_iff, Numeral.ofPlain?_eq_some_iff]
  -- The three cases in which a run is a number, a name, or neither; in each of them, both sides
  -- say which token it is.
  cases hplain : Numeral.ofPlain? run with
  | some n =>
    obtain ⟨hn, htext⟩ := Numeral.ofPlain?_eq_some_iff.mp hplain
    have hrun : ofRun run = number (n.value false) := htext ▸ ofRun_numeral hn
    have hletters : ¬ ∀ c ∈ run, c.isAlpha := fun h => by
      rw [ofPlain?_eq_none_of_isAlpha hne h] at hplain
      cases hplain
    rw [hrun]
    constructor
    · exact fun h => (h.value _).mpr ⟨n, hn, htext, rfl⟩
    · rintro rfl
      refine ⟨by simp [hnumeral, hplain], fun v => ?_, fun s => by simp [hletters],
        fun s => by simp [hnumeral, hplain]⟩
      simp only [number.injEq, ← and_assoc, ← Numeral.ofPlain?_eq_some_iff, hplain,
        Option.some.injEq, exists_eq_left']
  | none =>
    have hnone : ¬ ∃ n : Numeral, n.Plain ∧ n.text = run := by
      simp only [← Numeral.ofPlain?_eq_some_iff, hplain, reduceCtorEq, exists_false,
        not_false_eq_true]
    have hvalue : ∀ v : Float, ¬ ∃ n : Numeral, n.Plain ∧ n.text = run ∧ n.value false = v := by
      rintro v ⟨n, hn, htext, -⟩
      exact hnone ⟨n, hn, htext⟩
    by_cases hletters : ∀ c ∈ run, c.isAlpha
    · rw [ofRun_letters hne hletters]
      constructor
      · exact fun h => (h.isName _).mpr ⟨hletters, rfl⟩
      · rintro rfl
        refine ⟨by simp [hnumeral, hplain], fun v => by simp [hvalue v], fun s => ?_, fun s => ?_⟩
        · rw [and_iff_right hletters, name.injEq, eq_comm]
        · exact iff_of_false (by simp) fun h => h.2.1 hletters
    · rw [ofRun_of_not (fun n hn htext => hnone ⟨n, hn, htext⟩) hletters]
      constructor
      · exact fun h => (h.isUnrecognized _).mpr ⟨by simp [hnumeral, hplain], hletters, rfl⟩
      · rintro rfl
        refine ⟨by simp [hnumeral, hplain], fun v => by simp [hvalue v], fun s => ?_, fun s => ?_⟩
        · exact iff_of_false (by simp) fun h => hletters h.1
        · have hmem : run ∉ Numeral.plainLanguage := by simp [hnumeral, hplain]
          rw [and_iff_right hmem, and_iff_right hletters, unrecognized.injEq, eq_comm]

/-! ## Scans -/

/-- A scan finds the tokens that are left in a text. -/
theorem Splits.scanFrom_eq {offset : Nat} {cs : List Char} {ps : List Placed}
    (h : Splits offset cs ps) : scanFrom offset cs = ps := by
  -- Induction on the rules, each of which is a step of the scan.
  induction h with
  | nil offset => exact scanFrom_nil offset
  | @blank offset c cs ps hc _ ih =>
    have hskip := scanFrom_blanks (List.forall_mem_singleton.mpr hc) offset cs
    rwa [hc.byteLength, List.singleton_append, ih] at hskip
  | symbol hc _ ih => rw [scanFrom_symbol hc, ih]
  | run hne hrun hcs hread _ ih =>
    rw [scanFrom_run hne hrun hcs, ih, (readsRun_iff hne).mp hread]

/-- A text that starts with an ordinary character starts with a maximal run of them. -/
theorem exists_run {c : Char} (hc : Ordinary c) (cs : List Char) :
    ∃ run rest, c :: cs = run ++ rest ∧ run ≠ [] ∧ (∀ d ∈ run, Ordinary d) ∧
      ∀ d ∈ rest.head?, ¬ Ordinary d := by
  refine ⟨c :: cs.takeWhile (!isDelimiter ·), cs.dropWhile (!isDelimiter ·), ?_,
    List.cons_ne_nil _ _, List.forall_mem_cons.mpr ⟨hc, fun d hd => ?_⟩, fun d hd => ?_⟩
  · rw [List.cons_append, List.takeWhile_append_dropWhile]
  · rw [← isDelimiter_eq_false_iff]
    simpa using List.all_eq_true.mp List.all_takeWhile d hd
  · have hnot := List.head?_dropWhile_not (!isDelimiter ·) cs
    rw [hd] at hnot
    rw [← isDelimiter_eq_false_iff]
    simpa using hnot

/-- Every text has tokens. -/
theorem exists_splits (offset : Nat) (cs : List Char) : ∃ ps, Splits offset cs ps := by
  -- Induction on the length of the text, because a run is cut off as a whole.
  induction hn : cs.length using Nat.strongRecOn generalizing offset cs with
  | ind n ih =>
    subst hn
    cases cs with
    | nil => exact ⟨[], .nil offset⟩
    | cons c cs =>
      rcases blank_or_symbol_or_ordinary c with hc | ⟨token, hc⟩ | hc
      · obtain ⟨ps, hps⟩ := ih cs.length (by simp) (offset + 1) cs rfl
        exact ⟨ps, .blank hc hps⟩
      · obtain ⟨ps, hps⟩ := ih cs.length (by simp) (offset + 1) cs rfl
        exact ⟨_, .symbol hc hps⟩
      · obtain ⟨run, rest, hsplit, hne, hrun, hrest⟩ := exists_run hc cs
        rw [hsplit] at ih ⊢
        have hlt : rest.length < (run ++ rest).length := by
          have := List.length_pos_of_ne_nil hne
          rw [List.length_append]
          omega
        obtain ⟨ps, hps⟩ := ih rest.length hlt (offset + Text.byteLength run) rest rfl
        exact ⟨_, .run hne hrun hrest ((readsRun_iff hne).mpr rfl) hps⟩

/-- The tokens of a text are those of a scan. -/
theorem splits_iff_scan {text : String} {ps : List Placed} :
    Splits 0 text.toList ps ↔ ps = (scan text).toList := by
  rw [toList_scan]
  constructor
  · exact fun h => h.scanFrom_eq.symm
  · rintro rfl
    obtain ⟨ps, hps⟩ := exists_splits 0 text.toList
    rwa [hps.scanFrom_eq]

theorem splits_scan (text : String) : Splits 0 text.toList (scan text).toList :=
  splits_iff_scan.mpr rfl

/-! ## Where the tokens are -/

/-- Whether characters are those of a token: a symbol, or a run that is read as the token. -/
def Spells (lexeme : List Char) (token : Token) : Prop :=
  (∃ c, lexeme = [c] ∧ (c, token) ∈ symbols) ∨
    lexeme ≠ [] ∧ (∀ c ∈ lexeme, Ordinary c) ∧ ReadsRun lexeme token

/-- The tokens of stretches of a text, the first of which starts at a byte offset. A stretch without
    a token is lost. -/
def placeFrom : Nat → List (List Char × Option Token) → List Placed
  | _, [] => []
  | offset, (cs, none) :: rest => placeFrom (offset + Text.byteLength cs) rest
  | offset, (cs, some token) :: rest =>
    ⟨token, offset⟩ :: placeFrom (offset + Text.byteLength cs) rest

/-- Stretches that make up a text and hold its tokens: each character is in one of them, and only
    blanks are in a stretch without a token. -/
structure Covers (offset : Nat) (cs : List Char) (stretches : List (List Char × Option Token))
    (ps : List Placed) : Prop where
  whole : stretches.flatMap Prod.fst = cs
  tokens : placeFrom offset stretches = ps
  lost : ∀ s ∈ stretches, s.2 = none → ∀ c ∈ s.1, Blank c
  kept : ∀ s ∈ stretches, ∀ token, s.2 = some token → Spells s.1 token ∧ ∀ c ∈ s.1, ¬ Blank c

theorem covers_nil (offset : Nat) : Covers offset [] [] [] :=
  ⟨rfl, rfl, nofun, nofun⟩

theorem Covers.lose {offset : Nat} {lost cs : List Char}
    {stretches : List (List Char × Option Token)} {ps : List Placed}
    (h : Covers (offset + Text.byteLength lost) cs stretches ps) (hlost : ∀ c ∈ lost, Blank c) :
    Covers offset (lost ++ cs) ((lost, none) :: stretches) ps := by
  refine ⟨by rw [← h.whole]; rfl, h.tokens, ?_, ?_⟩
  · exact List.forall_mem_cons.mpr ⟨fun _ => hlost, h.lost⟩
  · exact List.forall_mem_cons.mpr ⟨nofun, h.kept⟩

theorem Covers.keep {offset : Nat} {lexeme cs : List Char} {token : Token}
    {stretches : List (List Char × Option Token)} {ps : List Placed}
    (h : Covers (offset + Text.byteLength lexeme) cs stretches ps) (hspells : Spells lexeme token)
    (hkept : ∀ c ∈ lexeme, ¬ Blank c) :
    Covers offset (lexeme ++ cs) ((lexeme, some token) :: stretches) (⟨token, offset⟩ :: ps) := by
  refine ⟨by rw [← h.whole]; rfl, by rw [← h.tokens]; rfl, ?_, ?_⟩
  · exact List.forall_mem_cons.mpr ⟨nofun, h.lost⟩
  · refine List.forall_mem_cons.mpr ⟨?_, h.kept⟩
    rintro _ ⟨⟩
    exact ⟨hspells, hkept⟩

/-- Every character of a text that is not blank is in one token and no other. -/
theorem Splits.exists_covers {offset : Nat} {cs : List Char} {ps : List Placed}
    (h : Splits offset cs ps) : ∃ stretches, Covers offset cs stretches ps := by
  induction h with
  | nil offset => exact ⟨[], covers_nil offset⟩
  | blank hc _ ih =>
    obtain ⟨stretches, hcovers⟩ := ih
    rw [← hc.byteLength] at hcovers
    exact ⟨_, hcovers.lose (List.forall_mem_singleton.mpr hc)⟩
  | @symbol offset c token cs ps hc _ ih =>
    obtain ⟨stretches, hcovers⟩ := ih
    rw [← byteLength_of_mem_symbols hc] at hcovers
    exact ⟨_, hcovers.keep (Or.inl ⟨c, rfl, hc⟩)
      (List.forall_mem_singleton.mpr (not_blank_of_mem_symbols hc))⟩
  | run hne hrun hcs hread _ ih =>
    obtain ⟨stretches, hcovers⟩ := ih
    exact ⟨_, hcovers.keep (Or.inr ⟨hne, hrun, hread⟩) fun c hc => (hrun c hc).1⟩

/-- The text of a token starts at its offset: before it there are as many bytes. -/
theorem Splits.exists_lexeme {offset : Nat} {cs : List Char} {ps : List Placed}
    (h : Splits offset cs ps) {p : Placed} (hp : p ∈ ps) :
    ∃ before lexeme after, cs = before ++ lexeme ++ after ∧ Spells lexeme p.token ∧
      p.offset = offset + Text.byteLength before := by
  -- Induction on the rules. What comes before a token grows by what each rule takes away.
  induction h with
  | nil => exact nomatch hp
  | @blank offset c cs ps hc _ ih =>
    obtain ⟨before, lexeme, after, rfl, hspells, hoffset⟩ := ih hp
    refine ⟨c :: before, lexeme, after, rfl, hspells, ?_⟩
    rw [hoffset, Text.byteLength_cons, hc.utf8Size, Nat.add_assoc]
  | @symbol offset c token cs ps hc _ ih =>
    rcases List.mem_cons.mp hp with rfl | hp
    · exact ⟨[], [c], cs, rfl, Or.inl ⟨c, rfl, hc⟩, rfl⟩
    · obtain ⟨before, lexeme, after, rfl, hspells, hoffset⟩ := ih hp
      refine ⟨c :: before, lexeme, after, rfl, hspells, ?_⟩
      rw [hoffset, Text.byteLength_cons, utf8Size_of_mem_symbols hc, Nat.add_assoc]
  | @run offset run token cs ps hne hrun hcs hread _ ih =>
    rcases List.mem_cons.mp hp with rfl | hp
    · exact ⟨[], run, cs, rfl, Or.inr ⟨hne, hrun, hread⟩, rfl⟩
    · obtain ⟨before, lexeme, after, rfl, hspells, hoffset⟩ := ih hp
      refine ⟨run ++ before, lexeme, after, by simp only [List.append_assoc], hspells, ?_⟩
      rw [hoffset, Text.byteLength_append, Nat.add_assoc]

/-- A bracket is spelled by its character. -/
theorem Spells.of_bracket {lexeme : List Char} {kind : Bracket} {side : Side}
    (h : Spells lexeme (bracket kind side)) : lexeme = [kind.char side] := by
  rcases h with ⟨c, rfl, hc⟩ | ⟨hne, -, hread⟩
  · simp only [symbols, List.mem_cons, List.not_mem_nil, or_false, Prod.mk.injEq] at hc
    grind [Bracket.char]
  · -- a run is a number, a name or unrecognized
    have hrun := (readsRun_iff hne).mp hread
    unfold ofRun at hrun
    split at hrun
    · cases hrun
    · split at hrun <;> cases hrun

/-- A name is spelled by its letters. -/
theorem Spells.of_name {lexeme : List Char} {text : String} (h : Spells lexeme (name text)) :
    ∃ id : Identifier, id.text = text := by
  rcases h with ⟨c, rfl, hc⟩ | ⟨hne, -, hread⟩
  · simp [symbols] at hc
  · obtain ⟨hletters, rfl⟩ := (hread.isName text).mp rfl
    exact ⟨⟨String.ofList lexeme, by simpa using hne, by simpa using hletters⟩, rfl⟩

/-- A token is displayed by the characters that spell it, unless it is a number. -/
theorem Spells.text_eq {lexeme : List Char} {token : Token} (h : Spells lexeme token)
    (hnumber : ∀ v, token ≠ number v) : token.text = String.ofList lexeme := by
  rcases h with ⟨c, rfl, hc⟩ | ⟨hne, -, hread⟩
  · have hall : ∀ s ∈ symbols, s.2.text = String.ofList [s.1] := by decide +kernel
    exact hall _ hc
  · obtain rfl := (readsRun_iff hne).mp hread
    unfold ofRun at hnumber ⊢
    split
    · next n hn => exact absurd (by rw [hn]) (hnumber (n.value false))
    · split <;> rfl

/-- A token is displayed as it stands in the text at its offset, unless it is a number, which is
    displayed by its value. -/
theorem text_of_mem_scan {text : String} {p : Placed} (hp : p ∈ (scan text).toList) :
    ∃ before lexeme after, text.toList = before ++ lexeme ++ after ∧
      p.offset = Text.byteLength before ∧
      ((∃ n : Numeral, n.Plain ∧ n.text = lexeme ∧ p.token = number (n.value false)) ∨
        p.token.text = String.ofList lexeme) := by
  obtain ⟨before, lexeme, after, htext, hspells, hoffset⟩ := (splits_scan text).exists_lexeme hp
  refine ⟨before, lexeme, after, htext, by simpa using hoffset, ?_⟩
  by_cases hnumber : ∃ v, p.token = number v
  · obtain ⟨v, hv⟩ := hnumber
    rcases hspells with ⟨c, -, hc⟩ | ⟨-, -, hread⟩
    · simp [symbols, hv] at hc
    · obtain ⟨n, hplain, hn, rfl⟩ := (hread.value v).mp hv
      exact Or.inl ⟨n, hplain, hn, hv⟩
  · exact Or.inr (hspells.text_eq fun v hv => hnumber ⟨v, hv⟩)

/-- The names in a text are runs of letters. -/
theorem identifier_of_mem_scan {text s : String} {offset : Nat}
    (h : ⟨name s, offset⟩ ∈ (scan text).toList) : ∃ id : Identifier, id.text = s := by
  obtain ⟨_, _, _, -, hspells, -⟩ := (splits_scan text).exists_lexeme h
  exact hspells.of_name

/-- A token that starts before others is in order with them. -/
private theorem offsets_cons {offset next : Nat} {token : Token} {ps : List Placed}
    (hlt : offset < next) (h : (∀ p ∈ ps, next ≤ p.offset) ∧ ps.Pairwise (·.offset < ·.offset)) :
    (∀ p ∈ ⟨token, offset⟩ :: ps, offset ≤ p.offset) ∧
      (⟨token, offset⟩ :: ps).Pairwise (·.offset < ·.offset) := by
  obtain ⟨hle, hpairwise⟩ := h
  have hafter : ∀ p ∈ ps, offset < p.offset := fun p hp => Nat.lt_of_lt_of_le hlt (hle p hp)
  refine ⟨List.forall_mem_cons.mpr ⟨Nat.le_refl _, fun p hp => ?_⟩, ?_⟩
  · exact Nat.le_of_lt (hafter p hp)
  · exact List.pairwise_cons.mpr ⟨hafter, hpairwise⟩

/-- No token starts before the place where the text goes on, and each one starts after those before
    it. -/
theorem Splits.offsets {offset : Nat} {cs : List Char} {ps : List Placed}
    (h : Splits offset cs ps) :
    (∀ p ∈ ps, offset ≤ p.offset) ∧ ps.Pairwise (·.offset < ·.offset) := by
  induction h with
  | nil => exact ⟨nofun, .nil⟩
  | @blank offset c cs ps _ _ ih =>
    obtain ⟨hle, hpairwise⟩ := ih
    refine ⟨fun p hp => ?_, hpairwise⟩
    have := hle p hp
    omega
  | symbol _ _ ih => exact offsets_cons (Nat.lt_succ_self _) ih
  | run hne _ _ _ _ ih => exact offsets_cons (Nat.lt_add_of_pos_right (Text.byteLength_pos hne)) ih

/-- The tokens of a text are those of the reference splitter, and of no other row of tokens. All
    characters are in one stretch each, with a token unless they are blanks, and the offsets of the
    tokens increase. -/
theorem scan_eq_reference (text : String) :
    (∀ ps, Splits 0 text.toList ps ↔ ps = (scan text).toList) ∧
      (∃ stretches, Covers 0 text.toList stretches (scan text).toList) ∧
      (scan text).toList.Pairwise (·.offset < ·.offset) :=
  ⟨fun _ => splits_iff_scan, (splits_scan text).exists_covers, (splits_scan text).offsets.2⟩

end Token

end Reckon
