import Mathlib.Data.List.Nodup
import Reckon.Proofs.Matching
import Reckon.Proofs.Numerals
import Reckon.Token

/-!
# What the rules of the tokens find

The patterns of `Token.rules` overlap, so what is found at the front of a text is settled by the
lengths of the matches and by the priorities. A symbol is found as such, and a row of blanks is
skipped. A maximal run of other characters is always matched as a whole: as a number or as a name if
it is one, because these rules have the higher priority, and else as what it is for the rule that
matches all runs.

## Key results

- `Token.Matches.of_mem_rules`: what each of the rules matches
- `Token.scanFrom_blanks`, `Token.scanFrom_symbol`, `Token.scanFrom_run`: what is found at the front
  of a text
-/

namespace Reckon

open Computability

namespace Token

/-! ## Characters -/

/-- The characters that are tokens of their own. -/
def symbols : List (Char × Token) :=
  [('*', operator .mul), ('+', operator .add), ('-', operator .sub), ('/', operator .div),
    ('(', bracket .round .opening), (')', bracket .round .closing),
    ('[', bracket .square .opening), (']', bracket .square .closing)]

/-- Whether a character only separates tokens. -/
def Blank (c : Char) : Prop :=
  c = ' ' ∨ c = '\t'

instance : DecidablePred Blank := fun _ => inferInstanceAs (Decidable (_ ∨ _))

/-- Whether a character belongs to a run: it is neither blank nor a token of its own. -/
def Ordinary (c : Char) : Prop :=
  ¬ Blank c ∧ c ∉ symbols.map Prod.fst

/-- The delimiters are the blanks and the symbols. -/
theorem isDelimiter_iff {c : Char} :
    isDelimiter c ↔ c ∈ [' ', '\t', '*', '+', '-', '/', '(', ')', '[', ']'] := by
  have hlist : delimiters.toList = [' ', '\t', '*', '+', '-', '/', '(', ')', '[', ']'] := by
    decide +kernel
  rw [isDelimiter, hlist, List.contains_iff_mem]

/-- The ordinary characters are those that are no delimiters. -/
theorem isDelimiter_eq_false_iff {c : Char} : isDelimiter c = false ↔ Ordinary c := by
  rw [Bool.eq_false_iff, ne_eq, isDelimiter_iff]
  simp only [Ordinary, Blank, symbols, List.map_cons, List.map_nil, List.mem_cons,
    List.not_mem_nil, or_false, not_or]
  tauto

/-- Digits, letters and the point are ordinary. -/
theorem ordinary_of {c : Char} (h : c.isDigit ∨ c.isAlpha ∨ c = '.') : Ordinary c := by
  rw [← isDelimiter_eq_false_iff, Bool.eq_false_iff, ne_eq, isDelimiter_iff]
  intro hmem
  simp only [List.mem_cons, List.not_mem_nil, or_false] at hmem
  rcases hmem with rfl | rfl | rfl | rfl | rfl | rfl | rfl | rfl | rfl | rfl <;>
    exact absurd h (by decide)

theorem not_ordinary_of_mem_symbols {c : Char} {token : Token} (h : (c, token) ∈ symbols) :
    ¬ Ordinary c :=
  fun hc => hc.2 (List.mem_map.mpr ⟨_, h, rfl⟩)

/-- A character is one of a blank, a symbol and an ordinary character. -/
theorem blank_or_symbol_or_ordinary (c : Char) :
    Blank c ∨ (∃ token, (c, token) ∈ symbols) ∨ Ordinary c := by
  by_cases hblank : Blank c
  · exact Or.inl hblank
  · by_cases hsymbol : c ∈ symbols.map Prod.fst
    · obtain ⟨⟨d, token⟩, hmem, rfl⟩ := List.mem_map.mp hsymbol
      exact Or.inr (Or.inl ⟨token, hmem⟩)
    · exact Or.inr (Or.inr ⟨hblank, hsymbol⟩)

/-- A blank takes up one byte. -/
theorem Blank.utf8Size {c : Char} (h : Blank c) : c.utf8Size = 1 := by
  rcases h with rfl | rfl <;> rfl

/-- A symbol takes up one byte. -/
theorem utf8Size_of_mem_symbols {c : Char} {token : Token} (h : (c, token) ∈ symbols) :
    c.utf8Size = 1 := by
  have hall : ∀ s ∈ symbols, s.1.utf8Size = 1 := by decide
  exact hall _ h

theorem not_blank_of_mem_symbols {c : Char} {token : Token} (h : (c, token) ∈ symbols) :
    ¬ Blank c := by
  have hall : ∀ s ∈ symbols, ¬(s.1 = ' ' ∨ s.1 = '\t') := by decide
  exact hall _ h

/-- A character is the symbol of one token only. -/
theorem eq_of_mem_symbols {c : Char} {t t' : Token} (h : (c, t) ∈ symbols)
    (h' : (c, t') ∈ symbols) : t = t' := by
  have hnodup : (symbols.map Prod.fst).Nodup := by decide
  exact congrArg Prod.snd (List.inj_on_of_nodup_map hnodup h h' rfl)

/-! ## Runs -/

/-- The token that a maximal run of ordinary characters is: a number if the whole run spells one, a
    name if it consists of ASCII letters. -/
def ofRun (run : List Char) : Token :=
  match Numeral.ofPlain? run with
  | some n => number (n.value false)
  | none =>
    if run.all Char.isAlpha then name (String.ofList run) else unrecognized (String.ofList run)

/-- A letter is no digit and no point, so a run of letters spells no numeral. -/
theorem ofPlain?_eq_none_of_isAlpha {run : List Char} (hne : run ≠ [])
    (h : ∀ c ∈ run, c.isAlpha) : Numeral.ofPlain? run = none := by
  refine Option.eq_none_iff_forall_ne_some.mpr fun n hn => ?_
  obtain ⟨hplain, rfl⟩ := Numeral.ofPlain?_eq_some_iff.mp hn
  obtain ⟨c, hc⟩ := List.exists_mem_of_ne_nil _ hne
  rcases hplain.of_mem_text hc with hdigit | rfl
  · rw [isDigit_eq_false_of_isAlpha (h c hc)] at hdigit
    exact nomatch hdigit
  · exact absurd (h '.' hc) (by decide)

theorem ofRun_numeral {n : Numeral} (h : n.Plain) : ofRun n.text = number (n.value false) := by
  rw [ofRun, h.ofPlain?_text]

theorem ofRun_letters {run : List Char} (hne : run ≠ []) (h : ∀ c ∈ run, c.isAlpha) :
    ofRun run = name (String.ofList run) := by
  rw [ofRun, ofPlain?_eq_none_of_isAlpha hne h]
  exact if_pos (List.all_eq_true.mpr h)

theorem ofRun_of_not {run : List Char} (hnumeral : ∀ n : Numeral, n.Plain → n.text ≠ run)
    (hletters : ¬ ∀ c ∈ run, c.isAlpha) : ofRun run = unrecognized (String.ofList run) := by
  have hnone : Numeral.ofPlain? run = none := by
    refine Option.eq_none_iff_forall_ne_some.mpr fun n hn => ?_
    obtain ⟨hplain, htext⟩ := Numeral.ofPlain?_eq_some_iff.mp hn
    exact hnumeral n hplain htext
  rw [ofRun, hnone]
  exact if_neg fun h => hletters (List.all_eq_true.mp h)

/-! ## What the rules match -/

/-- What a rule matches, with its priority and with what becomes of it. -/
inductive Matches : List Char → Nat → Rule.Outcome Token → Prop
  | number {n : Numeral} : n.Plain → Matches n.text 3 (.token (number (n.value false)))
  | name {letters : List Char} : letters ≠ [] → (∀ c ∈ letters, c.isAlpha) →
      Matches letters 3 (.token (name (String.ofList letters)))
  | symbol {c : Char} {token : Token} : (c, token) ∈ symbols → Matches [c] 2 (.token token)
  | run {run : List Char} : run ≠ [] → (∀ c ∈ run, Ordinary c) →
      Matches run 1 (.token (unrecognized (String.ofList run)))
  | blanks {blanks : List Char} : blanks ≠ [] → (∀ c ∈ blanks, Blank c) →
      Matches blanks 2 .skipped

theorem language_char (c : Char) : (Pattern.char c).language = {[c]} :=
  Language.ext fun _ => Pattern.mem_language_char_iff

theorem mem_plus_one_iff {p : Char → Bool} {w : List Char} :
    w ∈ (Pattern.plus (.one p)).language ↔ w ≠ [] ∧ ∀ c ∈ w, p c :=
  mem_oneOf_mul_kstar_iff

/-- The two patterns of the numbers match the numerals. -/
theorem language_numbers :
    numberPattern.language + fractionPattern.language = Numeral.plainLanguage := by
  have hpoint : (Pattern.char '.').language = Numeral.point := language_char '.'
  rw [Numeral.plainLanguage, ← hpoint]
  rfl

/-- The rules of the numbers read the numerals that they match. -/
theorem matches_number {pattern : Pattern} {w : List Char} (h : w ∈ Numeral.plainLanguage) :
    Matches w 3 ((numberRule pattern).read w) := by
  obtain ⟨n, hn, rfl⟩ := Numeral.mem_plainLanguage_iff.mp h
  simp only [numberRule, hn.ofPlain?_text]
  exact .number hn

theorem matches_symbol {c : Char} {token : Token} (h : (c, token) ∈ symbols) {w : List Char}
    (hw : w ∈ (symbolRule c token).pattern.language) :
    Matches w (symbolRule c token).priority ((symbolRule c token).read w) := by
  obtain rfl := Pattern.mem_language_char_iff.mp hw
  exact .symbol h

theorem symbolRule_mem_rules {c : Char} {token : Token} (h : (c, token) ∈ symbols) :
    symbolRule c token ∈ rules := by
  simp only [symbols, List.mem_cons, List.not_mem_nil, or_false, Prod.mk.injEq] at h
  rcases h with ⟨rfl, rfl⟩ | ⟨rfl, rfl⟩ | ⟨rfl, rfl⟩ | ⟨rfl, rfl⟩ | ⟨rfl, rfl⟩ | ⟨rfl, rfl⟩ |
    ⟨rfl, rfl⟩ | ⟨rfl, rfl⟩ <;> simp [rules]

/-- What a rule of the table matches. -/
theorem Matches.of_mem_rules {r : Rule Token} (hr : r ∈ rules) {w : List Char}
    (hw : w ∈ r.pattern.language) : Matches w r.priority (r.read w) := by
  simp only [rules, List.mem_cons, List.not_mem_nil, or_false] at hr
  rcases hr with rfl | rfl | rfl | rfl | rfl | rfl | rfl | rfl | rfl | rfl | rfl | rfl | rfl
  · exact matches_number (language_numbers ▸ Or.inl hw)
  · exact matches_number (language_numbers ▸ Or.inr hw)
  · obtain ⟨hne, hletters⟩ := mem_plus_one_iff.mp hw
    exact .name hne hletters
  iterate 8 exact matches_symbol (by simp [symbols]) hw
  · obtain ⟨hne, hrun⟩ := mem_plus_one_iff.mp hw
    exact .run hne fun c hc => isDelimiter_eq_false_iff.mp (by simpa using hrun c hc)
  · obtain ⟨hne, hblanks⟩ := mem_plus_one_iff.mp hw
    exact .blanks hne fun c hc => by simpa [Blank] using hblanks c hc

/-- What is matched is so by a rule of the table. -/
theorem Matches.exists_rule {w : List Char} {priority : Nat} {outcome : Rule.Outcome Token}
    (h : Matches w priority outcome) :
    ∃ r ∈ rules, w ∈ r.pattern.language ∧ r.priority = priority := by
  cases h with
  | @number n hn =>
    have hmem : n.text ∈ numberPattern.language + fractionPattern.language := by
      rw [language_numbers]
      exact Numeral.mem_plainLanguage_iff.mpr ⟨n, hn, rfl⟩
    rcases hmem with hmem | hmem
    · exact ⟨numberRule numberPattern, by simp [rules], hmem, rfl⟩
    · exact ⟨numberRule fractionPattern, by simp [rules], hmem, rfl⟩
  | name hne hletters =>
    exact ⟨nameRule, by simp [rules], mem_plus_one_iff.mpr ⟨hne, hletters⟩, rfl⟩
  | @symbol c token hc =>
    exact ⟨symbolRule c token, symbolRule_mem_rules hc, Pattern.mem_language_char_iff.mpr rfl, rfl⟩
  | run hne hrun =>
    refine ⟨runRule, by simp [rules], mem_plus_one_iff.mpr ⟨hne, fun c hc => ?_⟩, rfl⟩
    simpa using isDelimiter_eq_false_iff.mpr (hrun c hc)
  | blanks hne hblanks =>
    refine ⟨blankRule, by simp [rules], mem_plus_one_iff.mpr ⟨hne, fun c hc => ?_⟩, rfl⟩
    simpa [Blank] using hblanks c hc

/-! ## What wins -/

variable {w : List Char} {priority : Nat} {outcome : Rule.Outcome Token} {c : Char}

/-- What starts with an ordinary character is matched as far as there are such. -/
theorem Matches.ordinary (h : Matches w priority outcome) (hc : c ∈ w.head?) (hord : Ordinary c) :
    ∀ d ∈ w, Ordinary d := by
  cases h with
  | number hn => exact fun d hd => ordinary_of ((hn.of_mem_text hd).imp_right Or.inr)
  | name _ hletters => exact fun d hd => ordinary_of (Or.inr (Or.inl (hletters d hd)))
  | symbol hsymbol =>
    obtain rfl := Option.some.inj hc
    exact absurd hord (not_ordinary_of_mem_symbols hsymbol)
  | run _ hrun => exact hrun
  | blanks _ hblanks => exact absurd (hblanks c (List.mem_of_mem_head? hc)) hord.1

/-- A symbol is matched on its own. -/
theorem Matches.symbol_eq (h : Matches w priority outcome) (hc : c ∈ w.head?) {token : Token}
    (hsymbol : (c, token) ∈ symbols) : w = [c] ∧ outcome = .token token := by
  have hnot := not_ordinary_of_mem_symbols hsymbol
  have hmem := List.mem_of_mem_head? hc
  cases h with
  | number hn => exact absurd (ordinary_of ((hn.of_mem_text hmem).imp_right Or.inr)) hnot
  | name _ hletters => exact absurd (ordinary_of (Or.inr (Or.inl (hletters c hmem)))) hnot
  | symbol hsymbol' =>
    obtain rfl := Option.some.inj hc
    rw [eq_of_mem_symbols hsymbol' hsymbol]
    exact ⟨rfl, rfl⟩
  | run _ hrun => exact absurd (hrun c hmem) hnot
  | blanks _ hblanks => exact absurd (hblanks c hmem) (not_blank_of_mem_symbols hsymbol)

/-- What starts with a blank consists of blanks, and is skipped. -/
theorem Matches.blank (h : Matches w priority outcome) (hc : c ∈ w.head?) (hblank : Blank c) :
    (∀ d ∈ w, Blank d) ∧ outcome = .skipped := by
  have hmem := List.mem_of_mem_head? hc
  cases h with
  | number hn =>
    exact absurd hblank (ordinary_of ((hn.of_mem_text hmem).imp_right Or.inr)).1
  | name _ hletters => exact absurd hblank (ordinary_of (Or.inr (Or.inl (hletters c hmem)))).1
  | symbol hsymbol =>
    obtain rfl := Option.some.inj hc
    exact absurd hblank (not_blank_of_mem_symbols hsymbol)
  | run _ hrun => exact absurd hblank (hrun c hmem).1
  | blanks _ hblanks => exact ⟨hblanks, rfl⟩

/-- What is at the front of a text and of one sort of characters ends where these do. -/
theorem prefix_of_forall {p : Char → Prop} {u w cs : List Char} (hu : u <+: w ++ cs)
    (hp : ∀ c ∈ u, p c) (hcs : ∀ c ∈ cs.head?, ¬ p c) : u <+: w := by
  induction w generalizing u with
  | nil =>
    cases u with
    | nil => exact List.nil_prefix
    | cons c u =>
      obtain ⟨rest, rfl⟩ := hu
      exact absurd (hp c List.mem_cons_self) (hcs c rfl)
  | cons d w ih =>
    cases u with
    | nil => exact List.nil_prefix
    | cons c u =>
      obtain ⟨rfl, hrest⟩ := List.cons_prefix_cons.mp hu
      have htail := ih hrest fun e he => hp e (List.mem_cons_of_mem _ he)
      exact List.cons_prefix_cons.mpr ⟨rfl, htail⟩

/-- The first character of what wins is that of the text. -/
theorem mem_head?_of_wins {r : Rule Token} {u cs : List Char} (h : Rule.Wins rules (c :: cs) r u) :
    c ∈ u.head? := by
  obtain ⟨d, u, rfl⟩ := List.exists_cons_of_ne_nil h.ne_nil
  obtain ⟨rfl, -⟩ := List.cons_prefix_cons.mp h.isPrefix
  rfl

/-- If a row of characters of one sort is matched, and what wins is of that sort, the whole row
    wins. -/
theorem eq_of_wins {p : Char → Prop} {r : Rule Token} {u w cs : List Char}
    (h : Rule.Wins rules (w ++ cs) r u) (hmatches : Matches w priority outcome)
    (hp : ∀ c ∈ u, p c) (hcs : ∀ c ∈ cs.head?, ¬ p c) : u = w := by
  obtain ⟨rule, hrule, hmem, -⟩ := hmatches.exists_rule
  exact (prefix_of_forall h.isPrefix hp hcs).eq_of_length_le
    (h.length_le rule hrule w (List.prefix_append ..) hmem)

variable {r : Rule Token} {u cs : List Char}

/-- A maximal run wins as a whole. It is a number or a name if it can be, because these go before
    what it is otherwise. -/
theorem wins_run {run : List Char} (hne : run ≠ []) (hrun : ∀ c ∈ run, Ordinary c)
    (hcs : ∀ c ∈ cs.head?, ¬ Ordinary c) (h : Rule.Wins rules (run ++ cs) r u) :
    u = run ∧ r.read run = .token (ofRun run) := by
  have hmatches := Matches.of_mem_rules h.mem h.mem_language
  obtain ⟨c, tail, rfl⟩ := List.exists_cons_of_ne_nil hne
  have hord := hmatches.ordinary (mem_head?_of_wins h) (hrun c List.mem_cons_self)
  obtain rfl : u = c :: tail := eq_of_wins h (.run hne hrun) hord hcs
  -- nothing that matches the run is of a higher priority than the rule that wins
  have hle : ∀ {priority outcome}, Matches (c :: tail) priority outcome →
      priority ≤ r.priority := by
    intro priority outcome hother
    obtain ⟨rule, hrule, hmem, rfl⟩ := hother.exists_rule
    exact h.priority_le rule hrule hmem
  refine ⟨rfl, ?_⟩
  generalize hw : c :: tail = run at *
  generalize r.read run = outcome, r.priority = priority at hmatches hle ⊢
  cases hmatches with
  | number hn => rw [ofRun_numeral hn]
  | name hne hletters => rw [ofRun_letters hne hletters]
  | symbol hsymbol =>
    exact absurd (hord _ List.mem_cons_self) (not_ordinary_of_mem_symbols hsymbol)
  | run _ _ =>
    rw [ofRun_of_not]
    · rintro n hn rfl
      exact absurd (hle (.number hn)) (by decide)
    · intro hletters
      exact absurd (hle (.name hne hletters)) (by decide)
  | blanks _ hblanks =>
    subst hw
    exact absurd (hblanks c List.mem_cons_self) (hord c List.mem_cons_self).1

/-- A symbol wins. -/
theorem wins_symbol {token : Token} (hc : (c, token) ∈ symbols)
    (h : Rule.Wins rules ([c] ++ cs) r u) : u = [c] ∧ r.read [c] = .token token := by
  obtain ⟨rfl, hread⟩ := (Matches.of_mem_rules h.mem h.mem_language).symbol_eq
    (mem_head?_of_wins h) hc
  exact ⟨rfl, hread⟩

/-- A maximal row of blanks wins, and is skipped. -/
theorem wins_blanks {blanks : List Char} (hne : blanks ≠ []) (hblanks : ∀ c ∈ blanks, Blank c)
    (hcs : ∀ c ∈ cs.head?, ¬ Blank c) (h : Rule.Wins rules (blanks ++ cs) r u) :
    u = blanks ∧ r.read blanks = .skipped := by
  obtain ⟨c, tail, rfl⟩ := List.exists_cons_of_ne_nil hne
  obtain ⟨hall, hread⟩ := (Matches.of_mem_rules h.mem h.mem_language).blank
    (mem_head?_of_wins h) (hblanks c List.mem_cons_self)
  obtain rfl : u = c :: tail := eq_of_wins h (.blanks hne hblanks) hall hcs
  exact ⟨rfl, hread⟩

/-! ## What is found -/

/-- The tokens of what is left of a text from a byte offset on. -/
def scanFrom (offset : Nat) (cs : List Char) : List Placed :=
  (Rule.slices rules offset cs).map ofSlice

theorem toList_scan (text : String) : (scan text).toList = scanFrom 0 text.toList := rfl

@[simp] theorem scanFrom_nil (offset : Nat) : scanFrom offset [] = [] := by
  rw [scanFrom, Rule.slices, List.map_nil]

/-- A maximal run of ordinary characters is one token. -/
theorem scanFrom_run {run : List Char} (hne : run ≠ []) (hrun : ∀ c ∈ run, Ordinary c)
    (hcs : ∀ c ∈ cs.head?, ¬ Ordinary c) (offset : Nat) :
    scanFrom offset (run ++ cs) =
      ⟨ofRun run, offset⟩ :: scanFrom (offset + Text.byteLength run) cs := by
  obtain ⟨rule, hrule, hmem, -⟩ := (Matches.run hne hrun).exists_rule
  rw [scanFrom, Rule.slices_append offset hne ⟨rule, hrule, hmem⟩
    fun r u h => wins_run hne hrun hcs h]
  rfl

/-- A symbol is a token of its own. -/
theorem scanFrom_symbol {token : Token} (hc : (c, token) ∈ symbols) (offset : Nat)
    (cs : List Char) :
    scanFrom offset (c :: cs) = ⟨token, offset⟩ :: scanFrom (offset + 1) cs := by
  obtain ⟨rule, hrule, hmem, -⟩ := (Matches.symbol hc).exists_rule
  have hsize : Text.byteLength [c] = 1 := by
    rw [Text.byteLength_cons, utf8Size_of_mem_symbols hc]
    rfl
  rw [← List.singleton_append, scanFrom, Rule.slices_append offset (List.cons_ne_nil _ _)
    ⟨rule, hrule, hmem⟩ fun r u h => wins_symbol hc h, hsize]
  rfl

/-- A maximal row of blanks is skipped at once. -/
theorem scanFrom_blanks_of_ends {blanks : List Char} (hblanks : ∀ c ∈ blanks, Blank c)
    (hcs : ∀ c ∈ cs.head?, ¬ Blank c) (offset : Nat) :
    scanFrom offset (blanks ++ cs) = scanFrom (offset + Text.byteLength blanks) cs := by
  by_cases hne : blanks = []
  · subst hne
    rfl
  · obtain ⟨rule, hrule, hmem, -⟩ := (Matches.blanks hne hblanks).exists_rule
    rw [scanFrom, Rule.slices_append offset hne ⟨rule, hrule, hmem⟩
      fun r u h => wins_blanks hne hblanks hcs h]
    rfl

/-- Blanks are skipped, whatever comes after them. -/
theorem scanFrom_blanks {blanks : List Char} (hblanks : ∀ c ∈ blanks, Blank c) (offset : Nat)
    (cs : List Char) :
    scanFrom offset (blanks ++ cs) = scanFrom (offset + Text.byteLength blanks) cs := by
  -- both sides skip the blanks that the rest of the text starts with, too
  obtain ⟨more, rest, rfl, hmore, hrest⟩ : ∃ more rest, cs = more ++ rest ∧
      (∀ c ∈ more, Blank c) ∧ ∀ c ∈ rest.head?, ¬ Blank c := by
    refine ⟨cs.takeWhile (Blank ·), cs.dropWhile (Blank ·), List.takeWhile_append_dropWhile.symm,
      fun c hc => ?_, fun c hc => ?_⟩
    · simpa using List.all_eq_true.mp List.all_takeWhile c hc
    · have hnot := List.head?_dropWhile_not (fun c => decide (Blank c)) cs
      rw [hc] at hnot
      simpa using hnot
  have hall : ∀ c ∈ blanks ++ more, Blank c := List.forall_mem_append.mpr ⟨hblanks, hmore⟩
  rw [← List.append_assoc, scanFrom_blanks_of_ends hall hrest,
    scanFrom_blanks_of_ends hmore hrest, Text.byteLength_append, Nat.add_assoc]

end Token

end Reckon
