import Reckon.Proofs.Environment
import Reckon.Proofs.Loading
import Reckon.Proofs.Scanning

/-!
# Reading what an environment is written as

The line of an entry is scanned into the tokens that were written, and read as the setting that the
entry stands for. So loading the lines of some entries is accepted, and sets what they say.

## Key results

- `Entry.read_text`: the line of an entry is accepted and sets what the entry says
- `Entry.load_texts`: the lines of entries are loaded without an error
-/

namespace Reckon.Values

/-! ## Lexemes -/

namespace Lexeme

/-- The lexeme that an integer is written as. -/
def ofInteger (n : Int) : Lexeme :=
  numeral (decide (n < 0)) ⟨Nat.toDigits 10 n.natAbs, none, []⟩

theorem text_ofInteger (n : Int) : (ofInteger n).text = (toString n).toList := by
  rw [Int.toString_eq_repr, Int.repr_eq_if]
  by_cases h : 0 ≤ n
  · have hneg : ¬n < 0 := by omega
    have habs : n.natAbs = n.toNat := by omega
    simp [ofInteger, text, Numeral.text, h, hneg, habs, Nat.toList_repr]
  · have hneg : n < 0 := by omega
    have habs : n.natAbs = (-n).toNat := by omega
    simp [ofInteger, text, Numeral.text, h, hneg, habs, Nat.toList_repr, String.toList_append]

theorem text_ofInteger_natCast (n : Nat) : (ofInteger n).text = (toString n).toList := by
  have hneg : ¬(n : Int) < 0 := by omega
  simp [ofInteger, text, Numeral.text, hneg, Nat.toList_repr]

theorem token?_ofInteger {n : Int} (h : n.natAbs ≤ Binary64.greatestExact) :
    (ofInteger n).token? = some (.integer n) := by
  have hvalue : (if decide (n < 0) then -(n.natAbs : Int) else n.natAbs) = n := by
    by_cases hneg : n < 0
    · rw [decide_eq_true hneg, if_pos rfl]
      omega
    · rw [decide_eq_false hneg, if_neg Bool.false_ne_true]
      omega
  simp only [ofInteger, token?, Numeral.isInteger, Option.isNone_none, ↓reduceIte, Numeral.toNat,
    Numeral.ofDigits_toDigits, hvalue, Binary64.fitsWord_of_natAbs_le h]

/-- A text that starts with a digit or a letter starts with a number or a name. -/
theorem first?_cons_of_alphanum {c : Char} (h : c.isAlphanum) (cs : List Char) :
    first? (c :: cs) =
      if c.isAlpha then some (name (c :: cs.takeWhile Char.isAlpha))
      else (Numeral.first? (c :: cs)).map (numeral false) := by
  rw [first?]
  -- the punctuation is neither a digit nor a letter
  all_goals
    rintro rfl
    exact absurd h (by decide)

/-- An integer is the longest lexeme at the front of a text, if no character that could belong to it
    comes after it. -/
theorem first?_ofInteger (n : Int) {rest : List Char} (hrest : ∀ c ∈ rest.head?, Numeral.Ends c) :
    first? ((ofInteger n).text ++ rest) = some (ofInteger n) := by
  have hplain := Numeral.plain_toDigits n.natAbs
  have hfirst := hplain.first?_append hrest
  -- a minus is followed by a numeral, and without one the lexeme starts with a digit
  by_cases hneg : n < 0
  · simp only [ofInteger, hneg, decide_true, text, List.cons_append, first?, hfirst,
      Option.map_some]
  · simp only [ofInteger, hneg, decide_false, text]
    cases hds : Nat.toDigits 10 n.natAbs with
    | nil => exact absurd hds Nat.toDigits_ne_nil
    | cons d ds =>
      have hd : d.isDigit := hplain.whole d (by simp [hds])
      have hd' : d.isAlpha = false := by
        rw [Bool.eq_false_iff]
        intro halpha
        rw [isDigit_eq_false_of_isAlpha halpha] at hd
        exact nomatch hd
      have hcons := first?_cons_of_alphanum (c := d) (by simp [Char.isAlphanum, hd]) (ds ++ rest)
      rw [hds] at hfirst
      simp only [Numeral.text, List.append_nil, List.cons_append] at hfirst ⊢
      rw [hcons, hd', if_neg Bool.false_ne_true, hfirst, Option.map_some]

/-- A name is the longest lexeme at the front of a text, if no letter comes after it. -/
theorem first?_name {letters rest : List Char} (hne : letters ≠ [])
    (hletters : ∀ c ∈ letters, c.isAlpha) (hrest : ∀ c ∈ rest.head?, c.isAlpha = false) :
    first? (letters ++ rest) = some (name letters) := by
  cases letters with
  | nil => exact absurd rfl hne
  | cons c cs =>
    have hc := hletters c List.mem_cons_self
    rw [List.cons_append, first?_cons_of_alphanum (by simp [Char.isAlphanum, hc]), if_pos hc,
      takeWhile_word (fun d hd => hletters d (List.mem_cons_of_mem _ hd)) hrest]

end Lexeme

/-! ## Scanning -/

namespace Token

theorem scan_go_blank {c : Char} (h : isBlank c) (found : Array Token) (cs : List Char) :
    scan.go found (c :: cs) = scan.go found cs := by
  rw [scan.go, if_pos h]

/-- The longest lexeme at the front of a text is its first token. -/
theorem scan_go_lexeme {l : Lexeme} {token : Token} {c : Char} {cs rest : List Char}
    (htext : l.text = c :: cs) (hblank : isBlank c = false)
    (hfirst : Lexeme.first? (l.text ++ rest) = some l) (htoken : l.token? = some token)
    (found : Array Token) :
    scan.go found (l.text ++ rest) = scan.go (found.push token) rest := by
  rw [htext, List.cons_append] at hfirst ⊢
  rw [scan.go, if_neg (by simp [hblank]), hfirst]
  simp only [htoken, htext, List.length_cons, Nat.add_one_sub_one, List.drop_left]

theorem isBlank_eq_false {c : Char} (h : c.isAlphanum ∨ c = '-') : isBlank c = false := by
  rw [Bool.eq_false_iff]
  intro hblank
  simp only [isBlank, Bool.or_eq_true, decide_eq_true_eq, or_assoc] at hblank
  rcases hblank with rfl | rfl | rfl | rfl <;> exact absurd h (by decide)

/-- An integer is scanned before anything that cannot belong to it. -/
theorem scan_go_integer {n : Int} (h : n.natAbs ≤ Binary64.greatestExact) {rest : List Char}
    (hrest : ∀ c ∈ rest.head?, Numeral.Ends c) (found : Array Token) :
    scan.go found ((Lexeme.ofInteger n).text ++ rest) =
      scan.go (found.push (.integer n)) rest := by
  -- the first character is a minus or a digit, and no blank
  obtain ⟨c, cs, htext, hc⟩ : ∃ c cs, (Lexeme.ofInteger n).text = c :: cs ∧
      (c.isAlphanum ∨ c = '-') := by
    by_cases hneg : n < 0
    · refine ⟨'-', Nat.toDigits 10 n.natAbs, ?_, Or.inr rfl⟩
      simp [Lexeme.ofInteger, hneg, Lexeme.text, Numeral.text]
    · cases hds : Nat.toDigits 10 n.natAbs with
      | nil => exact absurd hds Nat.toDigits_ne_nil
      | cons d ds =>
        have hd : d.isDigit := (Numeral.plain_toDigits n.natAbs).whole d (by simp [hds])
        refine ⟨d, ds, ?_, Or.inl (by simp [Char.isAlphanum, hd])⟩
        simp [Lexeme.ofInteger, hneg, Lexeme.text, Numeral.text, hds]
  exact scan_go_lexeme htext (isBlank_eq_false hc) (Lexeme.first?_ofInteger n hrest)
    (Lexeme.token?_ofInteger h) found

/-- A name is scanned before anything but a letter. -/
theorem scan_go_name (name : Identifier) {rest : List Char}
    (hrest : ∀ c ∈ rest.head?, c.isAlpha = false) (found : Array Token) :
    scan.go found (name.text.toList ++ rest) = scan.go (found.push (.name name.text)) rest := by
  have hfirst := Lexeme.first?_name name.ne_nil name.isAlpha hrest
  have htoken : (Lexeme.name name.text.toList).token? = some (.name name.text) := by
    simp [Lexeme.token?]
  cases hcs : name.text.toList with
  | nil => exact absurd hcs name.ne_nil
  | cons c cs =>
    have hc : c.isAlpha := name.isAlpha c (by simp [hcs])
    rw [hcs] at hfirst htoken
    exact scan_go_lexeme (l := .name (c :: cs)) rfl
      (isBlank_eq_false (Or.inl (by simp [Char.isAlphanum, hc]))) hfirst htoken found

theorem scan_go_opening (found : Array Token) (rest : List Char) :
    scan.go found ('(' :: rest) = scan.go (found.push .opening) rest :=
  scan_go_lexeme (l := .opening) rfl rfl rfl rfl found

theorem scan_go_comma (found : Array Token) (rest : List Char) :
    scan.go found (',' :: rest) = scan.go (found.push .comma) rest :=
  scan_go_lexeme (l := .comma) rfl rfl rfl rfl found

theorem scan_go_closing (found : Array Token) (rest : List Char) :
    scan.go found (')' :: rest) = scan.go (found.push .closing) rest :=
  scan_go_lexeme (l := .closing) rfl rfl rfl rfl found

end Token

end Reckon.Values

/-! ## Lines -/

namespace Reckon.Values.Entry

/-- The tokens of a pair. -/
def pairTokens (pair : Nat × Int) : List Token :=
  [.opening, .integer pair.1, .comma, .integer pair.2, .closing]

/-- The tokens after the name of an entry. -/
def tokens : Entry → List Token
  | scalar _ value => [.integer value]
  | array _ length pairs => .integer length :: pairs.flatMap pairTokens

/-- What an entry sets. -/
def setting : Entry → Setting
  | scalar name value => .scalar name (Binary64.ofInteger value)
  | array name length pairs =>
    .array name length (pairs.map fun (index, value) => (index, Binary64.ofInteger value))

/-- Whether the integers of an entry are within their bounds. -/
def Fits : Entry → Prop
  | scalar _ value => value.natAbs ≤ Binary64.greatestExact
  | array _ length pairs => length ≤ greatestLength ∧
    ∀ pair ∈ pairs, pair.1 < length ∧ pair.2.natAbs ≤ Binary64.greatestExact

/-- A length, and each index below it, is an integer that a double can hold. -/
theorem natAbs_le_greatestExact {n : Nat} (h : n ≤ greatestLength) :
    (n : Int).natAbs ≤ Binary64.greatestExact := by
  unfold greatestLength at h
  unfold Binary64.greatestExact
  omega

theorem toList_pairText (pair : Nat × Int) (rest : List Char) :
    (pairText pair).toList ++ rest =
      ' ' :: '(' :: ((Lexeme.ofInteger pair.1).text ++
        (',' :: ((Lexeme.ofInteger pair.2).text ++ (')' :: rest)))) := by
  rw [Lexeme.text_ofInteger_natCast, Lexeme.text_ofInteger]
  simp [pairText, String.toList_append]

/-- What starts with a character that ends a numeral ends it. -/
theorem ends_of_cons {c : Char} (h : Numeral.Ends c) (cs : List Char) :
    ∀ d ∈ (c :: cs).head?, Numeral.Ends d := by
  intro d hd
  obtain rfl : c = d := by simpa using hd
  exact h

/-- The pairs of an entry are scanned one by one. -/
theorem scan_go_pairs {length : Nat} {pairs : List (Nat × Int)} (hlength : length ≤ greatestLength)
    (h : ∀ pair ∈ pairs, pair.1 < length ∧ pair.2.natAbs ≤ Binary64.greatestExact)
    (found : Array Token) :
    Token.scan.go found (String.join (pairs.map pairText)).toList =
      .ok (found ++ (pairs.flatMap pairTokens).toArray) := by
  -- Induction on the pairs: each of them is a blank and five tokens, after those that were found.
  induction pairs generalizing found with
  | nil => simp [Token.scan.go]
  | cons pair pairs ih =>
    obtain ⟨hlt, hexact⟩ := h pair List.mem_cons_self
    have hindex := natAbs_le_greatestExact (Nat.le_trans (Nat.le_of_lt hlt) hlength)
    rw [List.map_cons, String.join_cons, String.toList_append, toList_pairText,
      Token.scan_go_blank rfl, Token.scan_go_opening,
      Token.scan_go_integer hindex (ends_of_cons (by decide) _), Token.scan_go_comma,
      Token.scan_go_integer hexact (ends_of_cons (by decide) _), Token.scan_go_closing,
      ih fun p hp => h p (List.mem_cons_of_mem _ hp)]
    simp [pairTokens]

/-- The line of an entry is scanned into the name and the tokens after it. -/
theorem scan_text {entry : Entry} {name : Identifier} (hname : name.text = entry.name)
    (hfits : entry.Fits) :
    Token.scan entry.text = .ok (.name name.text :: entry.tokens).toArray := by
  cases entry with
  | scalar n value =>
    obtain rfl : name.text = n := hname
    have htext : (scalar name.text value).text.toList =
        name.text.toList ++ (' ' :: ((Lexeme.ofInteger value).text ++ [])) := by
      simp [text, String.toList_append, Lexeme.text_ofInteger]
    rw [Token.scan, htext, Token.scan_go_name name (by simp), Token.scan_go_blank rfl,
      Token.scan_go_integer hfits (by simp), Token.scan.go]
    simp [tokens]
  | array n length pairs =>
    obtain rfl : name.text = n := hname
    obtain ⟨hlength, hpairs⟩ := hfits
    have htext : (array name.text length pairs).text.toList =
        name.text.toList ++ (' ' :: ((Lexeme.ofInteger length).text ++
          (String.join (pairs.map pairText)).toList)) := by
      rw [Lexeme.text_ofInteger_natCast]
      simp [text, String.toList_append]
    have hexact := natAbs_le_greatestExact hlength
    -- what comes after the length is the blank before the first pair, if there is any
    have hends : ∀ c ∈ (String.join (pairs.map pairText)).toList.head?, Numeral.Ends c := by
      cases pairs with
      | nil => simp
      | cons pair pairs =>
        rw [List.map_cons, String.join_cons, String.toList_append, toList_pairText]
        exact ends_of_cons (by decide) _
    rw [Token.scan, htext, Token.scan_go_name name (by simp), Token.scan_go_blank rfl,
      Token.scan_go_integer hexact hends, scan_go_pairs hlength hpairs]
    simp [tokens]

/-! ## What lines set -/

theorem number_integer {n : Int} (h : n.natAbs ≤ Binary64.greatestExact) :
    Line.number (.integer n) = .ok (Binary64.ofInteger n) := by
  simp only [Line.number, Binary64.ofInteger?_eq_some_iff.mpr ⟨h, rfl⟩]

/-- The tokens of some pairs are read as these pairs, after those found before. -/
theorem pairs_tokens (name : String) {length : Nat} {pairs : List (Nat × Int)}
    (h : ∀ pair ∈ pairs, pair.1 < length ∧ pair.2.natAbs ≤ Binary64.greatestExact)
    (found : Array (Nat × Float)) :
    Line.pairs name length found (pairs.flatMap pairTokens) =
      .ok (found.toList ++ pairs.map fun (index, value) => (index, Binary64.ofInteger value)) := by
  induction pairs generalizing found with
  | nil => simp [Line.pairs]
  | cons pair pairs ih =>
    obtain ⟨hlt, hexact⟩ := h pair List.mem_cons_self
    -- the index is below the length
    have hindex : Line.index name length (.integer pair.1) = .ok pair.1 := by
      have hnat : (pair.1 : Int).toNat? = some pair.1 := rfl
      simp only [Line.index, hnat, if_pos hlt]
    rw [List.flatMap_cons, pairTokens]
    simp only [List.cons_append, List.nil_append, Line.pairs, hindex, number_integer hexact,
      ok_bind]
    rw [ih fun p hp => h p (List.mem_cons_of_mem _ hp)]
    simp

/-- The tokens of an entry set what the entry says. -/
theorem setting_tokens {entry : Entry} (hfits : entry.Fits) :
    Line.setting entry.setting.kind entry.name entry.tokens = .ok entry.setting := by
  cases entry with
  | scalar name value =>
    show (Line.number (.integer value) >>= fun v => pure (Setting.scalar name v)) = _
    rw [number_integer hfits]
    rfl
  | array name length pairs =>
    obtain ⟨hlength, hpairs⟩ := hfits
    have hnat : (length : Int).toNat? = some length := rfl
    have hlen : Line.length name (.integer length) = .ok length := by
      simp only [Line.length, hnat, if_pos hlength]
    show (Line.length name (.integer length) >>= fun l =>
      Line.pairs name l #[] (pairs.flatMap pairTokens) >>= fun ps =>
        pure (Setting.array name l ps)) = _
    rw [hlen, ok_bind, pairs_tokens name hpairs]
    rfl

theorem isBlank_eq_false_of_isAlpha {c : Char} (h : c.isAlpha) : Text.isBlank c = false := by
  rw [Bool.eq_false_iff]
  intro hblank
  have hletter := toNat_of_isAlpha h
  simp only [Text.isBlank, Text.blankRanges, List.any_cons, List.any_nil, Bool.or_eq_true,
    Bool.and_eq_true, decide_eq_true_eq, Bool.or_false] at hblank
  omega

/-- The line of an entry starts with its name and a space. -/
theorem toList_text (entry : Entry) :
    ∃ rest, entry.text.toList = entry.name.toList ++ ' ' :: rest := by
  cases entry with
  | scalar name value =>
    exact ⟨(toString value).toList, by simp [text, Entry.name, String.toList_append]⟩
  | array name length pairs =>
    exact ⟨(toString length ++ String.join (pairs.map pairText)).toList,
      by simp [text, Entry.name, String.toList_append]⟩

/-- The first word of a line that starts with a name and a space is the name. -/
theorem word?_of_name {line : String} {name : Identifier} {rest : List Char}
    (hline : line.toList = name.text.toList ++ ' ' :: rest) :
    Line.word? line = some name.text := by
  have hletters : ∀ c ∈ name.text.toList, (!Text.isBlank c) = true := fun c hc => by
    rw [isBlank_eq_false_of_isAlpha (name.isAlpha c hc)]
    rfl
  -- there are no blanks before the name
  have hdrop : (name.text.toList ++ ' ' :: rest).dropWhile Text.isBlank =
      name.text.toList ++ ' ' :: rest := by
    cases hcs : name.text.toList with
    | nil => exact absurd hcs name.ne_nil
    | cons c cs =>
      have hc : c.isAlpha := name.isAlpha c (by simp [hcs])
      simp [isBlank_eq_false_of_isAlpha hc]
  have htake : (name.text.toList ++ ' ' :: rest).takeWhile (!Text.isBlank ·) =
      name.text.toList :=
    takeWhile_word hletters (by simp; decide)
  rw [Line.word?, Text.firstWord?, hline, hdrop, htake]
  cases hcs : name.text.toList with
  | nil => exact absurd hcs name.ne_nil
  | cons c cs => simp [← hcs]

/-- The first word of the line of an entry is its name. -/
theorem word?_text {entry : Entry} {name : Identifier} (hname : name.text = entry.name) :
    Line.word? entry.text = some entry.name := by
  obtain ⟨rest, htext⟩ := entry.toList_text
  rw [← hname] at htext ⊢
  exact word?_of_name htext

/-- The line of an entry is accepted and sets what the entry says. -/
theorem read_text {entry : Entry} {name : Identifier} (hname : name.text = entry.name)
    (hfits : entry.Fits) {kind? : String → Option Kind}
    (hkind : kind? entry.name = some entry.setting.kind) :
    Line.read kind? entry.text = .ok (.sets entry.setting) := by
  have hword := word?_text hname
  unfold Line.word? at hword
  unfold Line.read
  rw [hword]
  simp only
  rw [hkind, scan_text hname hfits]
  simp only
  rw [if_pos hname, setting_tokens hfits]
  rfl

/-! ## Several lines -/

theorem setting_name (entry : Entry) : entry.setting.name = entry.name := by
  cases entry <;> rfl

theorem isInline_of_mem_integer {n : Int} {c : Char} (h : c ∈ (toString n).toList) :
    Text.IsInline c := by
  have hdigits := (Numeral.plain_toDigits n.natAbs).whole c
  -- an integer is written with digits, and a minus if it is negative
  have hchar : c.isDigit ∨ c = '-' := by
    rw [← Lexeme.text_ofInteger] at h
    by_cases hneg : n < 0
    · simp only [Lexeme.ofInteger, hneg, decide_true, Lexeme.text, Numeral.text, List.append_nil,
        List.mem_cons] at h
      exact h.symm.imp_left hdigits
    · simp only [Lexeme.ofInteger, hneg, decide_false, Lexeme.text, Numeral.text,
        List.append_nil] at h
      exact Or.inl (hdigits h)
  constructor <;> (rintro rfl; exact absurd hchar (by decide))

theorem isInline_of_mem_natural {n : Nat} {c : Char} (h : c ∈ (toString n).toList) :
    Text.IsInline c := by
  rw [← Lexeme.text_ofInteger_natCast, Lexeme.text_ofInteger] at h
  exact isInline_of_mem_integer h

/-- No character of the line of an entry belongs to the end of a line. -/
theorem isInline_of_mem_text {entry : Entry} {name : Identifier} (hname : name.text = entry.name)
    {c : Char} (h : c ∈ entry.text.toList) : Text.IsInline c := by
  have hname : c ∈ entry.name.toList → Text.IsInline c := by
    rw [← hname]
    intro hc
    have halpha := name.isAlpha c hc
    constructor <;> (rintro rfl; exact absurd halpha (by decide))
  cases entry with
  | scalar n value =>
    simp only [text, String.toList_append, List.mem_append] at h
    rcases h with (h | h) | h
    · exact hname h
    · obtain rfl : c = ' ' := List.mem_singleton.mp h
      decide
    · exact isInline_of_mem_integer h
  | array n length pairs =>
    simp only [text, String.toList_append, String.toList_join, List.mem_append, List.mem_flatMap,
      List.mem_map] at h
    rcases h with ((h | h) | h) | ⟨_, ⟨pair, -, rfl⟩, h⟩
    · exact hname h
    · obtain rfl : c = ' ' := List.mem_singleton.mp h
      decide
    · exact isInline_of_mem_natural h
    · simp only [pairText, String.toList_append, List.mem_append] at h
      rcases h with (((h | h) | h) | h) | h
      · have hc : c = ' ' ∨ c = '(' := by simpa using h
        rcases hc with rfl | rfl <;> decide
      · exact isInline_of_mem_natural h
      · obtain rfl : c = ',' := List.mem_singleton.mp h
        decide
      · exact isInline_of_mem_integer h
      · obtain rfl : c = ')' := List.mem_singleton.mp h
        decide

/-- Whether entries are lines of a values text for symbols of these kinds. -/
def Readable (kind? : String → Option Kind) (entry : Entry) : Prop :=
  (∃ name : Identifier, name.text = entry.name) ∧ entry.Fits ∧
    kind? entry.name = some entry.setting.kind

section

variable {kind? : String → Option Kind} {entries : List Entry}

theorem settingOf?_text {entry : Entry} (h : entry.Readable kind?) (n : String) :
    Line.settingOf? kind? n entry.text = if n = entry.name then some entry.setting else none := by
  obtain ⟨⟨name, hname⟩, hfits, hkind⟩ := h
  rw [Line.settingOf?_of_sets (read_text hname hfits hkind), setting_name]

theorem last?_of_not_mem (h : ∀ entry ∈ entries, entry.Readable kind?) {n : String}
    (hn : n ∉ entries.map Entry.name) : Line.last? kind? (entries.map text) n = none := by
  induction entries with
  | nil => rfl
  | cons entry entries ih =>
    rw [List.map_cons, List.mem_cons, not_or] at hn
    rw [List.map_cons, Line.last?_cons, settingOf?_text (h entry List.mem_cons_self),
      if_neg hn.1, ih (fun e he => h e (List.mem_cons_of_mem _ he)) hn.2]
    rfl

/-- A name that is on one line only is set to what this line says. -/
theorem last?_of_mem (h : ∀ entry ∈ entries, entry.Readable kind?)
    (hnodup : (entries.map Entry.name).Nodup) {entry : Entry} (hmem : entry ∈ entries) :
    Line.last? kind? (entries.map text) entry.name = some entry.setting := by
  induction entries with
  | nil => exact nomatch hmem
  | cons e entries ih =>
    obtain ⟨hnot, hnodup⟩ := List.nodup_cons.mp hnodup
    have hrest : ∀ entry ∈ entries, entry.Readable kind? :=
      fun e he => h e (List.mem_cons_of_mem _ he)
    rw [List.map_cons, Line.last?_cons, settingOf?_text (h e List.mem_cons_self)]
    -- the later lines are about other names, or the line is among them
    rcases List.mem_cons.mp hmem with rfl | hmem
    · rw [last?_of_not_mem hrest hnot, if_pos rfl]
      rfl
    · rw [ih hrest hnodup hmem]
      rfl

end

/-- Loading the lines of some entries accepts all of them. -/
theorem load_texts {t : Table} {entries : List Entry}
    (h : ∀ entry ∈ entries, entry.Readable t.kind?) (log : Log) :
    ((Source.ofText (texts entries)).load t log).1 =
      { table := t.overwrite (Line.last? t.kind? (entries.map text)) } := by
  have hlines : Text.lines (texts entries) = entries.map text := by
    have hmap : entries.map (fun entry => entry.text ++ "\n") =
        (entries.map text).map (· ++ "\n") := by simp
    rw [texts, hmap]
    refine Text.lines_join fun l hl c hc => ?_
    obtain ⟨entry, hentry, rfl⟩ := List.mem_map.mp hl
    obtain ⟨⟨name, hname⟩, -⟩ := h entry hentry
    exact isInline_of_mem_text hname hc
  have herrors : Line.errors t.kind? 1 (entries.map text) = [] := by
    refine Line.errors_eq_nil fun line hline => ?_
    obtain ⟨entry, hentry, rfl⟩ := List.mem_map.mp hline
    obtain ⟨⟨name, hname⟩, hfits, hkind⟩ := h entry hentry
    exact ⟨_, read_text hname hfits hkind⟩
  rw [Source.load_ofText_fst, hlines, herrors]

end Reckon.Values.Entry
