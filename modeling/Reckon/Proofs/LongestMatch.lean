import Mathlib.Data.List.Forall2
import Mathlib.Data.Nat.Digits.Defs
import Reckon.Proofs.Acceptance
import Reckon.Proofs.Lexemes

/-!
# Values lines are cut by longest match

Where a line goes on with a blank, the blank is skipped, and else the longest prefix that is a
lexeme is the next one. `Token.Munches` is this relation, and `Token.Reads` says which token a
lexeme is; neither knows how a scan proceeds. A scan reads the lexemes that the relation gives to
the line, up to the end of the line or to the first place where there is none, or where there is an
integer that is too great or too small.

## Key results

- `Lexeme.Spelled.token?_eq_some_iff_reads`: which token a lexeme is read as
- `Token.exists_munches`: every line is cut up to its end, or to something that is wrong with it
- `Token.scan_longestMatch`: what a scan returns, and with which error it fails
-/

namespace Reckon

open Computability

namespace Numeral

/-! ## Exact values -/

/-- The number that a row of digits spells, by the places of the digits. -/
def placeValue (digits : List Char) : Nat :=
  Nat.ofDigits 10 (digits.reverse.map fun c => c.toNat - '0'.toNat)

/-- Digits are read one by one from the left. -/
theorem ofDigits_eq_placeValue (digits : List Char) : ofDigits digits = placeValue digits := by
  -- Induction from the right end, where the digit of place one is.
  induction digits using List.reverseRecOn with
  | nil => rfl
  | append_singleton digits c ih =>
    rw [ofDigits] at ih
    rw [ofDigits, List.foldl_append, ih]
    simp only [placeValue, List.reverse_append, List.reverse_cons, List.reverse_nil,
      List.nil_append, List.cons_append, List.map_cons, Nat.ofDigits_cons, List.foldl_cons,
      List.foldl_nil]
    omega

end Numeral

namespace Values

/-! ## Tokens -/

namespace Token

/-- The integer that a minus or nothing and a row of digits spell. -/
def integerOf (negative : Bool) (digits : List Char) : Int :=
  if negative then -Numeral.placeValue digits else Numeral.placeValue digits

/-- Whether an integer is a signed 64 bit word. -/
def InRange (i : Int) : Prop :=
  leastInteger ≤ i ∧ i ≤ greatestInteger

instance : DecidablePred InRange := fun _ => inferInstanceAs (Decidable (_ ∧ _))

/-- Whether a lexeme, if it is an integer, is a signed 64 bit word. -/
def Fits (lexeme : List Char) : Prop :=
  ∀ negative, ∀ digits ∈ Numeral.digit * Numeral.digit∗, lexeme = Lexeme.sign negative ++ digits →
    InRange (integerOf negative digits)

/-- The token that a lexeme is read as. An integer keeps its exact value. -/
inductive Reads : List Char → Token → Prop
  | real {negative : Bool} {n : Numeral} : n.Spelled → n.text ∈ Numeral.realLanguage →
      Reads (Lexeme.sign negative ++ n.text) (.real (n.value negative))
  | integer {negative : Bool} {digits : List Char} : digits ∈ Numeral.digit * Numeral.digit∗ →
      InRange (integerOf negative digits) →
      Reads (Lexeme.sign negative ++ digits) (.integer (integerOf negative digits))
  | name {letters : List Char} : letters ∈ oneOf Char.isAlpha * (oneOf Char.isAlpha)∗ →
      Reads letters (.name (String.ofList letters))
  | opening : Reads ['('] .opening
  | closing : Reads [')'] .closing
  | comma : Reads [','] .comma

end Token

namespace Lexeme

/-- The lexeme of an integer with these digits. -/
def integer (negative : Bool) (digits : List Char) : Lexeme :=
  numeral negative ⟨digits, none, []⟩

@[simp]
theorem text_integer (negative : Bool) (digits : List Char) :
    (integer negative digits).text = sign negative ++ digits := by
  simp [integer, text_numeral, Numeral.text]

theorem spelled_integer (negative : Bool) {digits : List Char}
    (h : digits ∈ Numeral.digit * Numeral.digit∗) : (integer negative digits).Spelled := by
  obtain ⟨hne, hdigits⟩ := Numeral.mem_digit_mul_digits_iff.mp h
  exact ⟨hdigits, by simp, by simpa using hne, Or.inl rfl⟩

/-- An integer is a token if it is a signed 64 bit word. -/
theorem token?_integer (negative : Bool) (digits : List Char) :
    (integer negative digits).token? =
      if Token.InRange (Token.integerOf negative digits) then
        some (.integer (Token.integerOf negative digits)) else none := by
  have hvalue : (if negative then -(Numeral.toNat ⟨digits, none, []⟩ : Int)
      else (Numeral.toNat ⟨digits, none, []⟩ : Int)) = Token.integerOf negative digits := by
    rw [Numeral.toNat, Numeral.ofDigits_eq_placeValue, Token.integerOf]
  have hfits : ∀ i, fitsWord i = decide (Token.InRange i) :=
    fun i => (Bool.decide_and (leastInteger ≤ i) (i ≤ greatestInteger)).symm
  simp only [integer, token?, Numeral.isInteger, Option.isNone_none, if_true, hvalue, hfits,
    decide_eq_true_eq]

/-- A lexeme is an integer, or else it is read as a token. -/
theorem Spelled.integer_or_reads {l : Lexeme} (h : l.Spelled) :
    (∃ negative, ∃ digits ∈ Numeral.digit * Numeral.digit∗, l = integer negative digits) ∨
      ∃ token, l.token? = some token ∧ Token.Reads l.text token := by
  cases l with
  | numeral negative n =>
    rcases Numeral.Spelled.integer_or_real h with ⟨whole, rfl, hwhole⟩ | ⟨whole, ds, scale, rfl, -⟩
    · exact Or.inl ⟨negative, whole, Numeral.mem_digit_mul_digits_iff.mpr hwhole, rfl⟩
    · refine Or.inr ⟨_, rfl, ?_⟩
      rw [text_numeral]
      exact .real h (Numeral.mem_realLanguage_iff.mpr ⟨_, h, rfl, rfl⟩)
  | name letters => exact Or.inr ⟨_, rfl, .name (mem_oneOf_mul_kstar_iff.mpr h)⟩
  | opening => exact Or.inr ⟨_, rfl, .opening⟩
  | closing => exact Or.inr ⟨_, rfl, .closing⟩
  | comma => exact Or.inr ⟨_, rfl, .comma⟩

/-- What is read as a token is the text of a lexeme with this token. -/
theorem exists_of_reads {w : List Char} {token : Token} (h : Token.Reads w token) :
    ∃ l : Lexeme, l.Spelled ∧ l.text = w ∧ l.token? = some token := by
  cases h with
  | @real negative n hn hreal =>
    obtain ⟨m, hm, hinteger, htext⟩ := Numeral.mem_realLanguage_iff.mp hreal
    -- the numeral has a point, because one with the same text has
    have hsame : numeral false m = numeral false n := Spelled.eq_of_text hm hn htext
    obtain rfl : m = n := by simpa using hsame
    exact ⟨numeral negative m, hn, text_numeral negative m, by simp [token?, hinteger]⟩
  | @integer negative digits hdigits hrange =>
    exact ⟨integer negative digits, spelled_integer negative hdigits, text_integer negative digits,
      by rw [token?_integer, if_pos hrange]⟩
  | name hletters => exact ⟨name w, mem_oneOf_mul_kstar_iff.mp hletters, rfl, rfl⟩
  | opening => exact ⟨opening, trivial, rfl, rfl⟩
  | closing => exact ⟨closing, trivial, rfl, rfl⟩
  | comma => exact ⟨comma, trivial, rfl, rfl⟩

/-- The token of a lexeme is what its text is read as. -/
theorem Spelled.token?_eq_some_iff_reads {l : Lexeme} (h : l.Spelled) {token : Token} :
    l.token? = some token ↔ Token.Reads l.text token := by
  constructor
  · intro htoken
    rcases h.integer_or_reads with ⟨negative, digits, hdigits, rfl⟩ | ⟨token', htoken', hreads⟩
    · rw [token?_integer] at htoken
      split at htoken
      · next hrange =>
        obtain rfl := Option.some.inj htoken
        rw [text_integer]
        exact .integer hdigits hrange
      · exact nomatch htoken
    · obtain rfl := Option.some.inj (htoken.symm.trans htoken')
      exact hreads
  · intro hreads
    obtain ⟨m, hm, htext, htoken⟩ := exists_of_reads hreads
    rwa [← hm.eq_of_text h htext]

/-- A lexeme without a token is an integer that is no signed 64 bit word. -/
theorem Spelled.token?_eq_none_iff {l : Lexeme} (h : l.Spelled) :
    l.token? = none ↔ ∃ negative, ∃ digits ∈ Numeral.digit * Numeral.digit∗,
      l.text = sign negative ++ digits ∧ ¬ Token.InRange (Token.integerOf negative digits) := by
  constructor
  · intro hnone
    rcases h.integer_or_reads with ⟨negative, digits, hdigits, rfl⟩ | ⟨token, htoken, -⟩
    · refine ⟨negative, digits, hdigits, text_integer negative digits, fun hrange => ?_⟩
      rw [token?_integer, if_pos hrange] at hnone
      exact nomatch hnone
    · rw [htoken] at hnone
      exact nomatch hnone
  · rintro ⟨negative, digits, hdigits, htext, hrange⟩
    have hsame : l = integer negative digits :=
      h.eq_of_text (spelled_integer negative hdigits) (by rw [htext, text_integer])
    rw [hsame, token?_integer, if_neg hrange]

end Lexeme

namespace Token

/-- A lexeme is read as a token exactly if it is no integer out of range. -/
theorem fits_iff_exists_reads {w : List Char} (hw : w ∈ Lexeme.language) :
    Fits w ↔ ∃ token, Reads w token := by
  obtain ⟨l, hl, rfl⟩ := Lexeme.mem_language_iff.mp hw
  simp only [← hl.token?_eq_some_iff_reads, ← Option.ne_none_iff_exists', ne_eq,
    hl.token?_eq_none_iff, Fits]
  constructor
  · rintro hfits ⟨negative, digits, hdigits, htext, hrange⟩
    exact hrange (hfits negative digits hdigits htext)
  · intro hnone negative digits hdigits htext
    by_contra hrange
    exact hnone ⟨negative, digits, hdigits, htext, hrange⟩

/-! ## Cutting a line -/

/-- The lexemes that come one after the other at the front of a line, and the rest of it. -/
inductive Munches : List Char → List (List Char) → List Char → Prop
  /-- Nothing has been cut off. -/
  | refl (cs : List Char) : Munches cs [] cs
  /-- A blank is skipped. -/
  | blank {c : Char} {cs rest : List Char} {lexemes : List (List Char)} : isBlank c →
      Munches cs lexemes rest → Munches (c :: cs) lexemes rest
  /-- The longest prefix that is a lexeme comes next. -/
  | lexeme {w cs rest : List Char} {lexemes : List (List Char)} : Lexeme.Longest (w ++ cs) w →
      Munches cs lexemes rest → Munches (w ++ cs) (w :: lexemes) rest

/-- What is wrong at the front of the rest of a line, whatever comes after it. -/
inductive Offends : List Char → List Char → Prop
  /-- A character that is no blank, and with which no lexeme starts. -/
  | character {c : Char} {cs : List Char} : isBlank c = false →
      (∀ w ∈ Lexeme.language, ¬ w <+: c :: cs) → Offends (c :: cs) [c]
  /-- A whole integer that is no signed 64 bit word. -/
  | integer {negative : Bool} {digits cs : List Char} :
      digits ∈ Numeral.digit * Numeral.digit∗ →
      Lexeme.Longest cs (Lexeme.sign negative ++ digits) →
      ¬ InRange (integerOf negative digits) → Offends cs (Lexeme.sign negative ++ digits)

theorem Munches.mem_language {cs rest : List Char} {lexemes : List (List Char)}
    (h : Munches cs lexemes rest) : ∀ w ∈ lexemes, w ∈ Lexeme.language := by
  induction h with
  | refl => simp
  | blank _ _ ih => exact ih
  | lexeme hlongest _ ih => exact List.forall_mem_cons.mpr ⟨hlongest.mem, ih⟩

/-- The characters that a scan skips are white space. -/
theorem textIsBlank_of_isBlank {c : Char} (h : isBlank c) : Text.isBlank c := by
  simp only [isBlank, Bool.or_eq_true, decide_eq_true_eq, or_assoc] at h
  rcases h with rfl | rfl | rfl | rfl <;> decide

/-- The lexeme at the front of a text does not start with a blank. -/
theorem isBlank_eq_false_of_first? {c : Char} {cs : List Char} {l : Lexeme}
    (h : Lexeme.first? (c :: cs) = some l) : isBlank c = false := by
  rw [Bool.eq_false_iff]
  intro hblank
  rw [Lexeme.first?_of_isBlank (textIsBlank_of_isBlank hblank)] at h
  exact nomatch h

/-- A scan looks at the longest lexeme, which is a token or ends the scan. -/
theorem scan_go_longest {w cs : List Char} (h : Lexeme.Longest (w ++ cs) w) :
    ∃ l : Lexeme, l.Spelled ∧ l.text = w ∧ ∀ found, scan.go found (w ++ cs) =
      match l.token? with
      | none => .error (String.ofList w)
      | some token => scan.go (found.push token) cs := by
  obtain ⟨l, hl, rfl⟩ := Lexeme.mem_language_iff.mp h.mem
  refine ⟨l, hl, rfl, fun found => ?_⟩
  have hfirst := Lexeme.first?_eq_some_iff_longest.mpr ⟨hl, h⟩
  obtain ⟨c, ds, htext⟩ := List.exists_cons_of_ne_nil hl.text_ne_nil
  have hdrop : (ds ++ cs).drop ((c :: ds).length - 1) = cs := List.drop_left
  rw [htext, List.cons_append] at hfirst ⊢
  rw [scan.go, if_neg (by simp [isBlank_eq_false_of_first? hfirst]), hfirst]
  cases htoken : l.token? with
  | none => simp only [htoken, htext]
  | some token => simp only [htoken, htext, hdrop]

/-- The lexemes that are cut off are read, and the scan goes on with the rest. -/
theorem Munches.scan_go {cs rest : List Char} {lexemes : List (List Char)}
    (h : Munches cs lexemes rest) {tokens : List Token} (hreads : List.Forall₂ Reads lexemes tokens)
    (found : Array Token) : scan.go found cs = scan.go (found ++ tokens.toArray) rest := by
  -- Induction on the rules, each of which is a step of the scan.
  induction h generalizing tokens found with
  | refl cs =>
    cases hreads
    simp
  | blank hc _ ih => rw [scan_go_blank hc, ih hreads]
  | lexeme hlongest _ ih =>
    obtain ⟨l, hl, rfl, hscan⟩ := scan_go_longest hlongest
    cases hreads with
    | cons hread hreads =>
      rw [hscan, hl.token?_eq_some_iff_reads.mpr hread]
      simp only
      rw [ih hreads]
      simp

/-- A scan fails with what is wrong. -/
theorem Offends.scan_go {rest slice : List Char} (h : Offends rest slice) (found : Array Token) :
    scan.go found rest = .error (String.ofList slice) := by
  cases h with
  | @character c cs hblank hnone =>
    rw [scan.go, if_neg (by simp [hblank]), Lexeme.first?_eq_none_iff.mpr hnone]
    rw [Char.toString_eq_singleton, String.singleton_eq_ofList]
  | @integer negative digits _ hdigits hlongest hrange =>
    obtain ⟨cs, rfl⟩ := hlongest.isPrefix
    obtain ⟨l, hl, htext, hscan⟩ := scan_go_longest hlongest
    rw [hscan, hl.token?_eq_none_iff.mpr ⟨negative, digits, hdigits, htext, hrange⟩]

/-- Every line can be cut up to its end, or to something that is wrong with it. -/
theorem exists_munches (found : Array Token) (cs : List Char) :
    ∃ lexemes tokens rest, Munches cs lexemes rest ∧ List.Forall₂ Reads lexemes tokens ∧
      (rest = [] ∨ ∃ slice, Offends rest slice) := by
  -- Induction along the scan, which finds the lexeme that comes next.
  fun_induction scan.go found cs with
  | case1 => exact ⟨[], [], [], .refl [], .nil, Or.inl rfl⟩
  | case2 found c cs hblank ih =>
    obtain ⟨lexemes, tokens, rest, hmunches, hreads, hrest⟩ := ih
    exact ⟨lexemes, tokens, rest, .blank hblank hmunches, hreads, hrest⟩
  | case3 found c cs hblank hnone =>
    refine ⟨[], [], c :: cs, .refl _, .nil, Or.inr ⟨[c], .character ?_ ?_⟩⟩
    · exact Bool.eq_false_iff.mpr hblank
    · exact Lexeme.first?_eq_none_iff.mp hnone
  | case4 found c cs hblank l hfirst hnone =>
    obtain ⟨hl, hlongest⟩ := Lexeme.first?_eq_some_iff_longest.mp hfirst
    obtain ⟨negative, digits, hdigits, htext, hrange⟩ := hl.token?_eq_none_iff.mp hnone
    refine ⟨[], [], c :: cs, .refl _, .nil, Or.inr ⟨_, .integer hdigits ?_ hrange⟩⟩
    rwa [← htext]
  | case5 found c cs hblank l hfirst token htoken ih =>
    obtain ⟨lexemes, tokens, rest, hmunches, hreads, hrest⟩ := ih
    obtain ⟨hl, hlongest⟩ := Lexeme.first?_eq_some_iff_longest.mp hfirst
    have hread := hl.token?_eq_some_iff_reads.mp htoken
    -- what is left after the lexeme is what the scan goes on with
    have hsplit : c :: cs = l.text ++ cs.drop (l.text.length - 1) := by
      obtain ⟨d, ds, htext⟩ := List.exists_cons_of_ne_nil hl.text_ne_nil
      obtain ⟨after, hafter⟩ := hlongest.isPrefix
      rw [htext, List.cons_append, List.cons.injEq] at hafter
      obtain ⟨rfl, rfl⟩ := hafter
      simp [htext]
    rw [hsplit] at hlongest ⊢
    exact ⟨l.text :: lexemes, token :: tokens, rest, .lexeme hlongest hmunches,
      .cons hread hreads, hrest⟩

/-- Lexemes are all read as tokens exactly if no integer among them is out of range. -/
theorem forall_fits_iff {lexemes : List (List Char)} (h : ∀ w ∈ lexemes, w ∈ Lexeme.language) :
    (∀ w ∈ lexemes, Fits w) ↔ ∃ tokens, List.Forall₂ Reads lexemes tokens := by
  induction lexemes with
  | nil => simp
  | cons w lexemes ih =>
    obtain ⟨hw, hlexemes⟩ := List.forall_mem_cons.mp h
    rw [List.forall_mem_cons, fits_iff_exists_reads hw, ih hlexemes]
    constructor
    · rintro ⟨⟨token, htoken⟩, tokens, htokens⟩
      exact ⟨token :: tokens, .cons htoken htokens⟩
    · rintro ⟨_, _ | ⟨htoken, htokens⟩⟩
      exact ⟨⟨_, htoken⟩, _, htokens⟩

theorem Munches.forall_fits_iff {cs rest : List Char} {lexemes : List (List Char)}
    (h : Munches cs lexemes rest) :
    (∀ w ∈ lexemes, Fits w) ↔ ∃ tokens, List.Forall₂ Reads lexemes tokens :=
  Token.forall_fits_iff h.mem_language

/-- A line that is cut up to its end is scanned into the tokens of its lexemes. -/
theorem scan_eq_ok_iff {line : String} {tokens : Array Token} :
    scan line = .ok tokens ↔
      ∃ lexemes, Munches line.toList lexemes [] ∧ List.Forall₂ Reads lexemes tokens.toList := by
  have hscan : ∀ lexemes (ts : List Token), Munches line.toList lexemes [] →
      List.Forall₂ Reads lexemes ts → scan line = .ok ts.toArray := by
    intro lexemes ts hmunches hreads
    rw [scan, hmunches.scan_go hreads, scan.go, List.append_toArray, List.nil_append]
  constructor
  · intro h
    obtain ⟨lexemes, ts, rest, hmunches, hreads, rfl | ⟨slice, hslice⟩⟩ :=
      exists_munches #[] line.toList
    · obtain rfl := Except.ok.inj (h.symm.trans (hscan lexemes ts hmunches hreads))
      exact ⟨lexemes, hmunches, hreads⟩
    · rw [scan, hmunches.scan_go hreads, hslice.scan_go] at h
      contradiction
  · rintro ⟨lexemes, hmunches, hreads⟩
    exact hscan lexemes tokens.toList hmunches hreads

/-- A line that is cut up to something wrong fails with that. -/
theorem scan_eq_error_iff {line text : String} :
    scan line = .error text ↔ ∃ lexemes rest slice, Munches line.toList lexemes rest ∧
      (∀ w ∈ lexemes, Fits w) ∧ Offends rest slice ∧ text = String.ofList slice := by
  constructor
  · intro h
    obtain ⟨lexemes, ts, rest, hmunches, hreads, hrest⟩ := exists_munches #[] line.toList
    rw [scan, hmunches.scan_go hreads] at h
    rcases hrest with rfl | ⟨slice, hslice⟩
    · rw [scan.go] at h
      contradiction
    · rw [hslice.scan_go] at h
      exact ⟨lexemes, rest, slice, hmunches, hmunches.forall_fits_iff.mpr ⟨ts, hreads⟩, hslice,
        (Except.error.inj h).symm⟩
  · rintro ⟨lexemes, rest, slice, hmunches, hfits, hslice, rfl⟩
    obtain ⟨ts, hreads⟩ := hmunches.forall_fits_iff.mp hfits
    rw [scan, hmunches.scan_go hreads, hslice.scan_go]

/-- A line has tokens exactly if it is cut up to its end by longest match and all its integers are
    signed 64 bit words; the tokens are then those that the lexemes are read as. Otherwise the scan
    fails with the first thing that is wrong, a character with which no lexeme starts or an integer
    out of range. -/
theorem scan_longestMatch (line : String) :
    ((∃ tokens, scan line = .ok tokens) ↔
      ∃ lexemes, Munches line.toList lexemes [] ∧ ∀ w ∈ lexemes, Fits w) ∧
    (∀ tokens, scan line = .ok tokens ↔
      ∃ lexemes, Munches line.toList lexemes [] ∧ List.Forall₂ Reads lexemes tokens.toList) ∧
    ∀ text, scan line = .error text ↔ ∃ lexemes rest slice, Munches line.toList lexemes rest ∧
      (∀ w ∈ lexemes, Fits w) ∧ Offends rest slice ∧ text = String.ofList slice := by
  refine ⟨?_, fun _ => scan_eq_ok_iff, fun _ => scan_eq_error_iff⟩
  simp only [scan_eq_ok_iff]
  constructor
  · rintro ⟨tokens, lexemes, hmunches, hreads⟩
    exact ⟨lexemes, hmunches, hmunches.forall_fits_iff.mpr ⟨_, hreads⟩⟩
  · rintro ⟨lexemes, hmunches, hfits⟩
    obtain ⟨ts, hreads⟩ := hmunches.forall_fits_iff.mp hfits
    exact ⟨ts.toArray, lexemes, hmunches, hreads⟩

end Token

end Values

end Reckon
