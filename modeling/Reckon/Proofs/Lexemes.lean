import Reckon.Proofs.Entries
import Reckon.Proofs.Splitting

/-!
# The language of the lexemes

The lexemes of a values line are a regular language: numbers, rows of letters and the punctuation of
pairs. Prefixes of one text can be lexemes of different lengths, because a point, a power of ten or
a minus goes on with a number only if digits follow in the right places. `Lexeme.first?` looks for
the digits from left to right, and finds the longest of these prefixes.

## Key results

- `Numeral.mem_realLanguage_iff`: the regular language of the numerals with a point is that of
  their spellings
- `Lexeme.mem_language_iff`: the regular language of the lexemes is that of their spellings
- `Lexeme.first?_eq_some_iff_longest`, `Lexeme.first?_eq_none_iff`: the first lexeme is the longest
  prefix in the language
-/

namespace Reckon

open Computability

/-! ## Numerals and their powers of ten -/

namespace Numeral

/-- The language of the powers of ten: a letter, a sign or none, and at least one digit. -/
def scaleLanguage : Language Char :=
  oneOf (fun c => c = 'e' || c = 'E') * ((1 + oneOf fun c => c = '+' || c = '-') * (digit * digit∗))

/-- The language of the numerals with a point: digits before it, or after it, or both, and a power
    of ten or none. -/
def realLanguage : Language Char :=
  (digit * digit∗ * (point * digit∗) + point * (digit * digit∗)) * (1 + scaleLanguage)

/-- A numeral that is made of digits, at least one, and has a power of ten only after a point. -/
structure Spelled (n : Numeral) : Prop where
  whole : ∀ c ∈ n.whole, c.isDigit
  fraction : ∀ c ∈ n.fraction.getD [], c.isDigit
  digits : ¬(n.whole = [] ∧ n.fraction.getD [] = [])
  scale : n.scale = [] ∨ n.fraction.isSome ∧ n.scale ∈ scaleLanguage

/-- The characters before the digits of a power of ten: a sign or none. -/
def IsSign (sign : List Char) : Prop :=
  sign = [] ∨ sign = ['+'] ∨ sign = ['-']

theorem mem_sign_mul_iff {l : Language Char} {w : List Char} :
    w ∈ (1 + oneOf fun c => c = '+' || c = '-') * l ↔
      ∃ sign ds, w = sign ++ ds ∧ IsSign sign ∧ ds ∈ l := by
  rw [Language.mem_mul]
  constructor
  · rintro ⟨sign, hsign, ds, hds, rfl⟩
    refine ⟨sign, ds, rfl, ?_, hds⟩
    rcases hsign with rfl | ⟨c, hc, rfl⟩
    · exact Or.inl rfl
    · simpa [IsSign] using hc
  · rintro ⟨sign, ds, rfl, hsign, hds⟩
    refine ⟨sign, ?_, ds, hds, rfl⟩
    rcases hsign with rfl | rfl | rfl
    · exact Or.inl rfl
    · exact Or.inr ⟨'+', rfl, rfl⟩
    · exact Or.inr ⟨'-', rfl, rfl⟩

theorem mem_scaleLanguage_iff {w : List Char} :
    w ∈ scaleLanguage ↔ ∃ letter sign ds, w = letter :: (sign ++ ds) ∧
      (letter = 'e' ∨ letter = 'E') ∧ IsSign sign ∧ ds ≠ [] ∧ ∀ c ∈ ds, c.isDigit := by
  rw [scaleLanguage, Language.mem_mul]
  constructor
  · rintro ⟨_, ⟨letter, hletter, rfl⟩, w, hw, rfl⟩
    obtain ⟨sign, ds, rfl, hsign, hds⟩ := mem_sign_mul_iff.mp hw
    exact ⟨letter, sign, ds, rfl, by simpa using hletter, hsign, mem_digit_mul_digits_iff.mp hds⟩
  · rintro ⟨letter, sign, ds, rfl, hletter, hsign, hds⟩
    exact ⟨[letter], ⟨letter, by simpa using hletter, rfl⟩, sign ++ ds,
      mem_sign_mul_iff.mpr ⟨sign, ds, rfl, hsign, mem_digit_mul_digits_iff.mpr hds⟩, rfl⟩

/-- The digits after a sign, and those that follow them, come after the sign. -/
theorem splitSign_append {sign ds : List Char} (hsign : IsSign sign) (hne : ds ≠ [])
    (hds : ∀ c ∈ ds, c.isDigit) (rest : List Char) :
    splitSign (sign ++ (ds ++ rest)) = (sign, ds ++ rest) := by
  rcases hsign with rfl | rfl | rfl
  · cases ds with
    | nil => exact absurd rfl hne
    | cons d ds =>
      -- a digit is no sign
      have hd := hds d List.mem_cons_self
      rw [List.nil_append, List.cons_append, splitSign] <;>
        (rintro _ ⟨⟩; exact absurd hd (by decide))
  · rfl
  · rfl

/-- A power of ten is found with all digits that follow it. -/
theorem firstScale_append {w : List Char} (hw : w ∈ scaleLanguage) (rest : List Char) :
    firstScale (w ++ rest) = w ++ rest.takeWhile Char.isDigit := by
  obtain ⟨letter, sign, ds, rfl, hletter, hsign, hne, hds⟩ := mem_scaleLanguage_iff.mp hw
  have hdigits : (ds ++ rest).takeWhile Char.isDigit = ds ++ rest.takeWhile Char.isDigit :=
    List.takeWhile_append_of_pos hds
  have hsome : ds ++ rest.takeWhile Char.isDigit ≠ [] := by simp [hne]
  rw [List.cons_append, List.append_assoc, firstScale, splitSign_append hsign hne hds]
  simp only [hdigits, ne_eq, hsome, not_false_eq_true, and_true, if_pos hletter, List.cons_append,
    List.append_assoc]

/-- What is found as a power of ten is one, and is where it was looked for. -/
theorem firstScale_cases (cs : List Char) :
    firstScale cs = [] ∨ firstScale cs ∈ scaleLanguage ∧ firstScale cs <+: cs := by
  cases cs with
  | nil => exact Or.inl rfl
  | cons letter cs =>
    have hsplit : ∃ sign rest, splitSign cs = (sign, rest) ∧ cs = sign ++ rest ∧
        IsSign sign := by
      unfold splitSign
      split
      · exact ⟨_, _, rfl, rfl, Or.inr (Or.inl rfl)⟩
      · exact ⟨_, _, rfl, rfl, Or.inr (Or.inr rfl)⟩
      · exact ⟨_, _, rfl, rfl, Or.inl rfl⟩
    obtain ⟨sign, rest, hsign, rfl, hmem⟩ := hsplit
    rw [firstScale, hsign]
    simp only
    split
    · next h =>
      refine Or.inr ⟨mem_scaleLanguage_iff.mpr ⟨letter, sign, _, rfl, h.1, hmem, h.2, ?_⟩, ?_⟩
      · exact List.all_eq_true.mp List.all_takeWhile
      · exact List.cons_prefix_cons.mpr ⟨rfl, List.prefix_append_right_inj _ |>.mpr
          (List.takeWhile_prefix _)⟩
    · exact Or.inl rfl

/-- A power of ten starts with a letter, and so ends the digits before it. -/
theorem isDigit_head?_scale {w : List Char} (hw : w ∈ scaleLanguage) (rest : List Char) :
    ∀ c ∈ (w ++ rest).head?, c.isDigit = false := by
  obtain ⟨letter, sign, ds, rfl, hletter, -⟩ := mem_scaleLanguage_iff.mp hw
  rintro c hc
  obtain rfl : letter = c := by simpa using hc
  rcases hletter with rfl | rfl <;> rfl

/-- A power of ten is spelled with its letter, a sign and digits. -/
theorem of_mem_scale {w : List Char} (hw : w ∈ scaleLanguage) {c : Char} (hc : c ∈ w) :
    c.isAlphanum ∨ c ∈ ['.', '+', '-'] := by
  obtain ⟨letter, sign, ds, rfl, hletter, hsign, -, hds⟩ := mem_scaleLanguage_iff.mp hw
  have hc : c = letter ∨ c ∈ sign ∨ c ∈ ds := by simpa using hc
  rcases hc with rfl | hc | hc
  · rcases hletter with rfl | rfl <;> exact Or.inl (by decide)
  · rcases hsign with rfl | rfl | rfl
    · exact absurd hc List.not_mem_nil
    · exact Or.inr (by simp [List.mem_singleton.mp hc])
    · exact Or.inr (by simp [List.mem_singleton.mp hc])
  · exact Or.inl (by simp [Char.isAlphanum, hds c hc])

/-- A numeral is a row of digits, or has a point and maybe a power of ten. -/
theorem Spelled.integer_or_real {n : Numeral} (h : n.Spelled) :
    (∃ whole, n = ⟨whole, none, []⟩ ∧ whole ≠ [] ∧ ∀ c ∈ whole, c.isDigit) ∨
      ∃ whole ds scale, n = ⟨whole, some ds, scale⟩ ∧ (∀ c ∈ whole, c.isDigit) ∧
        (∀ c ∈ ds, c.isDigit) ∧ ¬(whole = [] ∧ ds = []) ∧
        (scale = [] ∨ scale ∈ scaleLanguage) := by
  obtain ⟨whole, fraction, scale⟩ := n
  obtain ⟨hwhole, hfraction, hdigits, hscale⟩ := h
  cases fraction with
  | none =>
    have hne : whole ≠ [] := by simpa using hdigits
    obtain rfl : scale = [] := by simpa using hscale
    exact Or.inl ⟨whole, rfl, hne, hwhole⟩
  | some ds =>
    exact Or.inr ⟨whole, ds, scale, rfl, hwhole, hfraction, hdigits, hscale.imp_right And.right⟩

/-! ## The first numeral is the longest -/

/-- Digits before a point end at the point. -/
theorem first?_point {whole : List Char} (hwhole : ∀ c ∈ whole, c.isDigit) {cs : List Char}
    (hdigits : ¬(whole = [] ∧ cs.takeWhile Char.isDigit = [])) :
    first? (whole ++ '.' :: cs) = some ⟨whole, some (cs.takeWhile Char.isDigit),
      firstScale (cs.dropWhile Char.isDigit)⟩ := by
  have hdot : ∀ c ∈ ('.' :: cs).head?, c.isDigit = false := by
    rintro c hc
    obtain rfl : '.' = c := by simpa using hc
    rfl
  simp only [first?, takeWhile_word hwhole hdot, dropWhile_word hwhole hdot, if_neg hdigits]

/-- The numeral at the front of a text is spelled there. -/
theorem spelled_of_first? {cs : List Char} {n : Numeral} (h : first? cs = some n) :
    n.Spelled ∧ n.text <+: cs := by
  have hdigits : ∀ ds : List Char, ∀ c ∈ ds.takeWhile Char.isDigit, c.isDigit :=
    fun ds => List.all_eq_true.mp List.all_takeWhile
  have hcs := List.takeWhile_append_dropWhile (p := Char.isDigit) (l := cs)
  unfold first? at h
  dsimp only at h
  split at h
  · next rest hrest =>
    split at h
    · exact nomatch h
    · next hne =>
      obtain rfl := Option.some.inj h
      have hscale := firstScale_cases (rest.dropWhile Char.isDigit)
      refine ⟨⟨hdigits cs, hdigits rest, hne, hscale.imp_right fun h => ⟨rfl, h.1⟩⟩, ?_⟩
      -- the digits, the point, the digits after it and the power of ten are a prefix each
      have hprefix : firstScale (rest.dropWhile Char.isDigit) <+: rest.dropWhile Char.isDigit := by
        rcases hscale with hnil | hmem
        · rw [hnil]
          exact List.nil_prefix
        · exact hmem.2
      have hrest' := List.takeWhile_append_dropWhile (p := Char.isDigit) (l := rest)
      conv_rhs => rw [← hcs, hrest, ← hrest']
      simp only [text, List.append_assoc, List.cons_append, List.prefix_append_right_inj,
        List.cons_prefix_cons, true_and]
      exact hprefix
  · split at h
    · exact nomatch h
    · next hne =>
      obtain rfl := Option.some.inj h
      refine ⟨⟨hdigits cs, by simp, by simpa using hne, Or.inl rfl⟩, ?_⟩
      simpa [text] using List.takeWhile_prefix Char.isDigit

/-- No numeral at the front of a text is longer than the one that is found. -/
theorem Spelled.exists_first? {n : Numeral} (h : n.Spelled) (rest : List Char) :
    ∃ m, first? (n.text ++ rest) = some m ∧ n.text.length ≤ m.text.length := by
  rcases h.integer_or_real with
    ⟨whole, rfl, hne, hwhole⟩ | ⟨whole, ds, scale, rfl, hwhole, hds, hne, hscale⟩
  · -- the digits are found with those that follow, whether or not there is a point after them
    have htake : (whole ++ rest).takeWhile Char.isDigit = whole ++ rest.takeWhile Char.isDigit :=
      List.takeWhile_append_of_pos hwhole
    simp only [text, List.append_nil, first?, htake, List.append_eq_nil_iff, hne, false_and,
      if_false]
    split
    · exact ⟨_, rfl, by simp only [List.length_append]; omega⟩
    · exact ⟨_, rfl, by simp only [List.length_append]; omega⟩
  · simp only [text, List.append_assoc, List.cons_append]
    rcases hscale with rfl | hscale
    · -- the digits after the point are found with those that follow
      have htake : (ds ++ rest).takeWhile Char.isDigit = ds ++ rest.takeWhile Char.isDigit :=
        List.takeWhile_append_of_pos hds
      have hne' : ¬(whole = [] ∧ (ds ++ rest).takeWhile Char.isDigit = []) := by
        rw [htake, List.append_eq_nil_iff]
        exact fun h => hne ⟨h.1, h.2.1⟩
      refine ⟨_, first?_point hwhole hne', ?_⟩
      simp only [List.nil_append, htake, List.length_append, List.length_cons, List.length_nil]
      omega
    · -- the power of ten ends the digits after the point, and is found with those that follow
      have hhead := isDigit_head?_scale hscale rest
      have htake := takeWhile_word hds hhead
      refine ⟨_, first?_point hwhole (by rwa [htake]), ?_⟩
      simp only [htake, dropWhile_word hds hhead, firstScale_append hscale, List.length_append,
        List.length_cons]
      omega

/-- A numeral is what its text spells. -/
theorem Spelled.first?_text {n : Numeral} (h : n.Spelled) : first? n.text = some n := by
  rcases h.integer_or_real with
    ⟨whole, rfl, hne, hwhole⟩ | ⟨whole, ds, scale, rfl, hwhole, hds, hne, hscale⟩
  · have htake : (whole ++ []).takeWhile Char.isDigit = whole := takeWhile_word hwhole (by simp)
    have hdrop : (whole ++ []).dropWhile Char.isDigit = [] := dropWhile_word hwhole (by simp)
    rw [List.append_nil] at htake hdrop
    simp only [text, List.append_nil, first?, htake, hdrop, if_neg hne]
  · have hhead : ∀ c ∈ scale.head?, c.isDigit = false := by
      rcases hscale with rfl | hscale
      · simp
      · simpa using isDigit_head?_scale hscale []
    have hfirst : firstScale scale = scale := by
      rcases hscale with rfl | hscale
      · rfl
      · simpa using firstScale_append hscale []
    have htake := takeWhile_word hds hhead
    have hne' : ¬(whole = [] ∧ (ds ++ scale).takeWhile Char.isDigit = []) := by rwa [htake]
    have hpoint := first?_point hwhole hne'
    simpa only [text, List.append_assoc, List.cons_append, htake, dropWhile_word hds hhead, hfirst]
      using hpoint

/-- A numeral is spelled with digits, the letter of a power of ten, a point and signs. -/
theorem Spelled.of_mem_text {n : Numeral} (h : n.Spelled) {c : Char} (hc : c ∈ n.text) :
    c.isAlphanum ∨ c ∈ ['.', '+', '-'] := by
  have hdigits : ∀ {cs : List Char}, (∀ d ∈ cs, d.isDigit) → c ∈ cs → c.isAlphanum :=
    fun hcs hmem => by simp [Char.isAlphanum, hcs c hmem]
  rcases h.integer_or_real with
    ⟨whole, rfl, -, hwhole⟩ | ⟨whole, ds, scale, rfl, hwhole, hds, -, hscale⟩
  · exact Or.inl (hdigits hwhole (by simpa [text] using hc))
  · have hc : c ∈ whole ∨ c = '.' ∨ c ∈ ds ∨ c ∈ scale := by simpa [text] using hc
    rcases hc with hc | rfl | hc | hc
    · exact Or.inl (hdigits hwhole hc)
    · exact Or.inr (by decide)
    · exact Or.inl (hdigits hds hc)
    · rcases hscale with rfl | hscale
      · exact absurd hc List.not_mem_nil
      · exact of_mem_scale hscale hc

/-- The numerals without a point are spelled as rows of digits. -/
theorem mem_digits_iff_spelled {w : List Char} :
    w ∈ digit * digit∗ ↔ ∃ n : Numeral, n.Spelled ∧ n.isInteger ∧ n.text = w := by
  rw [mem_digit_mul_digits_iff]
  constructor
  · rintro ⟨hne, hdigits⟩
    exact ⟨⟨w, none, []⟩, ⟨hdigits, by simp, by simpa using hne, Or.inl rfl⟩, rfl, by simp [text]⟩
  · rintro ⟨n, hn, hinteger, rfl⟩
    rcases hn.integer_or_real with ⟨whole, rfl, hne, hwhole⟩ | ⟨whole, ds, scale, rfl, -⟩
    · simpa [text] using ⟨hne, hwhole⟩
    · exact absurd hinteger Bool.false_ne_true

/-- The numerals with a point are spelled as the regular language says. -/
theorem mem_realLanguage_iff {w : List Char} :
    w ∈ realLanguage ↔ ∃ n : Numeral, n.Spelled ∧ n.isInteger = false ∧ n.text = w := by
  rw [realLanguage, Language.mem_mul]
  constructor
  · rintro ⟨v, hv, scale, hscale, rfl⟩
    -- the digits before the point and those after it make the numeral
    obtain ⟨whole, ds, rfl, hwhole, hds, hne⟩ : ∃ whole ds, v = whole ++ '.' :: ds ∧
        (∀ c ∈ whole, c.isDigit) ∧ (∀ c ∈ ds, c.isDigit) ∧ ¬(whole = [] ∧ ds = []) := by
      rcases hv with hv | hv
      · obtain ⟨whole, hwhole, rest, hrest, rfl⟩ := Language.mem_mul.mp hv
        obtain ⟨ds, hds, rfl⟩ := mem_point_mul_iff.mp hrest
        obtain ⟨hne, hwhole⟩ := mem_digit_mul_digits_iff.mp hwhole
        exact ⟨whole, ds, rfl, hwhole, mem_digits_iff.mp hds, fun h => hne h.1⟩
      · obtain ⟨ds, hds, rfl⟩ := mem_point_mul_iff.mp hv
        obtain ⟨hne, hds⟩ := mem_digit_mul_digits_iff.mp hds
        exact ⟨[], ds, rfl, by simp, hds, fun h => hne h.2⟩
    exact ⟨⟨whole, some ds, scale⟩, ⟨hwhole, hds, hne, hscale.imp_right fun h => ⟨rfl, h⟩⟩, rfl, by
      simp [text]⟩
  · rintro ⟨n, hn, hreal, rfl⟩
    rcases hn.integer_or_real with
      ⟨whole, rfl, -⟩ | ⟨whole, ds, scale, rfl, hwhole, hds, hdigits, hscale⟩
    · exact absurd hreal.symm Bool.false_ne_true
    · refine ⟨whole ++ '.' :: ds, ?_, scale, hscale, by simp [text]⟩
      by_cases hne : whole = []
      · -- without digits before the point, there are some after it
        have hdne : ds ≠ [] := fun h => hdigits ⟨hne, h⟩
        rw [hne]
        exact Or.inr (mem_point_mul_iff.mpr ⟨ds, mem_digit_mul_digits_iff.mpr ⟨hdne, hds⟩, rfl⟩)
      · refine Or.inl ⟨whole, mem_digit_mul_digits_iff.mpr ⟨hne, hwhole⟩, '.' :: ds, ?_, rfl⟩
        exact mem_point_mul_iff.mpr ⟨ds, mem_digits_iff.mpr hds, rfl⟩

end Numeral

/-! ## The language of the lexemes -/

namespace Values

namespace Lexeme

/-- The characters of a sign: a minus or nothing. -/
def sign : Bool → List Char
  | true => ['-']
  | false => []

/-- The regular language of the lexemes: numerals with a point and integers, with a minus or
    without, rows of ASCII letters, and the punctuation of pairs. -/
def language : Language Char :=
  (1 + {['-']}) * (Numeral.realLanguage + Numeral.digit * Numeral.digit∗) +
    oneOf Char.isAlpha * (oneOf Char.isAlpha)∗ + oneOf fun c => c = '(' || c = ')' || c = ','

/-- A lexeme that is made of the characters that it may have. -/
def Spelled : Lexeme → Prop
  | numeral _ n => n.Spelled
  | name letters => letters ≠ [] ∧ ∀ c ∈ letters, c.isAlpha
  | opening | closing | comma => True

theorem text_numeral (negative : Bool) (n : Numeral) :
    (numeral negative n).text = sign negative ++ n.text := by
  cases negative <;> rfl

theorem mem_minus_mul_iff {l : Language Char} {w : List Char} :
    w ∈ (1 + {['-']}) * l ↔ ∃ negative, ∃ cs ∈ l, w = sign negative ++ cs := by
  rw [add_mul, one_mul, Language.mem_add, mem_singleton_mul_iff]
  constructor
  · rintro (hw | ⟨cs, hcs, rfl⟩)
    · exact ⟨false, w, hw, rfl⟩
    · exact ⟨true, cs, hcs, rfl⟩
  · rintro ⟨_ | _, cs, hcs, rfl⟩
    · exact Or.inl hcs
    · exact Or.inr ⟨cs, hcs, rfl⟩

theorem mem_numerals_iff {w : List Char} :
    w ∈ Numeral.realLanguage + Numeral.digit * Numeral.digit∗ ↔
      ∃ n : Numeral, n.Spelled ∧ n.text = w := by
  rw [Language.mem_add, Numeral.mem_realLanguage_iff, Numeral.mem_digits_iff_spelled]
  constructor
  · rintro (⟨n, hn, -, rfl⟩ | ⟨n, hn, -, rfl⟩) <;> exact ⟨n, hn, rfl⟩
  · rintro ⟨n, hn, rfl⟩
    cases hinteger : n.isInteger with
    | false => exact Or.inl ⟨n, hn, hinteger, rfl⟩
    | true => exact Or.inr ⟨n, hn, hinteger, rfl⟩

/-- The lexemes are spelled as the regular language says. -/
theorem mem_language_iff {w : List Char} :
    w ∈ language ↔ ∃ l : Lexeme, l.Spelled ∧ l.text = w := by
  rw [language, Language.mem_add, Language.mem_add, mem_minus_mul_iff, mem_oneOf_mul_kstar_iff]
  constructor
  · rintro ((⟨negative, cs, hcs, rfl⟩ | hletters) | ⟨c, hc, rfl⟩)
    · obtain ⟨n, hn, rfl⟩ := mem_numerals_iff.mp hcs
      exact ⟨numeral negative n, hn, text_numeral negative n⟩
    · exact ⟨name w, hletters, rfl⟩
    · have hc : (c = '(' ∨ c = ')') ∨ c = ',' := by simpa using hc
      rcases hc with (rfl | rfl) | rfl
      · exact ⟨opening, trivial, rfl⟩
      · exact ⟨closing, trivial, rfl⟩
      · exact ⟨comma, trivial, rfl⟩
  · rintro ⟨l, hl, rfl⟩
    cases l with
    | numeral negative n =>
      refine Or.inl (Or.inl ⟨negative, n.text, mem_numerals_iff.mpr ⟨n, hl, rfl⟩, ?_⟩)
      exact text_numeral negative n
    | name letters => exact Or.inl (Or.inr hl)
    | opening => exact Or.inr ⟨'(', rfl, rfl⟩
    | closing => exact Or.inr ⟨')', rfl, rfl⟩
    | comma => exact Or.inr ⟨',', rfl, rfl⟩

/-! ## The first lexeme is the longest -/

/-- The lexeme at the front of a text is spelled there. -/
theorem spelled_of_first? {cs : List Char} {l : Lexeme} (h : first? cs = some l) :
    l.Spelled ∧ l.text <+: cs := by
  unfold first? at h
  split at h
  · exact nomatch h
  · obtain rfl := Option.some.inj h
    exact ⟨trivial, by simp [text]⟩
  · obtain rfl := Option.some.inj h
    exact ⟨trivial, by simp [text]⟩
  · obtain rfl := Option.some.inj h
    exact ⟨trivial, by simp [text]⟩
  · next cs =>
    obtain ⟨n, hn, rfl⟩ := Option.map_eq_some_iff.mp h
    obtain ⟨hspelled, hprefix⟩ := Numeral.spelled_of_first? hn
    exact ⟨hspelled, List.cons_prefix_cons.mpr ⟨rfl, hprefix⟩⟩
  · next c cs _ _ _ _ =>
    split at h
    · next hc =>
      obtain rfl := Option.some.inj h
      refine ⟨⟨List.cons_ne_nil _ _, List.forall_mem_cons.mpr ⟨hc, ?_⟩⟩, ?_⟩
      · exact List.all_eq_true.mp List.all_takeWhile
      · exact List.cons_prefix_cons.mpr ⟨rfl, List.takeWhile_prefix _⟩
    · obtain ⟨n, hn, rfl⟩ := Option.map_eq_some_iff.mp h
      exact Numeral.spelled_of_first? hn

/-- A numeral starts with a digit or a point. -/
theorem head_of_spelled {n : Numeral} (h : n.Spelled) :
    ∃ c cs, n.text = c :: cs ∧ (c.isDigit ∨ c = '.') := by
  obtain ⟨whole, fraction, scale⟩ := n
  obtain ⟨hwhole, -, hdigits, -⟩ := h
  cases whole with
  | cons c cs => exact ⟨c, _, rfl, Or.inl (hwhole c List.mem_cons_self)⟩
  | nil =>
    cases fraction with
    | none => exact absurd ⟨rfl, rfl⟩ hdigits
    | some ds => exact ⟨'.', _, rfl, Or.inr rfl⟩

/-- A text that starts with a digit or a point starts with a number. -/
theorem first?_of_digit_or_point {c : Char} (h : c.isDigit ∨ c = '.') (cs : List Char) :
    first? (c :: cs) = (Numeral.first? (c :: cs)).map (numeral false) := by
  have hletter : c.isAlpha = false := by
    rw [Bool.eq_false_iff]
    intro halpha
    rcases h with hdigit | rfl
    · rw [isDigit_eq_false_of_isAlpha halpha] at hdigit
      exact nomatch hdigit
    · exact nomatch halpha
  rw [first?, hletter, if_neg Bool.false_ne_true]
  -- the punctuation is neither a digit nor a point
  all_goals
    rintro rfl
    exact absurd h (by decide)

/-- What is found in a text that starts with a numeral. -/
theorem first?_numeral {n : Numeral} (h : n.Spelled) (negative : Bool) (rest : List Char) :
    first? ((numeral negative n).text ++ rest) =
      (Numeral.first? (n.text ++ rest)).map (numeral negative) := by
  cases negative with
  | true => rfl
  | false =>
    obtain ⟨c, cs, htext, hc⟩ := head_of_spelled h
    rw [text, htext, List.cons_append, first?_of_digit_or_point hc]

/-- No lexeme at the front of a text is longer than the one that is found. -/
theorem Spelled.exists_first? {l : Lexeme} (h : l.Spelled) (rest : List Char) :
    ∃ m, first? (l.text ++ rest) = some m ∧ l.text.length ≤ m.text.length := by
  cases l with
  | numeral negative n =>
    obtain ⟨m, hm, hle⟩ := Numeral.Spelled.exists_first? h rest
    refine ⟨numeral negative m, by rw [first?_numeral h, hm, Option.map_some], ?_⟩
    simp only [text_numeral, List.length_append]
    omega
  | name letters =>
    obtain ⟨hne, hletters⟩ := h
    cases letters with
    | nil => exact absurd rfl hne
    | cons c cs =>
      obtain ⟨hc, hcs⟩ := List.forall_mem_cons.mp hletters
      refine ⟨name (c :: (cs ++ rest).takeWhile Char.isAlpha), ?_, ?_⟩
      · rw [text, List.cons_append, first?_cons_of_alphanum (by simp [Char.isAlphanum, hc]),
          if_pos hc]
      · rw [List.takeWhile_append_of_pos hcs]
        simp [text]
  | opening => exact ⟨opening, rfl, Nat.le_refl _⟩
  | closing => exact ⟨closing, rfl, Nat.le_refl _⟩
  | comma => exact ⟨comma, rfl, Nat.le_refl _⟩

/-- A lexeme is what its text spells. -/
theorem Spelled.first?_text {l : Lexeme} (h : l.Spelled) : first? l.text = some l := by
  cases l with
  | numeral negative n =>
    have hfirst := first?_numeral h negative []
    rwa [List.append_nil, List.append_nil, Numeral.Spelled.first?_text h, Option.map_some] at hfirst
  | name letters =>
    have hfirst : first? (letters ++ []) = some (name letters) := first?_name h.1 h.2 (by simp)
    rwa [List.append_nil] at hfirst
  | opening => rfl
  | closing => rfl
  | comma => rfl

theorem Spelled.text_ne_nil {l : Lexeme} (h : l.Spelled) : l.text ≠ [] := by
  intro hnil
  have hfirst := h.first?_text
  rw [hnil] at hfirst
  exact nomatch hfirst

/-- A lexeme is spelled with digits, letters, a point, signs and the punctuation of pairs. -/
theorem Spelled.of_mem_text {l : Lexeme} (h : l.Spelled) {c : Char} (hc : c ∈ l.text) :
    c.isAlphanum ∨ c ∈ ['.', '+', '-', '(', ')', ','] := by
  cases l with
  | numeral negative n =>
    have hc : c ∈ sign negative ∨ c ∈ n.text := by
      rwa [text_numeral, List.mem_append] at hc
    rcases hc with hc | hc
    · cases negative with
      | true => exact Or.inr (by simp [List.mem_singleton.mp hc])
      | false => exact nomatch hc
    · refine (Numeral.Spelled.of_mem_text h hc).imp_right fun hmem => ?_
      exact List.mem_append_left ['(', ')', ','] hmem
  | name letters => exact Or.inl (by simp [Char.isAlphanum, h.2 c hc])
  | opening | closing | comma => exact Or.inr (by simp [List.mem_singleton.mp hc])

/-- Lexemes with the same text are the same. -/
theorem Spelled.eq_of_text {l m : Lexeme} (hl : l.Spelled) (hm : m.Spelled)
    (htext : l.text = m.text) : l = m := by
  have hfirst := hl.first?_text
  rw [htext, hm.first?_text] at hfirst
  exact (Option.some.inj hfirst).symm

/-- The longest prefix of a text that is a lexeme. -/
abbrev Longest : List Char → List Char → Prop :=
  Reckon.Longest language

theorem longest_of_first? {cs : List Char} {l : Lexeme} (h : first? cs = some l) :
    Longest cs l.text := by
  obtain ⟨hspelled, hprefix⟩ := spelled_of_first? h
  refine ⟨mem_language_iff.mpr ⟨l, hspelled, rfl⟩, hprefix, ?_⟩
  rintro w hw ⟨rest, rfl⟩
  obtain ⟨m, hm, rfl⟩ := mem_language_iff.mp hw
  obtain ⟨l', hl', hle⟩ := hm.exists_first? rest
  obtain rfl := Option.some.inj (h.symm.trans hl')
  exact hle

/-- No lexeme is found exactly where no prefix is one. -/
theorem first?_eq_none_iff {cs : List Char} :
    first? cs = none ↔ ∀ w ∈ language, ¬ w <+: cs := by
  constructor
  · rintro hnone w hw ⟨rest, rfl⟩
    obtain ⟨m, hm, rfl⟩ := mem_language_iff.mp hw
    obtain ⟨l, hl, -⟩ := hm.exists_first? rest
    rw [hnone] at hl
    exact nomatch hl
  · intro h
    rw [Option.eq_none_iff_forall_ne_some]
    intro l hl
    exact h _ (longest_of_first? hl).mem (longest_of_first? hl).isPrefix

/-- The lexeme that is found is the one that the longest prefix spells. -/
theorem first?_eq_some_iff_longest {cs : List Char} {l : Lexeme} :
    first? cs = some l ↔ l.Spelled ∧ Longest cs l.text := by
  constructor
  · exact fun h => ⟨(spelled_of_first? h).1, longest_of_first? h⟩
  · rintro ⟨hspelled, hlongest⟩
    cases hfirst : first? cs with
    | none => exact absurd hlongest.isPrefix (first?_eq_none_iff.mp hfirst _ hlongest.mem)
    | some m =>
      have hm := longest_of_first? hfirst
      have hlength : m.text.length = l.text.length :=
        Nat.le_antisymm (hlongest.length_le _ hm.mem hm.isPrefix)
          (hm.length_le _ hlongest.mem hlongest.isPrefix)
      have htext : m.text = l.text :=
        (List.prefix_of_prefix_length_le hm.isPrefix hlongest.isPrefix hlength.le).eq_of_length
          hlength
      rw [(spelled_of_first? hfirst).1.eq_of_text hspelled htext]

/-- The letter and the sign after the number are no power of ten without a digit. -/
example : (first? "1.5e+x".toList).map text = some "1.5".toList := by decide +kernel

end Lexeme

end Values

end Reckon
