import Reckon.Numeral
import Reckon.Proofs.Patterns

/-!
# The language of the numerals

The numerals without a power of ten are a regular language, and each of its words is the text of one
numeral. Reading the longest numeral at the front of a text finds this numeral again, unless the
text goes on with a character that could belong to it.

## Key results

- `Numeral.Plain.first?_append`: the longest numeral at the front of a text
- `Numeral.mem_plainLanguage_iff`: the regular language of the numerals is that of their spellings
- `Numeral.ofPlain?_eq_some_iff`: the numeral that a whole text spells
-/

namespace Reckon

open Computability

/-! ## Words

A word is a maximal run of characters of one sort, so what comes after it starts with a character
of another sort, if with any. -/

section

variable {p : Char → Bool} {word rest : List Char}

theorem takeWhile_word (hword : ∀ c ∈ word, p c) (hrest : ∀ c ∈ rest.head?, p c = false) :
    (word ++ rest).takeWhile p = word := by
  rw [List.takeWhile_append_of_pos hword]
  cases rest with
  | nil => simp
  | cons c rest => simp [hrest c rfl]

theorem dropWhile_word (hword : ∀ c ∈ word, p c) (hrest : ∀ c ∈ rest.head?, p c = false) :
    (word ++ rest).dropWhile p = rest := by
  rw [List.dropWhile_append_of_pos hword]
  cases rest with
  | nil => simp
  | cons c rest => simp [hrest c rfl]

end

/-- The code points of the ASCII letters. -/
theorem toNat_of_isAlpha {c : Char} (h : c.isAlpha) :
    65 ≤ c.toNat ∧ c.toNat ≤ 90 ∨ 97 ≤ c.toNat ∧ c.toNat ≤ 122 := by
  have hval : (decide (c.val ≥ 65 ∧ c.val ≤ 90) || (decide (c.val ≥ 97) && decide (c.val ≤ 122))) =
      true := h
  simpa [UInt32.le_iff_toNat_le] using hval

/-- A letter is no digit. -/
theorem isDigit_eq_false_of_isAlpha {c : Char} (h : c.isAlpha) : c.isDigit = false := by
  rw [Bool.eq_false_iff]
  intro hdigit
  have hval : (decide (c.val ≥ 48) && decide (c.val ≤ 57)) = true := hdigit
  have hletter := toNat_of_isAlpha h
  simp only [Bool.and_eq_true, decide_eq_true_eq, ge_iff_le, UInt32.le_iff_toNat_le] at hval
  have hle : c.toNat ≤ 57 := hval.2
  omega

/-! ## Numerals -/

namespace Numeral

/-- The spelling of a number without a power of ten: digits, and a point before, between or after
    them or none. -/
structure Plain (n : Numeral) : Prop where
  whole : ∀ c ∈ n.whole, c.isDigit
  fraction : ∀ c ∈ n.fraction.getD [], c.isDigit
  digits : n.whole ++ n.fraction.getD [] ≠ []
  scale : n.scale = []

/-- Whether a character cannot belong to the numeral before it. -/
def Ends (c : Char) : Prop :=
  c.isDigit = false ∧ c ≠ '.' ∧ c ≠ 'e' ∧ c ≠ 'E'

instance : DecidablePred Ends := fun _ => inferInstanceAs (Decidable (_ ∧ _))

theorem firstScale_of_ends {rest : List Char} (h : ∀ c ∈ rest.head?, Ends c) :
    firstScale rest = [] := by
  cases rest with
  | nil => rfl
  | cons c rest =>
    obtain ⟨-, -, he, hE⟩ := h c rfl
    simp [firstScale, he, hE]

/-- A plain numeral is the longest at the front of a text, if no character that could belong to it
    comes after it. -/
theorem Plain.first?_append {n : Numeral} (h : n.Plain) {rest : List Char}
    (hrest : ∀ c ∈ rest.head?, Ends c) : first? (n.text ++ rest) = some n := by
  obtain ⟨whole, fraction, scale⟩ := n
  obtain ⟨hwhole, hfraction, hdigits, rfl⟩ := h
  have hdigit : ∀ c ∈ rest.head?, c.isDigit = false := fun c hc => (hrest c hc).1
  cases fraction with
  | none =>
    -- without a point, the digits end where the rest starts
    have hne : whole ≠ [] := by simpa using hdigits
    simp only [text, first?, List.append_nil, takeWhile_word hwhole hdigit,
      dropWhile_word hwhole hdigit]
    cases rest with
    | nil => simp [hne]
    | cons c rest =>
      have hdot := (hrest c rfl).2.1
      split
      · next heq => exact absurd (List.head_eq_of_cons_eq heq) hdot
      · rw [if_neg hne]
  | some ds =>
    -- the point ends the digits before it, and the rest those after it
    have hds : ∀ c ∈ ds, c.isDigit := hfraction
    have hdot : ∀ c ∈ ('.' :: (ds ++ rest)).head?, c.isDigit = false := by
      rintro c hc
      obtain rfl : '.' = c := by simpa using hc
      decide
    have hne : ¬(whole = [] ∧ ds = []) := by simpa using hdigits
    simp only [text, first?, List.append_nil, List.append_assoc, List.cons_append,
      takeWhile_word hwhole hdot, dropWhile_word hwhole hdot, takeWhile_word hds hdigit,
      dropWhile_word hds hdigit, firstScale_of_ends hrest, if_neg hne]

/-- The text of a plain numeral spells it. -/
theorem Plain.ofPlain?_text {n : Numeral} (h : n.Plain) : ofPlain? n.text = some n := by
  have hfirst : first? (n.text ++ []) = some n := h.first?_append (by simp)
  rw [List.append_nil] at hfirst
  rw [ofPlain?, hfirst, Option.filter_some, h.scale]
  simp

/-- A plain numeral is spelled with digits and a point. -/
theorem Plain.of_mem_text {n : Numeral} (h : n.Plain) {c : Char} (hc : c ∈ n.text) :
    c.isDigit ∨ c = '.' := by
  obtain ⟨whole, fraction, scale⟩ := n
  obtain ⟨hwhole, hfraction, -, rfl⟩ := h
  cases fraction with
  | none =>
    have hc : c ∈ whole := by simpa [text] using hc
    exact Or.inl (hwhole c hc)
  | some ds =>
    have hc : c ∈ whole ∨ c = '.' ∨ c ∈ ds := by simpa [text] using hc
    rcases hc with hc | hc | hc
    · exact Or.inl (hwhole c hc)
    · exact Or.inr hc
    · exact Or.inl (hfraction c hc)

theorem Plain.text_ne_nil {n : Numeral} (h : n.Plain) : n.text ≠ [] := by
  obtain ⟨whole, fraction, scale⟩ := n
  obtain ⟨-, -, hdigits, rfl⟩ := h
  cases fraction with
  | none => simpa [text] using hdigits
  | some ds => simp [text]

/-- The digits of a natural number make a numeral. -/
theorem plain_toDigits (n : Nat) : (⟨Nat.toDigits 10 n, none, []⟩ : Numeral).Plain where
  whole _ hc := Nat.isDigit_of_mem_toDigits (by decide) (by decide) hc
  fraction := by simp
  digits := by simp
  scale := rfl

/-- The digits of a natural number spell it. -/
theorem ofDigits_toDigits (n : Nat) : ofDigits (Nat.toDigits 10 n) = n :=
  Nat.ofDigitChars_ten_toDigits

/-! ## The language of the numerals -/

/-- The language of a digit. -/
def digit : Language Char :=
  oneOf Char.isDigit

/-- The language of a point. -/
def point : Language Char :=
  {['.']}

/-- The regular language of the numerals without a power of ten: digits, after which there may be
    a point and more digits, or a point and digits. -/
def plainLanguage : Language Char :=
  digit * digit∗ * (1 + point * digit∗) + point * (digit * digit∗)

theorem mem_digits_iff {w : List Char} : w ∈ digit∗ ↔ ∀ c ∈ w, c.isDigit :=
  mem_kstar_oneOf_iff

/-- At least one digit. -/
theorem mem_digit_mul_digits_iff {w : List Char} :
    w ∈ digit * digit∗ ↔ w ≠ [] ∧ ∀ c ∈ w, c.isDigit :=
  mem_oneOf_mul_kstar_iff

/-- A point, and after it what a language has. -/
theorem mem_point_mul_iff {l : Language Char} {w : List Char} :
    w ∈ point * l ↔ ∃ ds ∈ l, w = '.' :: ds :=
  mem_singleton_mul_iff

/-- The numerals without a power of ten are spelled as the regular language says. -/
theorem mem_plainLanguage_iff {w : List Char} :
    w ∈ plainLanguage ↔ ∃ n : Numeral, n.Plain ∧ n.text = w := by
  rw [plainLanguage, Language.mem_add, mem_point_mul_iff, Language.mem_mul]
  constructor
  · -- the digits before the point and those after it make the numeral
    rintro (⟨whole, hwhole, rest, hrest, rfl⟩ | ⟨fraction, hfraction, rfl⟩)
    · obtain ⟨hne, hdigits⟩ := mem_digit_mul_digits_iff.mp hwhole
      rcases hrest with rfl | hrest
      · exact ⟨⟨whole, none, []⟩, ⟨hdigits, by simp, by simpa using hne, rfl⟩, by simp [text]⟩
      · obtain ⟨fraction, hfraction, rfl⟩ := mem_point_mul_iff.mp hrest
        exact ⟨⟨whole, some fraction, []⟩,
          ⟨hdigits, mem_digits_iff.mp hfraction, by simp [hne], rfl⟩, by simp [text]⟩
    · obtain ⟨hne, hdigits⟩ := mem_digit_mul_digits_iff.mp hfraction
      exact ⟨⟨[], some fraction, []⟩, ⟨by simp, hdigits, by simpa using hne, rfl⟩, by simp [text]⟩
  · rintro ⟨⟨whole, fraction, scale⟩, ⟨hwhole, hfraction, hdigits, rfl⟩, rfl⟩
    cases fraction with
    | none =>
      have hne : whole ≠ [] := by simpa using hdigits
      exact Or.inl ⟨whole, mem_digit_mul_digits_iff.mpr ⟨hne, hwhole⟩, [], Or.inl rfl, by
        simp [text]⟩
    | some ds =>
      by_cases hne : whole = []
      · -- without digits before the point, there are some after it
        subst hne
        have hds : ds ≠ [] := by simpa using hdigits
        exact Or.inr ⟨ds, mem_digit_mul_digits_iff.mpr ⟨hds, hfraction⟩, by simp [text]⟩
      · refine Or.inl ⟨whole, mem_digit_mul_digits_iff.mpr ⟨hne, hwhole⟩, '.' :: ds, Or.inr ?_, by
          simp [text]⟩
        exact mem_point_mul_iff.mpr ⟨ds, mem_digits_iff.mpr hfraction, rfl⟩

/-- The longest numeral at the front of a text is plain, unless it has a power of ten. -/
theorem plain_of_first? {cs : List Char} {n : Numeral} (h : first? cs = some n)
    (hscale : n.scale = []) : n.Plain := by
  have hdigits : ∀ ds : List Char, ∀ c ∈ ds.takeWhile Char.isDigit, c.isDigit :=
    fun ds => List.all_eq_true.mp List.all_takeWhile
  unfold first? at h
  dsimp only at h
  split at h
  · next rest _ =>
    split at h
    · exact nomatch h
    · next hne =>
      obtain rfl := Option.some.inj h
      exact ⟨hdigits cs, hdigits rest, by simpa using hne, hscale⟩
  · split at h
    · exact nomatch h
    · next hne =>
      obtain rfl := Option.some.inj h
      exact ⟨hdigits cs, by simp, by simpa using hne, hscale⟩

/-- The numeral that a whole text spells is the plain one with this text. -/
theorem ofPlain?_eq_some_iff {cs : List Char} {n : Numeral} :
    ofPlain? cs = some n ↔ n.Plain ∧ n.text = cs := by
  constructor
  · intro h
    obtain ⟨hfirst, hn⟩ := Option.filter_eq_some_iff.mp h
    simp only [Bool.and_eq_true, decide_eq_true_eq] at hn
    exact ⟨plain_of_first? hfirst hn.1, hn.2⟩
  · rintro ⟨hplain, rfl⟩
    exact hplain.ofPlain?_text

end Numeral

end Reckon
