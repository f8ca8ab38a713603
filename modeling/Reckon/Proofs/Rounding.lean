import Mathlib
import Reckon.Decimal.Shortest
import Reckon.Proofs.Nearest

/-!
# The numbers that round to a double

Rounding a quotient takes two steps: finding the exponent at which its significand has 53 bits, and
the natural number nearest to it there. Both are determined by the quotient, so that the numbers
which round to a positive double are those of one interval around it.

## Key results

- `Binary64.Canonical.magnitudeBits_eq_iff`: a quotient rounds to a positive double exactly if the
  interval around the double covers it
- `Binary64.eq_of_ofFloat_eq_finite`: a finite double is put together from the parts that it is read
  as
-/

namespace Reckon

/-! ## Intervals -/

namespace Decimal.Interval

variable {i : Interval} {q r s : ℚ}

/-- Whether a number, counted in quarters, lies in the interval. -/
def Covers (i : Interval) (q : ℚ) : Prop :=
  if i.closed then i.low ≤ q ∧ q ≤ i.high else i.low < q ∧ q < i.high

theorem covers_of_lt (hlow : i.low < q) (hhigh : q < i.high) : i.Covers q := by
  unfold Covers
  split
  · exact ⟨hlow.le, hhigh.le⟩
  · exact ⟨hlow, hhigh⟩

/-- What lies between two numbers of the interval is in it, too. -/
theorem Covers.between (hq : i.Covers q) (hs : i.Covers s) (hqr : q ≤ r) (hrs : r ≤ s) :
    i.Covers r := by
  unfold Covers at *
  split_ifs at *
  · exact ⟨hq.1.trans hqr, hrs.trans hs.2⟩
  · exact ⟨hq.1.trans_le hqr, hrs.trans_lt hs.2⟩

theorem contains_iff {scale : Nat} (hscale : 0 < scale) (candidate : Nat) :
    i.contains scale candidate ↔ i.Covers (candidate / scale) := by
  have hpos : (0 : ℚ) < scale := by exact_mod_cast hscale
  have hle (n : Nat) : (n : ℚ) ≤ candidate / scale ↔ n * scale ≤ candidate := by
    rw [le_div_iff₀ hpos]
    exact_mod_cast Iff.rfl
  have hge (n : Nat) : (candidate : ℚ) / scale ≤ n ↔ candidate ≤ n * scale := by
    rw [div_le_iff₀ hpos]
    exact_mod_cast Iff.rfl
  unfold contains Covers
  split <;> simp only [Bool.and_eq_true, decide_eq_true_eq, ← not_le, hle, hge]

end Decimal.Interval

namespace Binary64

open Decimal (Interval)

/-! ## Natural numbers next to a number -/

/-- Whether a natural number is the nearest one to a number, a half going to the even neighbour. -/
def Rounds (q : ℚ) (r : Nat) : Prop :=
  if r % 2 = 0 then |q - r| ≤ 1 / 2 else |q - r| < 1 / 2

variable {q : ℚ} {r s : Nat}

theorem Rounds.le (h : Rounds q r) : r - 1 / 2 ≤ q ∧ q ≤ r + 1 / 2 := by
  have hle : |q - r| ≤ 1 / 2 := by
    unfold Rounds at h
    split at h
    · exact h
    · exact h.le
  obtain ⟨hlow, hhigh⟩ := abs_le.mp hle
  constructor <;> linarith

/-- Only an even number is as near as half a step. -/
theorem Rounds.even (h : Rounds q r) (hq : |q - r| = 1 / 2) : r % 2 = 0 := by
  unfold Rounds at h
  split at h
  · assumption
  · exact absurd hq h.ne

/-- A number rounds to one natural number only. -/
theorem Rounds.eq (hr : Rounds q r) (hs : Rounds q s) : r = s := by
  wlog hlt : r < s generalizing r s
  · rcases Nat.lt_or_eq_of_le (Nat.not_lt.mp hlt) with hlt | heq
    · exact (this hs hr hlt).symm
    · exact heq.symm
  exfalso
  have hstep : (r : ℚ) + 1 ≤ s := by exact_mod_cast hlt
  obtain ⟨-, hhigh⟩ := hr.le
  obtain ⟨hlow, -⟩ := hs.le
  -- both are half a step away, so that both are even
  have hrs : s = r + 1 := by
    have : (s : ℚ) ≤ r + 1 := by linarith
    exact_mod_cast this.antisymm hstep
  have hreven : r % 2 = 0 := hr.even (by rw [abs_of_nonneg] <;> linarith)
  have hseven : s % 2 = 0 := hs.even (by rw [abs_of_nonpos] <;> linarith)
  omega

/-- A natural number at less than half a step is the nearest one. -/
theorem rounds_of_lt (hlow : r - 1 / 2 < q) (hhigh : q < r + 1 / 2) : Rounds q r := by
  have hlt : |q - r| < 1 / 2 := abs_lt.mpr ⟨by linarith, by linarith⟩
  unfold Rounds
  split
  · exact hlt.le
  · exact hlt

theorem rounds_of_even (hlow : r - 1 / 2 ≤ q) (hhigh : q ≤ r + 1 / 2) (heven : r % 2 = 0) :
    Rounds q r := by
  rw [Rounds, if_pos heven]
  exact abs_le.mpr ⟨by linarith, by linarith⟩

theorem rounds_roundDiv (a : Nat) {b : Nat} (hb : 0 < b) : Rounds (a / b) (roundDiv a b) := by
  have hpos : (0 : ℚ) < b := by exact_mod_cast hb
  have hdiv : (a : ℚ) / b = (a / b : Nat) + (a % b : Nat) / b := by
    rw [div_eq_iff hpos.ne', add_mul, div_mul_cancel₀ _ hpos.ne']
    exact_mod_cast (Nat.div_add_mod' a b).symm
  have hlt : ((a % b : Nat) : ℚ) / b < 1 :=
    (div_lt_one hpos).mpr (by exact_mod_cast Nat.mod_lt a hb)
  have hnonneg : (0 : ℚ) ≤ (a % b : Nat) / b := by positivity
  rw [hdiv, roundDiv]
  generalize a / b = q
  generalize hrest : a % b = t at *
  split
  · next h =>
    have hhalf : (t : ℚ) / b < 1 / 2 := by
      rw [div_lt_div_iff₀ hpos two_pos]
      exact_mod_cast (by omega : t * 2 < 1 * b)
    exact rounds_of_lt (by linarith) (by linarith)
  split
  · next h =>
    have hhalf : 1 / 2 < (t : ℚ) / b := by
      rw [div_lt_div_iff₀ two_pos hpos]
      exact_mod_cast (by omega : 1 * b < t * 2)
    exact rounds_of_lt (by push_cast; linarith) (by push_cast; linarith)
  · next hle hge =>
    have hhalf : (t : ℚ) / b = 1 / 2 := by
      rw [div_eq_div_iff hpos.ne' two_ne_zero]
      exact_mod_cast (by omega : t * 2 = 1 * b)
    -- the even one of the two neighbours
    rcases Nat.mod_two_eq_zero_or_one q with heven | hodd
    · rw [heven, Nat.add_zero]
      exact rounds_of_even (by linarith) (by linarith) heven
    · rw [hodd]
      exact rounds_of_even (by push_cast; linarith) (by push_cast; linarith) (by omega)

/-! ## Exponents -/

/-- Whether an exponent is the one that a number is rounded at: its significand has 53 bits, or the
    exponent is the least one. -/
structure Scales (q : ℚ) (exponent : Int) : Prop where
  least : leastExponent ≤ exponent
  lt : q < 2 * hiddenBit * 2 ^ exponent
  normal : hiddenBit * 2 ^ exponent ≤ q ∨ exponent = leastExponent

/-- A power whose exponent is an integer, as a quotient of powers whose exponents are natural. -/
theorem zpow_eq_div {b : ℚ} (hb : b ≠ 0) (k : Int) : b ^ k = b ^ k.toNat / b ^ (-k).toNat := by
  rw [← zpow_natCast, ← zpow_natCast, ← zpow_sub₀ hb]
  congr 1
  omega

theorem two_zpow_succ (e : Int) : (2 : ℚ) ^ (e + 1) = 2 * 2 ^ e := by
  rw [zpow_add_one₀ two_ne_zero, mul_comm]

/-- A greater exponent is at least one binary place greater. -/
theorem two_zpow_le_of_lt {e f : Int} (h : e < f) : (2 : ℚ) * 2 ^ e ≤ 2 ^ f := by
  rw [← two_zpow_succ]
  exact zpow_le_zpow_right₀ one_le_two h

theorem scaled_snd_pos (n : Nat) {d : Nat} (hd : 0 < d) (e : Int) : 0 < (scaled n d e).2 := by
  show 0 < d <<< e.toNat
  rw [Nat.shiftLeft_eq]
  exact Nat.mul_pos hd (Nat.two_pow_pos _)

/-- Shifting either part scales the quotient by a power of two. -/
theorem scaled_div (n d : Nat) (e : Int) :
    ((scaled n d e).1 / (scaled n d e).2 : ℚ) = n / d / 2 ^ e := by
  rw [scaled, Nat.shiftLeft_eq, Nat.shiftLeft_eq, zpow_eq_div two_ne_zero]
  push_cast
  rw [div_div_eq_mul_div, div_mul_eq_mul_div, div_div]

theorem natCast_lt_two_mul_log2 (n : Nat) : (n : ℚ) < 2 * 2 ^ n.log2 := by
  rw [← pow_succ']
  exact_mod_cast Nat.lt_log2_self

/-- The leading bits of a quotient, up to one place. -/
theorem log2_div_bounds {n d : Nat} (hn : 0 < n) (hd : 0 < d) :
    hiddenBit * 2 ^ ((n.log2 : Int) - d.log2 - 52) < 2 * (n / d : ℚ) ∧
      (n / d : ℚ) < 2 * hiddenBit * 2 ^ ((n.log2 : Int) - d.log2 - 52) := by
  have hdpos : (0 : ℚ) < d := by exact_mod_cast hd
  have hnpos : (0 : ℚ) < n := by exact_mod_cast hn
  have hnlow : (2 : ℚ) ^ n.log2 ≤ n := by exact_mod_cast Nat.log2_self_le hn.ne'
  have hdlow : (2 : ℚ) ^ d.log2 ≤ d := by exact_mod_cast Nat.log2_self_le hd.ne'
  have hscale : (hiddenBit : ℚ) * 2 ^ ((n.log2 : Int) - d.log2 - 52) =
      2 ^ n.log2 / 2 ^ d.log2 := by
    rw [zpow_sub₀ two_ne_zero, zpow_sub₀ two_ne_zero, zpow_natCast, zpow_natCast]
    simp only [hiddenBit]
    norm_num
    ring
  have hpow : (0 : ℚ) < 2 ^ d.log2 := by positivity
  constructor
  · rw [hscale, ← mul_div_assoc, div_lt_div_iff₀ hpow hdpos]
    calc (2 : ℚ) ^ n.log2 * d ≤ n * d := by gcongr
      _ < n * (2 * 2 ^ d.log2) := by gcongr; exact natCast_lt_two_mul_log2 d
      _ = 2 * n * 2 ^ d.log2 := by ring
  · rw [mul_assoc, hscale, ← mul_div_assoc, div_lt_div_iff₀ hdpos hpow]
    calc (n : ℚ) * 2 ^ d.log2 ≤ n * d := by gcongr
      _ < 2 * 2 ^ n.log2 * d := by gcongr; exact natCast_lt_two_mul_log2 n

theorem scales_exponentFor {n d : Nat} (hn : 0 < n) (hd : 0 < d) :
    Scales (n / d) (exponentFor n d) := by
  obtain ⟨hlow, hhigh⟩ := log2_div_bounds hn hd
  unfold exponentFor
  dsimp only
  generalize (n.log2 : Int) - d.log2 - 52 = e at *
  have hpos : (0 : ℚ) < 2 ^ e := by positivity
  -- whether the quotient has one place less than the difference of the logarithms says
  have hfits : (scaled n d e).1 / (scaled n d e).2 < hiddenBit ↔
      (n / d : ℚ) < hiddenBit * 2 ^ e := by
    have hsnd : (0 : ℚ) < (scaled n d e).2 := by exact_mod_cast scaled_snd_pos n hd e
    rw [Nat.div_lt_iff_lt_mul (scaled_snd_pos n hd e), ← div_lt_iff₀ hpos, ← scaled_div,
      div_lt_iff₀ hsnd]
    exact_mod_cast Iff.rfl
  -- the exponent at which there are 53 bits
  have hnormal : ∀ f : Int, hiddenBit * 2 ^ f ≤ (n / d : ℚ) → (n / d : ℚ) < 2 * hiddenBit * 2 ^ f →
      Scales (n / d) (max leastExponent f) := fun f hle hlt => by
    rcases le_total f leastExponent with hleast | hleast
    · rw [max_eq_left hleast]
      refine ⟨le_rfl, hlt.trans_le ?_, Or.inr rfl⟩
      gcongr
      exact one_le_two
    · rw [max_eq_right hleast]
      exact ⟨hleast, hlt, Or.inl hle⟩
  split
  · next h =>
    have hlt := hfits.mp h
    have hstep : (2 : ℚ) ^ e = 2 * 2 ^ (e - 1) := by rw [← two_zpow_succ, Int.sub_add_cancel]
    rw [hstep] at hlow hlt
    exact hnormal _ (by linarith) (by linarith)
  · next h => exact hnormal _ (not_lt.mp (mt hfits.mpr h)) hhigh

/-! ## Doubles -/

/-- The exponent of the largest double. -/
def greatestExponent : Int := 971

/-- A significand and an exponent that a positive double is read as. -/
structure Canonical (significand : Nat) (exponent : Int) : Prop where
  pos : 0 < significand
  lt : significand < 2 * hiddenBit
  least : leastExponent ≤ exponent
  greatest : exponent ≤ greatestExponent
  normal : hiddenBit ≤ significand ∨ exponent = leastExponent

/-- The bits of the double that is read as a significand and an exponent, without its sign. -/
def bitsOf (significand : Nat) (exponent : Int) : Nat :=
  (exponent - leastExponent).toNat * hiddenBit + significand

variable {m : Nat} {e : Int}

theorem Canonical.exponent_bounds (h : Canonical m e) : -1074 ≤ e ∧ e ≤ 971 :=
  ⟨h.least, h.greatest⟩

theorem Canonical.log2_le (h : Canonical m e) : m.log2 ≤ 52 :=
  Nat.le_of_lt_succ ((Nat.log2_lt h.pos.ne').mpr h.lt)

theorem Canonical.bitsOf_lt (h : Canonical m e) : bitsOf m e < infinityBits := by
  have hlt := h.lt
  have hgreatest := h.greatest
  simp only [bitsOf, infinityBits, lastField, hiddenBit, leastExponent, greatestExponent] at *
  omega

/-- Whether a significand that was rounded is that of a double: it is the double's own one, or
    rounding reached the next power of two. -/
def Reaches (r : Nat) (f : Int) (m : Nat) (e : Int) : Prop :=
  f = e ∧ r = m ∨ f + 1 = e ∧ r = 2 * hiddenBit ∧ m = hiddenBit

theorem Canonical.bitsOf_eq_iff (h : Canonical m e) {f : Int} (hleast : leastExponent ≤ f)
    (hle : r ≤ 2 * hiddenBit) (hnormal : hiddenBit ≤ r ∨ f = leastExponent) :
    bitsOf r f = bitsOf m e ↔ Reaches r f m e := by
  obtain ⟨hpos, hlt, hleast', -, hnormal'⟩ := h
  simp only [Reaches, bitsOf, hiddenBit, leastExponent] at *
  omega

/-- The bits of what a number is rounded to. -/
theorem Scales.bitsOf_eq_iff {f : Int} (hscales : Scales q f) (hrounds : Rounds (q / 2 ^ f) r)
    (h : Canonical m e) : bitsOf r f = bitsOf m e ↔ Reaches r f m e := by
  have hpos : (0 : ℚ) < 2 ^ f := by positivity
  obtain ⟨hlow, hhigh⟩ := hrounds.le
  refine h.bitsOf_eq_iff hscales.least ?_ (hscales.normal.imp_left fun hle => ?_)
  · have hlt : q / 2 ^ f < 2 * hiddenBit := (div_lt_iff₀ hpos).mpr hscales.lt
    have : (r : ℚ) < (2 * hiddenBit : Nat) + 1 := by
      push_cast
      linarith
    exact Nat.le_of_lt_succ (by exact_mod_cast this)
  · have hge : (hiddenBit : ℚ) ≤ q / 2 ^ f := (le_div_iff₀ hpos).mpr hle
    have : (hiddenBit : ℚ) < r + 1 := by linarith
    exact Nat.le_of_lt_succ (by exact_mod_cast this)

/-- Above a power of two, the interval reaches down a quarter only. -/
theorem covers_around_hiddenBit (hleast : leastExponent < e) :
    (Interval.around hiddenBit e).Covers q ↔
      4 * (hiddenBit : ℚ) - 1 ≤ q ∧ q ≤ 4 * hiddenBit + 2 := by
  simp only [Interval.Covers, Interval.around, hleast, hiddenBit]
  norm_num

/-- Elsewhere, the interval reaches half a place down and up. -/
theorem Canonical.covers_around_iff (h : Canonical m e)
    (hne : ¬(m = hiddenBit ∧ leastExponent < e)) :
    (Interval.around m e).Covers q ↔ Rounds (q / 4) m := by
  have hpos := h.pos
  have hlow : ((4 * m - 2 : Nat) : ℚ) = 4 * m - 2 := by
    rw [Nat.cast_sub (by omega)]
    push_cast
    rfl
  simp only [Interval.Covers, Interval.around, hne, ↓reduceIte, decide_eq_true_eq, hlow, Rounds,
    abs_le, abs_lt]
  push_cast
  split <;> constructor <;> rintro ⟨h₁, h₂⟩ <;> constructor <;> linarith

theorem div_two_zpow_succ (q : ℚ) (e : Int) : q / 2 ^ (e + 1) = q / 2 ^ e / 2 := by
  rw [zpow_add_one₀ two_ne_zero, div_mul_eq_div_div]

/-- A quarter of a place is two binary places less. -/
theorem div_quarter (q : ℚ) (e : Int) : q / 2 ^ (e - 2) = 4 * (q / 2 ^ e) := by
  have hsucc : e = e - 2 + 1 + 1 := by omega
  have hdiv : q / 2 ^ e = q / 2 ^ (e - 2) / 2 / 2 := by
    rw [← div_two_zpow_succ, ← div_two_zpow_succ, ← hsucc]
  rw [hdiv]
  ring

/-- What is rounded to a double lies in the interval around it. -/
theorem Scales.covers {f : Int} (hscales : Scales q f) (hrounds : Rounds (q / 2 ^ f) r)
    (h : Canonical m e) (hreaches : Reaches r f m e) :
    (Interval.around m e).Covers (q / 2 ^ (e - 2)) := by
  have hpos : (0 : ℚ) < 2 ^ f := by positivity
  obtain ⟨hlow, hhigh⟩ := hrounds.le
  rw [div_quarter]
  obtain ⟨rfl, rfl⟩ | ⟨rfl, rfl, rfl⟩ := hreaches
  · by_cases hnarrow : r = hiddenBit ∧ leastExponent < f
    · obtain ⟨rfl, hleast⟩ := hnarrow
      have hge : (hiddenBit : ℚ) ≤ q / 2 ^ f :=
        (le_div_iff₀ hpos).mpr (hscales.normal.resolve_right hleast.ne')
      rw [covers_around_hiddenBit hleast]
      constructor <;> linarith
    · rw [h.covers_around_iff hnarrow, mul_div_cancel_left₀ _ four_ne_zero]
      exact hrounds
  · have hlt : q / 2 ^ f < 2 * hiddenBit := (div_lt_iff₀ hpos).mpr hscales.lt
    rw [covers_around_hiddenBit (Int.lt_add_one_of_le hscales.least), div_two_zpow_succ]
    push_cast at hlow
    constructor <;> linarith

/-- The interval around a double ends half a place above it, and at most half a place below it. -/
theorem Canonical.le_of_covers (h : Canonical m e) (hcovers : (Interval.around m e).Covers q) :
    4 * m - 2 ≤ q ∧ q ≤ 4 * m + 2 := by
  by_cases hnarrow : m = hiddenBit ∧ leastExponent < e
  · obtain ⟨rfl, hleast⟩ := hnarrow
    obtain ⟨hlow, hhigh⟩ := (covers_around_hiddenBit hleast).mp hcovers
    constructor <;> linarith
  · obtain ⟨hlow, hhigh⟩ := ((h.covers_around_iff hnarrow).mp hcovers).le
    constructor <;> linarith

/-- A number with fewer than 53 bits at the exponent of a normal double rounds to the double only
    if this is a power of two, and the number is next to it below. -/
theorem Canonical.eq_hiddenBit_of_covers (h : Canonical m e) (hleast : leastExponent < e)
    (hcovers : (Interval.around m e).Covers (4 * q)) (hlt : q < hiddenBit) :
    m = hiddenBit ∧ hiddenBit - 1 / 4 ≤ q := by
  have hge : hiddenBit ≤ m := h.normal.resolve_right hleast.ne'
  obtain ⟨hlow, -⟩ := h.le_of_covers hcovers
  have hle : m ≤ hiddenBit := by
    have : (m : ℚ) < hiddenBit + 1 := by linarith
    exact Nat.le_of_lt_succ (by exact_mod_cast this)
  obtain rfl : m = hiddenBit := hle.antisymm hge
  obtain ⟨hlow, -⟩ := (covers_around_hiddenBit hleast).mp hcovers
  exact ⟨rfl, by linarith⟩

/-- A number has fewer than 53 bits at an exponent greater than its own. -/
theorem Scales.div_lt {f : Int} (h : Scales q f) (hf : f < e) : q / 2 ^ e < hiddenBit := by
  have hpos : (0 : ℚ) < 2 ^ e := by positivity
  rw [div_lt_iff₀ hpos]
  calc q < 2 * hiddenBit * 2 ^ f := h.lt
    _ = hiddenBit * (2 * 2 ^ f) := by ring
    _ ≤ hiddenBit * 2 ^ e := by gcongr; exact two_zpow_le_of_lt hf

/-- A number has more than 53 bits at an exponent below its own. -/
theorem Scales.le_div {f : Int} (h : Scales q f) (hleast : leastExponent ≤ e) (hf : e < f) :
    2 * hiddenBit ≤ q / 2 ^ e := by
  have hpos : (0 : ℚ) < 2 ^ e := by positivity
  rw [le_div_iff₀ hpos]
  calc (2 * hiddenBit : ℚ) * 2 ^ e = hiddenBit * (2 * 2 ^ e) := by ring
    _ ≤ hiddenBit * 2 ^ f := by gcongr; exact two_zpow_le_of_lt hf
    _ ≤ q := h.normal.resolve_right (hleast.trans_lt hf).ne'

/-- What lies in the interval around a double is rounded to it. -/
theorem Scales.reaches {f : Int} (hscales : Scales q f) (hrounds : Rounds (q / 2 ^ f) r)
    (h : Canonical m e) (hcovers : (Interval.around m e).Covers (q / 2 ^ (e - 2))) :
    Reaches r f m e := by
  have hpos : (0 : ℚ) < 2 ^ e := by positivity
  rw [div_quarter] at hcovers
  obtain ⟨hlow, hhigh⟩ := h.le_of_covers hcovers
  have hm : (m : ℚ) + 1 ≤ 2 * hiddenBit := by exact_mod_cast h.lt
  rcases lt_trichotomy f e with hf | rfl | hf
  · -- one place more than at the exponent of the double
    have hlt := hscales.div_lt hf
    obtain ⟨rfl, hge⟩ := h.eq_hiddenBit_of_covers (hscales.least.trans_lt hf) hcovers hlt
    have hfe : f + 1 = e := by
      by_contra hne
      have hhalf : q / 2 ^ (e - 1) < hiddenBit := hscales.div_lt (by omega)
      have hstep := div_two_zpow_succ q (e - 1)
      have hone : (1 : ℚ) ≤ hiddenBit := by exact_mod_cast (by decide : 1 ≤ hiddenBit)
      rw [Int.sub_add_cancel] at hstep
      linarith
    subst hfe
    rw [div_two_zpow_succ] at hlt hge
    refine Or.inr ⟨rfl, hrounds.eq (rounds_of_even ?_ ?_ (Nat.mul_mod_right 2 hiddenBit)), rfl⟩ <;>
      push_cast <;> linarith
  · refine Or.inl ⟨rfl, hrounds.eq ?_⟩
    by_cases hnarrow : m = hiddenBit ∧ leastExponent < f
    · obtain ⟨rfl, hleast⟩ := hnarrow
      exact rounds_of_even (by linarith) (by linarith) (by decide)
    · rw [h.covers_around_iff hnarrow, mul_div_cancel_left₀ _ four_ne_zero] at hcovers
      exact hcovers
  · have hge := hscales.le_div h.least hf
    linarith

/-- A quotient rounds to a positive double exactly if the interval around the double covers it. -/
theorem Canonical.magnitudeBits_eq_iff (h : Canonical m e) (n : Nat) {d : Nat} (hd : 0 < d) :
    magnitudeBits n d = bitsOf m e ↔ (Interval.around m e).Covers (n / d / 2 ^ (e - 2)) := by
  rcases Nat.eq_zero_or_pos n with rfl | hn
  · -- zero is not in the interval
    have hpos : (1 : ℚ) ≤ m := by exact_mod_cast h.pos
    refine iff_of_false (fun hzero => ?_) fun hcovers => ?_
    · have := h.pos
      simp only [magnitudeBits, ↓reduceIte, bitsOf] at hzero
      omega
    · rw [Nat.cast_zero, zero_div, zero_div] at hcovers
      linarith [(h.le_of_covers hcovers).1]
  · have hscales := scales_exponentFor hn hd
    have hrounds := rounds_roundDiv (scaled n d (exponentFor n d)).1
      (scaled_snd_pos n hd (exponentFor n d))
    rw [scaled_div] at hrounds
    have hbits : magnitudeBits n d = min infinityBits
        (bitsOf (roundDiv (scaled n d (exponentFor n d)).1 (scaled n d (exponentFor n d)).2)
          (exponentFor n d)) := by
      rw [magnitudeBits, if_neg hn.ne']
      rfl
    have hmin (b : Nat) : min infinityBits b = bitsOf m e ↔ b = bitsOf m e := by
      have := h.bitsOf_lt
      omega
    rw [hbits, hmin, hscales.bitsOf_eq_iff hrounds h]
    exact ⟨hscales.covers hrounds h, hscales.reaches hrounds h⟩

/-- The bits of a double are its sign, its exponent and its fraction. -/
theorem eq_sign_add_fields {bits : Nat} (h : bits < 2 * signBit) :
    bits = (if decide (bits / signBit % 2 = 1) then signBit else 0) +
      (bits / hiddenBit % (lastField + 1) * hiddenBit + bits % hiddenBit) := by
  rcases Nat.mod_two_eq_zero_or_one (bits / signBit) with hbit | hbit <;>
    simp only [hbit, signBit, hiddenBit, lastField, decide_true, decide_false, zero_ne_one,
      ↓reduceIte, Bool.false_eq_true] at * <;>
    omega

/-- The bits of a finite double are those of the parts that it is read as. -/
theorem eq_of_ofBits_eq_finite {bits : Nat} (hbits : bits < 2 * signBit) {negative : Bool}
    (h : ofBits bits = .finite negative m e) :
    bits = (if negative then signBit else 0) + bitsOf m e ∧
      (m = 0 ∧ e = leastExponent ∨ Canonical m e) := by
  have hsplit := eq_sign_add_fields hbits
  have hfraction : bits % hiddenBit < hiddenBit := Nat.mod_lt _ (by decide)
  have hlast : bits / hiddenBit % (lastField + 1) < lastField + 1 := Nat.mod_lt _ (Nat.succ_pos _)
  unfold ofBits at h
  dsimp only at h
  generalize bits % hiddenBit = fraction at *
  generalize bits / hiddenBit % (lastField + 1) = field at *
  split at h
  · split at h <;> cases h
  split at h
  · next hzero =>
    cases h
    have hfield : (leastExponent - leastExponent).toNat = field := by simp [hzero]
    refine ⟨by rw [bitsOf, hfield]; exact hsplit, ?_⟩
    rcases Nat.eq_zero_or_pos m with hm | hpos
    · exact Or.inl ⟨hm, rfl⟩
    · exact Or.inr ⟨hpos, by omega, le_rfl, by decide, Or.inr rfl⟩
  · next hne hzero =>
    cases h
    have hfield : (leastExponent + (field - 1 : Nat) - leastExponent).toNat = field - 1 := by omega
    have hpos : 0 < hiddenBit := by decide
    refine ⟨?_, Or.inr ⟨by omega, by omega, by omega, ?_, Or.inl (Nat.le_add_right _ _)⟩⟩
    · -- the hidden bit counts as a step of the exponent field
      rw [bitsOf, hfield, ← Nat.add_assoc (_ * _), ← Nat.succ_mul, Nat.succ_eq_add_one,
        Nat.sub_add_cancel (Nat.pos_of_ne_zero hzero)]
      exact hsplit
    · simp only [leastExponent, greatestExponent, lastField] at *
      omega

/-- A finite double is put together from the parts that it is read as. -/
theorem eq_of_ofFloat_eq_finite {x : Float} {negative : Bool}
    (h : ofFloat x = .finite negative m e) :
    x = withSign negative (bitsOf m e) ∧ (m = 0 ∧ e = leastExponent ∨ Canonical m e) := by
  have hlt : x.toBits.toNat < 2 * signBit := x.toBits.toNat_lt
  obtain ⟨hbits, hcanonical⟩ := eq_of_ofBits_eq_finite hlt h
  refine ⟨?_, hcanonical⟩
  rw [withSign, ← hbits, UInt64.ofNat_toNat, Float.ofBits_toBits]

/-- An infinite double is put together from its sign and the bits of an infinite value. -/
theorem eq_of_ofFloat_eq_infinite {x : Float} {negative : Bool}
    (h : ofFloat x = .infinite negative) : x = withSign negative infinityBits := by
  have hlt : x.toBits.toNat < 2 * signBit := x.toBits.toNat_lt
  have hsplit := eq_sign_add_fields hlt
  unfold ofFloat ofBits at h
  dsimp only at h
  split at h
  · next hfield =>
    split at h
    · next hfraction =>
      cases h
      rw [hfield, hfraction, Nat.add_zero] at hsplit
      rw [withSign, infinityBits, ← hsplit, UInt64.ofNat_toNat, Float.ofBits_toBits]
    · cases h
  · split at h <;> cases h

/-- The bits of what is not a number. -/
def nanBits : Nat := 0x7FF8000000000000

/-- There is only one double that is not a number. -/
theorem eq_of_ofFloat_eq_nan {x : Float} (h : ofFloat x = .nan) : x = withSign false nanBits := by
  have hbits : x.toBits.toBitVec = Float.Model.UnpackedFloat.packedNaN .binary64 := by
    unfold ofFloat ofBits at h
    dsimp only at h
    split at h
    · next hfield =>
      split at h
      · cases h
      · next hfraction =>
        exact x.toModel.valid.eq_packedNaN ((unpackExponent_eq_last_iff _).mpr hfield)
          (mt (unpackMantissa_eq_zero_iff _).mp hfraction)
    · split at h <;> cases h
  have hnan : x.toBits = UInt64.ofNat nanBits := UInt64.toBitVec_inj.mp (hbits.trans (by decide))
  rw [withSign, if_neg Bool.false_ne_true, Nat.zero_add, ← hnan, Float.ofBits_toBits]

end Binary64

end Reckon
