import Mathlib
import Reckon.Proofs.Denotation

/-!
# Doubles from their parts

A double is put together from a sign and the bits of a magnitude, and these bits are its own:
changing the sign changes one bit. An integer up to `greatestExact` is denoted by the double nearest
to it.

## Key results

- `Binary64.toBits_withSign_true`: the negation of a double has the same bits but for the sign
- `Binary64.number?_nearest`: an integer that is not too large is denoted by its double
-/

namespace Reckon.Binary64

/-! ## Signs -/

section

open Float.Model Float.Model.UnpackedFloat

/-- A double with given bits has these bits, unless they are those of no number. -/
theorem toBits_ofBits {b : UInt64} (h : b.toNat % signBit ≤ infinityBits) :
    (Float.ofBits b).toBits = b := by
  have hnan : @isNaNBits .binary64 b.toBitVec = false := by
    rw [Bool.eq_false_iff]
    intro hnan
    obtain ⟨hfield, hfraction⟩ : @unpackExponent .binary64 b.toBitVec = -1#_ ∧
        @unpackMantissa .binary64 b.toBitVec ≠ 0#_ := by simpa [isNaNBits] using hnan
    rw [unpackExponent_eq_last_iff] at hfield
    rw [ne_eq, unpackMantissa_eq_zero_iff] at hfraction
    simp only [infinityBits, signBit, lastField, hiddenBit] at h hfield hfraction
    omega
  have hbits : UInt64.ofBitVec (pack .binary64 (unpack .binary64 b.toBitVec)) = b := by
    rw [pack_unpack, hnan]
    rfl
  exact hbits

end

theorem magnitudeBits_le_infinityBits (n d : Nat) : magnitudeBits n d ≤ infinityBits := by
  unfold magnitudeBits
  split
  · exact Nat.zero_le _
  · exact Nat.min_le_left _ _

/-- The bits of a double are its magnitude and, if it is negative, the sign bit. -/
theorem toNat_toBits_withSign (negative : Bool) {magnitude : Nat}
    (h : magnitude ≤ infinityBits) :
    (withSign negative magnitude).toBits.toNat = (if negative then signBit else 0) + magnitude := by
  have hsmall : (if negative then signBit else 0) + magnitude < 2 ^ 64 := by
    simp only [signBit, infinityBits, lastField, hiddenBit] at *
    split <;> omega
  have hbits : (UInt64.ofNat ((if negative then signBit else 0) + magnitude)).toNat =
      (if negative then signBit else 0) + magnitude := UInt64.toNat_ofNat_of_lt hsmall
  rw [withSign, toBits_ofBits, hbits]
  rw [hbits]
  simp only [signBit, infinityBits, lastField, hiddenBit] at *
  split <;> omega

/-- Adding a power of two to a smaller number sets one bit. -/
theorem two_pow_xor {k m : Nat} (h : m < 2 ^ k) : 2 ^ k ^^^ m = 2 ^ k + m := by
  have hdiv : (2 ^ k ^^^ m) / 2 ^ k = 1 := by
    rw [Nat.xor_div_two_pow, Nat.div_self (Nat.two_pow_pos k), Nat.div_eq_of_lt h, Nat.xor_zero]
  have hmod : (2 ^ k ^^^ m) % 2 ^ k = m := by
    rw [Nat.xor_mod_two_pow, Nat.mod_self, Nat.mod_eq_of_lt h, Nat.zero_xor]
  rw [← Nat.div_add_mod (2 ^ k ^^^ m) (2 ^ k), hdiv, hmod, Nat.mul_one]

/-- The negation of a double has the same bits but for the sign. -/
theorem toBits_withSign_true {magnitude : Nat} (h : magnitude ≤ infinityBits) :
    (withSign true magnitude).toBits =
      (withSign false magnitude).toBits ^^^ 0x8000000000000000 := by
  have hlt : magnitude < 2 ^ 63 := by
    simp only [infinityBits, lastField, hiddenBit] at h
    omega
  have hxor : signBit + magnitude = signBit ^^^ magnitude := (two_pow_xor hlt).symm
  rw [← UInt64.toNat_inj, UInt64.toNat_xor, toNat_toBits_withSign _ h, toNat_toBits_withSign _ h]
  simp only [↓reduceIte, Nat.zero_add, hxor, Bool.false_eq_true]
  exact Nat.xor_comm _ _

/-- What a double denotes is read off its bits. -/
theorem ofFloat_withSign (negative : Bool) {magnitude : Nat} (h : magnitude ≤ infinityBits) :
    ofFloat (withSign negative magnitude) =
      ofBits ((if negative then signBit else 0) + magnitude) := by
  rw [ofFloat, toNat_toBits_withSign negative h]

/-! ## Integers -/

/-- The bits of a significand of 53 bits, with an exponent that is not the greatest. -/
theorem ofBits_normal (negative : Bool) {shift significand : Nat} (hshift : shift + 1 < lastField)
    (hle : hiddenBit ≤ significand) (hlt : significand < 2 * hiddenBit) :
    ofBits ((if negative then signBit else 0) + (shift * hiddenBit + significand)) =
      .finite negative significand (leastExponent + shift) := by
  have hfield : ((if negative then signBit else 0) + (shift * hiddenBit + significand)) /
      hiddenBit % (lastField + 1) = shift + 1 := by
    simp only [signBit, hiddenBit, lastField] at *
    cases negative <;> simp only [↓reduceIte, Bool.false_eq_true] <;> omega
  have hfraction : ((if negative then signBit else 0) + (shift * hiddenBit + significand)) %
      hiddenBit = significand - hiddenBit := by
    simp only [signBit, hiddenBit, lastField] at *
    cases negative <;> simp only [↓reduceIte, Bool.false_eq_true] <;> omega
  have hsign : ((if negative then signBit else 0) + (shift * hiddenBit + significand)) /
      signBit % 2 = if negative then 1 else 0 := by
    simp only [signBit, hiddenBit, lastField] at *
    cases negative <;> simp only [↓reduceIte, Bool.false_eq_true] <;> omega
  have hne : shift + 1 ≠ lastField := by omega
  simp only [ofBits, hfield, hfraction, hsign, hne, Nat.add_sub_cancel' hle, ↓reduceIte,
    Nat.add_sub_cancel]
  cases negative <;> simp

/-- The significand of a positive integer below `2 ^ 53`. -/
theorem shiftLeft_log2 {n : Nat} (hpos : 0 < n) (h : n ≤ greatestExact) :
    n.log2 ≤ 52 ∧ hiddenBit ≤ n <<< (52 - n.log2) ∧ n <<< (52 - n.log2) < 2 * hiddenBit := by
  have hlt : n < 2 ^ 53 := by
    simp only [greatestExact] at h
    omega
  have hlog : n.log2 ≤ 52 := Nat.le_of_lt_succ ((Nat.log2_lt hpos.ne').mpr hlt)
  rw [Nat.shiftLeft_eq]
  refine ⟨hlog, ?_, ?_⟩
  · calc hiddenBit = 2 ^ n.log2 * 2 ^ (52 - n.log2) := by
          rw [← Nat.pow_add, Nat.add_sub_cancel' hlog]; rfl
      _ ≤ n * 2 ^ (52 - n.log2) := Nat.mul_le_mul_right _ (Nat.log2_self_le hpos.ne')
  · calc n * 2 ^ (52 - n.log2) < 2 ^ (n.log2 + 1) * 2 ^ (52 - n.log2) :=
          Nat.mul_lt_mul_of_pos_right Nat.lt_log2_self (Nat.two_pow_pos _)
      _ = 2 * hiddenBit := by
          rw [← Nat.pow_add, Nat.add_right_comm, Nat.add_sub_cancel' hlog]; rfl

/-- The bits of a positive integer below `2 ^ 53`, whose significand is not rounded. -/
theorem magnitudeBits_integer {n : Nat} (hpos : 0 < n) (h : n ≤ greatestExact) :
    magnitudeBits n 1 = (1022 + n.log2) * hiddenBit + n <<< (52 - n.log2) := by
  obtain ⟨hlog, hle, hlt⟩ := shiftLeft_log2 hpos h
  have hone : (1 : Nat).log2 = 0 := by decide
  have hscaled : scaled n 1 (n.log2 - 52) = (n <<< (52 - n.log2), 1) := by
    have hneg : (-((n.log2 : Int) - 52)).toNat = 52 - n.log2 := by omega
    have hpos : ((n.log2 : Int) - 52).toNat = 0 := by omega
    rw [scaled, hneg, hpos, Nat.shiftLeft_zero]
  have hexponent : exponentFor n 1 = n.log2 - 52 := by
    simp only [exponentFor, hone, Int.natCast_zero, Int.sub_zero, hscaled, Nat.div_one,
      if_neg (Nat.not_lt.mpr hle), leastExponent]
    omega
  have hround : roundDiv (n <<< (52 - n.log2)) 1 = n <<< (52 - n.log2) := by
    simp [roundDiv, Nat.mod_one]
  have hshift : ((n.log2 : Int) - 52 - leastExponent).toNat = 1022 + n.log2 := by
    simp only [leastExponent]
    omega
  have hle : (1022 + n.log2) * hiddenBit + n <<< (52 - n.log2) ≤ infinityBits := by
    simp only [infinityBits, lastField, hiddenBit] at *
    omega
  rw [magnitudeBits, if_neg hpos.ne']
  simp only [hexponent, hshift, hscaled, hround, Nat.min_eq_right hle]

/-- An integer up to `greatestExact` is denoted by the double nearest to it. -/
theorem number?_nearest (negative : Bool) {n : Nat} (h : n ≤ greatestExact) :
    number? (nearest negative n 1) = some (if negative then -(n : ℚ) else n) := by
  rw [← toRat?_ofFloat, nearest, ofFloat_withSign _ (magnitudeBits_le_infinityBits n 1)]
  rcases Nat.eq_zero_or_pos n with rfl | hpos
  · cases negative <;> simp [magnitudeBits, ofBits, toRat?, signBit, hiddenBit, lastField]
  · obtain ⟨hlog, hle, hlt⟩ := shiftLeft_log2 hpos h
    have hshift : 1022 + n.log2 + 1 < lastField := by
      simp only [lastField]
      omega
    rw [magnitudeBits_integer hpos h, ofBits_normal negative hshift hle hlt]
    -- the shift of the significand and the exponent cancel out
    have hcancel : ((n <<< (52 - n.log2) : Nat) : ℚ) *
        2 ^ (leastExponent + (1022 + n.log2 : Nat)) = n := by
      have hexponent : leastExponent + (1022 + n.log2 : Nat) = -((52 - n.log2 : Nat) : Int) := by
        simp only [leastExponent]
        omega
      rw [hexponent, Nat.shiftLeft_eq, Nat.cast_mul, Nat.cast_pow, Nat.cast_ofNat, zpow_neg,
        zpow_natCast, mul_assoc, mul_inv_cancel₀ (by positivity), mul_one]
    rw [toRat?, hcancel]
    cases negative <;> simp

end Reckon.Binary64
