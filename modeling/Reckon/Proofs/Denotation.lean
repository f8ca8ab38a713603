import Mathlib.Algebra.Order.Field.Power
import Mathlib.Data.Rat.Floor
import Mathlib.Tactic.Linarith
import Mathlib.Tactic.NormNum
import Mathlib.Tactic.Positivity
import Reckon.Binary64.Integer

/-!
# The numbers that doubles denote

A finite double denotes a rational number, `Binary64.number?`, which is what the arithmetic of
doubles takes it for. Reading the bits of a double gives this number, and its integer part is the
integer part of this number.

## Key results

- `Binary64.toRat?_ofFloat`: what the bits of a double say is the number that it denotes
- `Binary64.number?_eq_of_beq`: doubles that compare equal denote the same number
- `Binary64.truncate?_eq_some_iff`: the integer part of a double, and when there is one
-/

namespace Reckon.Binary64

/-! ## Rational numbers -/

/-- The number that a double denotes, if it is finite. -/
def toRat? : Binary64 → Option ℚ
  | .finite negative significand exponent =>
    some ((if negative then -1 else 1) * (significand * 2 ^ exponent))
  | .nan | .infinite _ => none

/-- The integer part of a number, rounded toward zero. -/
def integerPart (q : ℚ) : ℤ :=
  if 0 ≤ q then ⌊q⌋ else ⌈q⌉

/-- Shifting a significand to the left and to the right drops the fractional part. -/
theorem natCast_shift (significand : Nat) (exponent : Int) :
    (((significand <<< exponent.toNat) >>> (-exponent).toNat : Nat) : ℤ) =
      ⌊(significand : ℚ) * 2 ^ exponent⌋ := by
  rw [Nat.shiftLeft_eq, Nat.shiftRight_eq_div_pow]
  cases exponent with
  | ofNat k =>
    have hneg : (-(k : Int)).toNat = 0 := by omega
    have hcast : (significand : ℚ) * 2 ^ (k : Int) = ((significand * 2 ^ k : Nat) : ℚ) := by
      push_cast
      rfl
    rw [Int.ofNat_eq_natCast, hcast, Int.floor_natCast, hneg, Int.toNat_natCast, Nat.pow_zero,
      Nat.div_one]
  | negSucc k =>
    have hpos : (-Int.negSucc k).toNat = k + 1 := rfl
    have hcast : (significand : ℚ) * 2 ^ Int.negSucc k =
        (significand : ℚ) / ((2 ^ (k + 1) : Nat) : ℚ) := by
      rw [zpow_negSucc, div_eq_mul_inv]
      push_cast
      rfl
    rw [hcast, Rat.floor_natCast_div_natCast, hpos, Int.toNat_negSucc, Nat.pow_zero, Nat.mul_one]
    rfl

/-- The integer part of a double is that of the number that it denotes. -/
theorem integerPart?_eq (b : Binary64) : b.integerPart? = b.toRat?.map integerPart := by
  cases b with
  | nan | infinite => rfl
  | finite negative significand exponent =>
    have hnonneg : (0 : ℚ) ≤ significand * 2 ^ exponent := by positivity
    simp only [integerPart?, toRat?, Option.map_some, Option.some.injEq, natCast_shift]
    cases negative with
    | false => simp [integerPart, hnonneg]
    | true =>
      -- rounding up the negated number is rounding down the number
      have hceil : ⌈-((significand : ℚ) * 2 ^ exponent)⌉ = -⌊(significand : ℚ) * 2 ^ exponent⌋ :=
        Int.ceil_neg
      simp only [↓reduceIte, neg_one_mul, integerPart]
      split
      · next h =>
        have hzero : (significand : ℚ) * 2 ^ exponent = 0 := by linarith
        simp [hzero]
      · exact hceil.symm

theorem fitsWord_iff {i : Int} : fitsWord i ↔ -2 ^ 63 ≤ i ∧ i ≤ 2 ^ 63 - 1 := by
  rw [fitsWord, Bool.and_eq_true, decide_eq_true_eq, decide_eq_true_eq, leastInteger,
    greatestInteger]
  norm_num

/-! ## Bits -/

section

open Float.Model Float.Model.UnpackedFloat

theorem toNat_unpackExponent (b : UInt64) :
    (@unpackExponent .binary64 b.toBitVec).toNat = b.toNat / hiddenBit % (lastField + 1) := by
  have hbits : @unpackExponent .binary64 b.toBitVec = b.toBitVec.extractLsb' 52 11 := rfl
  rw [hbits, BitVec.extractLsb'_toNat, Nat.shiftRight_eq_div_pow]
  rfl

theorem toNat_unpackMantissa (b : UInt64) :
    (@unpackMantissa .binary64 b.toBitVec).toNat = b.toNat % hiddenBit := by
  have hbits : @unpackMantissa .binary64 b.toBitVec = b.toBitVec.extractLsb' 0 52 := rfl
  rw [hbits, BitVec.extractLsb'_toNat, Nat.shiftRight_zero]
  rfl

theorem toNat_unpackSign (b : UInt64) :
    (@unpackSign .binary64 b.toBitVec).toNat = b.toNat / signBit % 2 := by
  have hbits : @unpackSign .binary64 b.toBitVec = b.toBitVec.extractLsb' 63 1 := rfl
  rw [hbits, BitVec.extractLsb'_toNat, Nat.shiftRight_eq_div_pow]
  rfl

theorem unpackExponent_eq_last_iff (b : UInt64) :
    @unpackExponent .binary64 b.toBitVec = -1#_ ↔
      b.toNat / hiddenBit % (lastField + 1) = lastField := by
  rw [← BitVec.toNat_inj, toNat_unpackExponent]
  rfl

theorem unpackExponent_eq_zero_iff (b : UInt64) :
    @unpackExponent .binary64 b.toBitVec = 0#_ ↔ b.toNat / hiddenBit % (lastField + 1) = 0 := by
  rw [← BitVec.toNat_inj, toNat_unpackExponent]
  rfl

theorem unpackMantissa_eq_zero_iff (b : UInt64) :
    @unpackMantissa .binary64 b.toBitVec = 0#_ ↔ b.toNat % hiddenBit = 0 := by
  rw [← BitVec.toNat_inj, toNat_unpackMantissa]
  rfl

/-- The significand of a normal number has a leading bit that is not stored. -/
theorem toNat_append_unpackMantissa (b : UInt64) :
    (1#1 ++ @unpackMantissa .binary64 b.toBitVec).toNat = hiddenBit + b.toNat % hiddenBit := by
  rw [BitVec.toNat_append, ← Nat.shiftLeft_add_eq_or_of_lt (BitVec.isLt _), toNat_unpackMantissa]
  rfl

/-- The number that a double denotes, if it is finite, as the arithmetic of doubles takes it. -/
def number? (x : Float) : Option ℚ :=
  match x.toModel.unpack with
  | .finite sign significand exponent _ => some (sign.apply significand * 2 ^ exponent)
  | .zero _ => some 0
  | .infinity _ | .notANumber => none

/-- The sign of a double is its first bit. -/
theorem apply_unpackSign (b : UInt64) (n : Nat) :
    (((Sign.ofBitVec (@unpackSign .binary64 b.toBitVec)).apply n : ℤ) : ℚ) =
      (if decide (b.toNat / signBit % 2 = 1) then -1 else 1) * n := by
  have hzero : @unpackSign .binary64 b.toBitVec = 0#1 ↔ b.toNat / signBit % 2 = 0 := by
    rw [← BitVec.toNat_inj, toNat_unpackSign]
    rfl
  unfold Sign.ofBitVec
  rcases Nat.mod_two_eq_zero_or_one (b.toNat / signBit) with hbit | hbit
  · simp [if_pos (hzero.mpr hbit), hbit, Sign.apply]
  · have hne : @unpackSign .binary64 b.toBitVec ≠ 0#1 := fun h => by
      have := hzero.mp h
      omega
    simp [if_neg hne, hbit, Sign.apply]

/-- Reading the bits of a double gives the number that its arithmetic takes it for. -/
theorem toRat?_ofFloat (x : Float) : (ofFloat x).toRat? = number? x := by
  have hunpack : x.toModel.unpack = UnpackedFloat.unpack .binary64 x.toBits.toBitVec := rfl
  have hlast := unpackExponent_eq_last_iff x.toBits
  have hleast := unpackExponent_eq_zero_iff x.toBits
  have hfraction := unpackMantissa_eq_zero_iff x.toBits
  unfold number? ofFloat ofBits
  rw [hunpack]
  unfold UnpackedFloat.unpack
  dsimp only
  -- the fields of the bits are taken apart in the same order on both sides
  by_cases hfield : x.toBits.toNat / hiddenBit % (lastField + 1) = lastField
  · rw [if_pos (hlast.mpr hfield), if_pos hfield]
    by_cases hzero : x.toBits.toNat % hiddenBit = 0
    · rw [if_pos (hfraction.mpr hzero), if_pos hzero]
      rfl
    · rw [if_neg (mt hfraction.mp hzero), if_neg hzero]
      rfl
  rw [if_neg (mt hlast.mp hfield), if_neg hfield]
  by_cases hsubnormal : x.toBits.toNat / hiddenBit % (lastField + 1) = 0
  · rw [if_pos (hleast.mpr hsubnormal), if_pos hsubnormal]
    by_cases hzero : x.toBits.toNat % hiddenBit = 0
    · rw [dif_pos (hfraction.mpr hzero)]
      simp [toRat?, hzero]
    · rw [dif_neg (mt hfraction.mp hzero)]
      dsimp only
      simp only [toRat?, toNat_unpackMantissa, toNat_unpackExponent, apply_unpackSign, mul_assoc,
        hsubnormal]
      rfl
  · rw [if_neg (mt hleast.mp hsubnormal), if_neg hsubnormal]
    have hexponent : leastExponent +
          ((x.toBits.toNat / hiddenBit % (lastField + 1) - 1 : Nat) : Int) =
        ((@unpackExponent .binary64 x.toBits.toBitVec).toNat : Int) - (1023 + 52) := by
      rw [toNat_unpackExponent, leastExponent]
      omega
    dsimp only
    simp only [toRat?, apply_unpackSign, mul_assoc, ← toNat_append_unpackMantissa, hexponent]
    rfl

/-- A double denotes no number exactly if it is not finite. -/
theorem number?_eq_none_iff {x : Float} : number? x = none ↔ x.isNaN ∨ x.isInf := by
  unfold number? Float.isNaN Float.isInf Float.Model.isNaN Float.Model.isInf
  cases x.toModel.unpack with
  | notANumber => exact iff_of_true rfl (Or.inl rfl)
  | infinity => exact iff_of_true rfl (Or.inr rfl)
  | zero | finite =>
    exact iff_of_false nofun fun h => h.elim Bool.false_ne_true Bool.false_ne_true

/-- Doubles that compare equal denote the same number, unless they are both infinite. -/
theorem number?_eq_of_beq {x y : Float} (h : x == y) : number? x = number? y := by
  have hcompare : x.toModel.unpack.compare y.toModel.unpack = some .eq := eq_of_beq h
  unfold number?
  unfold UnpackedFloat.compare at hcompare
  -- only two infinities, two zeros and two finite doubles with the same fields compare equal
  split at hcompare
  case h_3 hx hy => rw [hx, hy]
  case h_12 hx hy => rw [hx, hy]
  case h_13 hx hy | h_16 hx hy =>
    simp only [Option.some.injEq, Ordering.swap_eq_eq, Ordering.then_eq_eq,
      Std.LawfulEqCmp.compare_eq_iff_eq] at hcompare
    obtain ⟨rfl, rfl⟩ := hcompare
    rw [hx, hy]
  all_goals contradiction

/-- A double that denotes a number compares equal to itself. -/
theorem beq_self_of_number? {x : Float} {q : ℚ} (h : number? x = some q) : x == x := by
  have hcompare : x.toModel.unpack.compare x.toModel.unpack = some .eq := by
    unfold number? at h
    cases hx : x.toModel.unpack with
    | notANumber | infinity => simp [hx] at h
    | zero => rfl
    | finite sign =>
      unfold UnpackedFloat.compare
      cases sign <;> dsimp only <;> simp
  show (x.toModel.unpack.compare x.toModel.unpack == some .eq) = true
  rw [hcompare, beq_self_eq_true]

end

/-! ## Integer parts -/

/-- The integer part of a double is that of the number that it denotes, if this is a signed 64 bit
    word. -/
theorem truncate?_eq (x : Float) : truncate? x = ((number? x).map integerPart).filter fitsWord := by
  rw [truncate?, integerPart?_eq, toRat?_ofFloat]

/-- A double has an integer part exactly if it is finite and the integer part of the number that it
    denotes is a signed 64 bit word. -/
theorem truncate?_eq_some_iff {x : Float} {i : Int} :
    truncate? x = some i ↔
      ∃ q, number? x = some q ∧ integerPart q = i ∧ -2 ^ 63 ≤ i ∧ i ≤ 2 ^ 63 - 1 := by
  rw [truncate?_eq, Option.filter_eq_some_iff, fitsWord_iff, Option.map_eq_some_iff]
  constructor
  · rintro ⟨⟨q, hq, hi⟩, hrange⟩
    exact ⟨q, hq, hi, hrange⟩
  · rintro ⟨q, hq, hi, hrange⟩
    exact ⟨⟨q, hq, hi⟩, hrange⟩

/-- A double has no integer part exactly if it is not finite or the integer part of the number that
    it denotes is no signed 64 bit word. -/
theorem truncate?_eq_none_iff {x : Float} :
    truncate? x = none ↔ x.isNaN ∨ x.isInf ∨
      ∃ q, number? x = some q ∧ ¬(-2 ^ 63 ≤ integerPart q ∧ integerPart q ≤ 2 ^ 63 - 1) := by
  rw [← or_assoc, ← number?_eq_none_iff, truncate?_eq]
  cases number? x with
  | none => simp
  | some q =>
    have hfits : fitsWord (integerPart q) = false ↔
        ¬(-2 ^ 63 ≤ integerPart q ∧ integerPart q ≤ 2 ^ 63 - 1) := by
      rw [← fitsWord_iff, Bool.not_eq_true]
    simpa using hfits

end Reckon.Binary64
