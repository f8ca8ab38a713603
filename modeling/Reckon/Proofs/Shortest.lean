import Mathlib
import Reckon.Proofs.Rounding

/-!
# The decimal that is written for a double

The search for the decimal of a double goes from coarse grids to fine ones. On one grid, it takes
the nearer neighbour of the double that lies in its interval. The grids above the one where the
search starts are too coarse, and the last one is finer than a quarter of a place, so that something
is found.

## Key results

- `Decimal.onGrid?_eq_none_iff`, `Decimal.closest_of_onGrid?`: what is found on one grid
- `Decimal.search_spec`: the search ends on the first grid on which something is found
- `Decimal.isShortest_shortest`: the decimal that is found reads back, no decimal on a coarser grid
  does, and none on its own grid is nearer
-/

namespace Reckon.Decimal

open Binary64

/-! ## Decimals in quarters -/

/-- A decimal, counted in quarters of the last place of a double. -/
def quarters (exponent : Int) (digits : Nat) (power : Int) : ℚ :=
  digits * 10 ^ power / 2 ^ (exponent - 2)

variable {i : Interval} {exponent power : Int} {digits digits' : Nat}

theorem quarters_le_iff : quarters exponent digits power ≤ quarters exponent digits' power ↔
    digits ≤ digits' := by
  have hten : (0 : ℚ) < 10 ^ power := by positivity
  have htwo : (0 : ℚ) < 2 ^ (exponent - 2) := by positivity
  rw [quarters, quarters, div_le_div_iff_of_pos_right htwo, mul_le_mul_iff_left₀ hten, Nat.cast_le]

/-- A decimal that is not zero is at least a grid step. -/
theorem step_le_quarters (hpos : 0 < digits) :
    10 ^ power / 2 ^ (exponent - 2) ≤ quarters exponent digits power := by
  have hone : (1 : ℚ) ≤ digits := by exact_mod_cast hpos
  unfold quarters
  gcongr
  exact le_mul_of_one_le_left (by positivity) hone

/-- A grid step in quarters, as it is calculated. -/
theorem unit_div_quarter (exponent power : Int) :
    ((Nat.pow 10 power.toNat <<< (2 - exponent).toNat : Nat) : ℚ) /
        (Nat.pow 10 (-power).toNat <<< (exponent - 2).toNat : Nat) =
      10 ^ power / 2 ^ (exponent - 2) := by
  rw [Nat.shiftLeft_eq, Nat.shiftLeft_eq, Nat.pow_eq, Nat.pow_eq,
    zpow_eq_div (by norm_num : (10 : ℚ) ≠ 0), zpow_eq_div two_ne_zero (exponent - 2),
    Int.neg_sub, div_div_div_eq]
  push_cast
  rfl

/-! ## One grid -/

/-- Whether a decimal on a grid is the nearest to a double among those in its interval, the upper
    one of two that are equally near. -/
def Closest (i : Interval) (exponent power : Int) (digits : Nat) : Prop :=
  ∀ digits', i.Covers (quarters exponent digits' power) →
    |quarters exponent digits power - i.mid| < |quarters exponent digits' power - i.mid| ∨
      |quarters exponent digits power - i.mid| = |quarters exponent digits' power - i.mid| ∧
        digits' ≤ digits

/-- The neighbours of a double on a grid, and which of them is taken. -/
theorem onGrid?_cases (i : Interval) (exponent power : Int) :
    ∃ below : Nat, quarters exponent below power ≤ i.mid ∧
      i.mid < quarters exponent (below + 1) power ∧
      match onGrid? i exponent power with
      | none => ¬i.Covers (quarters exponent below power) ∧
          ¬i.Covers (quarters exponent (below + 1) power)
      | some digits => i.Covers (quarters exponent digits power) ∧
          (digits = below ∧ (i.Covers (quarters exponent (below + 1) power) →
              i.mid - quarters exponent below power < quarters exponent (below + 1) power - i.mid) ∨
            digits = below + 1 ∧ (i.Covers (quarters exponent below power) →
              quarters exponent (below + 1) power - i.mid ≤
                i.mid - quarters exponent below power)) := by
  have hstep := unit_div_quarter exponent power
  have hquarter : 0 < Nat.pow 10 (-power).toNat <<< (exponent - 2).toNat := by
    rw [Nat.shiftLeft_eq]
    exact Nat.mul_pos (Nat.pow_pos (by decide)) (Nat.two_pow_pos _)
  have hunit : 0 < Nat.pow 10 power.toNat <<< (2 - exponent).toNat := by
    rw [Nat.shiftLeft_eq]
    exact Nat.mul_pos (Nat.pow_pos (by decide)) (Nat.two_pow_pos _)
  unfold onGrid?
  dsimp only
  generalize Nat.pow 10 (-power).toNat <<< (exponent - 2).toNat = quarter at *
  generalize Nat.pow 10 power.toNat <<< (2 - exponent).toNat = unit at *
  have hpos : (0 : ℚ) < quarter := by exact_mod_cast hquarter
  have hquarters (n : Nat) : quarters exponent n power = (n * unit : Nat) / quarter := by
    rw [quarters, mul_div_assoc, ← hstep]
    push_cast
    ring
  have hcovers (n : Nat) :
      i.contains quarter (n * unit) ↔ i.Covers (quarters exponent n power) := by
    rw [Interval.contains_iff hquarter, hquarters]
  have hbelow := Nat.div_mul_le_self (i.mid * quarter) unit
  have habove : i.mid * quarter < (i.mid * quarter / unit + 1) * unit := by
    rw [mul_comm _ unit]
    exact Nat.lt_mul_div_succ _ hunit
  generalize i.mid * quarter / unit = below at *
  -- the distances are compared in units of the grid
  have hnearer : i.mid * quarter - below * unit < (below + 1) * unit - i.mid * quarter ↔
      i.mid - quarters exponent below power < quarters exponent (below + 1) power - i.mid := by
    have hmid : (i.mid : ℚ) = (i.mid * quarter : Nat) / quarter := by
      rw [Nat.cast_mul, mul_div_cancel_right₀ _ hpos.ne']
    rw [hquarters, hquarters, hmid, ← sub_div, ← sub_div, div_lt_div_iff_of_pos_right hpos,
      ← Nat.cast_sub hbelow, ← Nat.cast_sub habove.le, Nat.cast_lt]
  refine ⟨below, ?_, ?_, ?_⟩
  · rw [hquarters, div_le_iff₀ hpos]
    exact_mod_cast hbelow
  · rw [hquarters, lt_div_iff₀ hpos]
    exact_mod_cast habove
  · have hb := hcovers below
    have ha := hcovers (below + 1)
    generalize i.contains quarter (below * unit) = containsBelow at hb ⊢
    generalize i.contains quarter ((below + 1) * unit) = containsAbove at ha ⊢
    cases containsBelow with
    | false =>
      have hnot : ¬i.Covers (quarters exponent below power) := mt hb.mpr Bool.false_ne_true
      cases containsAbove with
      | false => exact ⟨hnot, mt ha.mpr Bool.false_ne_true⟩
      | true => exact ⟨ha.mp rfl, Or.inr ⟨rfl, fun h => absurd h hnot⟩⟩
    | true =>
      cases containsAbove with
      | false =>
        exact ⟨hb.mp rfl, Or.inl ⟨rfl, fun h => absurd h (mt ha.mpr Bool.false_ne_true)⟩⟩
      | true =>
        by_cases hlt : i.mid * quarter - below * unit < (below + 1) * unit - i.mid * quarter
        · rw [if_pos (decide_eq_true hlt)]
          exact ⟨hb.mp rfl, Or.inl ⟨rfl, fun _ => hnearer.mp hlt⟩⟩
        · rw [if_neg (mt of_decide_eq_true hlt)]
          exact ⟨ha.mp rfl, Or.inr ⟨rfl, fun _ => not_lt.mp (mt hnearer.mpr hlt)⟩⟩

/-- Nothing is found on a grid exactly if no decimal on it lies in the interval. -/
theorem onGrid?_eq_none_iff (hmid : i.Covers i.mid) :
    onGrid? i exponent power = none ↔ ∀ digits, ¬i.Covers (quarters exponent digits power) := by
  obtain ⟨below, hle, hlt, hcases⟩ := onGrid?_cases i exponent power
  cases hgrid : onGrid? i exponent power with
  | some digits =>
    rw [hgrid] at hcases
    exact iff_of_false nofun fun h => h digits hcases.1
  | none =>
    rw [hgrid] at hcases
    refine iff_of_true rfl fun digits hcovers => ?_
    rcases Nat.lt_or_ge below digits with h | h
    · exact hcases.2 (hmid.between hcovers hlt.le (quarters_le_iff.mpr h))
    · exact hcases.1 (hcovers.between hmid (quarters_le_iff.mpr h) hle)

/-- What is found on a grid lies in the interval, and nothing else on the grid is nearer. -/
theorem closest_of_onGrid? (hmid : i.Covers i.mid) (h : onGrid? i exponent power = some digits) :
    i.Covers (quarters exponent digits power) ∧ Closest i exponent power digits := by
  obtain ⟨below, hle, hlt, hcases⟩ := onGrid?_cases i exponent power
  rw [h] at hcases
  obtain ⟨hcovers, hside⟩ := hcases
  refine ⟨hcovers, fun other hother => ?_⟩
  rcases Nat.lt_or_ge below other with hother' | hother'
  · -- above the double, the upper neighbour is at least as near
    have hmono : quarters exponent (below + 1) power ≤ quarters exponent other power :=
      quarters_le_iff.mpr hother'
    have habove := hmid.between hother hlt.le hmono
    rw [abs_of_pos (sub_pos.mpr (hlt.trans_le hmono))]
    obtain ⟨rfl, hnear⟩ | ⟨rfl, -⟩ := hside
    · left
      rw [abs_of_nonpos (sub_nonpos.mpr hle)]
      linarith [hnear habove]
    · rw [abs_of_pos (sub_pos.mpr hlt)]
      rcases hmono.lt_or_eq with hlt' | heq
      · exact Or.inl (by linarith)
      · exact Or.inr ⟨by rw [heq], quarters_le_iff.mp heq.ge⟩
  · -- below the double, the lower neighbour is at least as near
    have hmono : quarters exponent other power ≤ quarters exponent below power :=
      quarters_le_iff.mpr hother'
    have hbelow := hother.between hmid hmono hle
    rw [abs_of_nonpos (sub_nonpos.mpr (hmono.trans hle))]
    obtain ⟨rfl, -⟩ | ⟨rfl, hnear⟩ := hside
    · rw [abs_of_nonpos (sub_nonpos.mpr hle)]
      rcases hmono.lt_or_eq with hlt' | heq
      · exact Or.inl (by linarith)
      · exact Or.inr ⟨by rw [heq], hother'⟩
    · rw [abs_of_pos (sub_pos.mpr hlt)]
      rcases (by linarith [hnear hbelow] : quarters exponent (below + 1) power - i.mid ≤
        -(quarters exponent other power - i.mid)).lt_or_eq with hlt' | heq
      · exact Or.inl hlt'
      · exact Or.inr ⟨heq, hother'.trans (Nat.le_succ _)⟩

/-! ## Powers of ten and of two -/

/-- Powers are compared by comparing powers of them. -/
theorem zpow_le_zpow_of_pow {a b : ℚ} (ha : 0 < a) (hb : 0 < b) {k l : Nat} (hk : k ≠ 0) {x p : Int}
    (hpow : (a ^ l) ^ p ≤ (b ^ k) ^ p) (hexp : a ^ (k * x) ≤ a ^ (l * p)) : a ^ x ≤ b ^ p := by
  refine (pow_le_pow_iff_left₀ (zpow_nonneg ha.le x) (zpow_nonneg hb.le p) hk).mp ?_
  calc (a ^ x) ^ k = a ^ (k * x) := by rw [← zpow_natCast, ← zpow_mul, mul_comm]
    _ ≤ a ^ (l * p) := hexp
    _ = (a ^ l) ^ p := by rw [zpow_mul, zpow_natCast]
    _ ≤ (b ^ k) ^ p := hpow
    _ = (b ^ p) ^ k := by rw [← zpow_natCast, ← zpow_natCast, ← zpow_mul, ← zpow_mul, mul_comm]

/-- A power of ten is above a power of two if its exponent is, by rationals on both sides of the
    logarithm. -/
theorem two_zpow_le_ten_zpow {x p : Int} (hnonneg : 0 ≤ p → 28 * x ≤ 93 * p)
    (hnonpos : p ≤ 0 → 59 * x ≤ 196 * p) : (2 : ℚ) ^ x ≤ 10 ^ p := by
  rcases le_total 0 p with hp | hp
  · refine zpow_le_zpow_of_pow (k := 28) (l := 93) two_pos (by norm_num) (by decide) ?_ ?_
    · exact zpow_le_zpow_left₀ hp (by norm_num) (by norm_num)
    · exact zpow_le_zpow_right₀ one_le_two (hnonneg hp)
  · refine zpow_le_zpow_of_pow (k := 59) (l := 196) two_pos (by norm_num) (by decide) ?_ ?_
    · obtain ⟨n, rfl⟩ : ∃ n : Nat, p = -n := ⟨p.natAbs, by omega⟩
      rw [zpow_neg, zpow_neg, zpow_natCast, zpow_natCast]
      gcongr
      norm_num
    · exact zpow_le_zpow_right₀ one_le_two (hnonpos hp)

theorem ten_zpow_le_two_zpow {x p : Int} (hnonneg : 0 ≤ p → 196 * p ≤ 59 * x)
    (hnonpos : p ≤ 0 → 93 * p ≤ 28 * x) : (10 : ℚ) ^ p ≤ 2 ^ x := by
  have hle : (2 : ℚ) ^ (-x) ≤ 10 ^ (-p) := two_zpow_le_ten_zpow (by omega) (by omega)
  rwa [zpow_neg, zpow_neg, inv_le_inv₀ (by positivity) (by positivity)] at hle

/-- The search starts above the double. -/
theorem two_zpow_le_powerAbove {x : Int} (hleast : -1100 ≤ x) (hgreatest : x ≤ 1100) :
    (2 : ℚ) ^ x ≤ 10 ^ powerAbove x := by
  apply two_zpow_le_ten_zpow <;> unfold powerAbove <;> omega

/-- The search ends on a grid that is finer than a quarter of a place. -/
theorem powerAbove_le_two_zpow {x : Int} (hleast : -1100 ≤ exponent) (hgreatest : exponent ≤ 1100)
    (hx : x ≤ exponent + 53) : (10 : ℚ) ^ (powerAbove x - 20) ≤ 2 ^ (exponent - 2) := by
  apply ten_zpow_le_two_zpow <;> unfold powerAbove <;> omega

/-! ## The search -/

/-- The search ends on the first grid on which something is found. -/
theorem search_spec {grids : Nat} (h : (onGrid? i exponent (power - grids)).isSome) :
    onGrid? i exponent (search i exponent grids power).2 =
        some (search i exponent grids power).1 ∧
      ∀ p, (search i exponent grids power).2 < p → p ≤ power → onGrid? i exponent p = none := by
  induction grids generalizing power with
  | zero =>
    obtain ⟨digits, hdigits⟩ := Option.isSome_iff_exists.mp h
    rw [Int.natCast_zero, Int.sub_zero] at hdigits
    refine ⟨?_, fun p hlt hle => absurd hle (Int.not_le.mpr hlt)⟩
    show onGrid? i exponent power = some ((onGrid? i exponent power).getD 0)
    rw [hdigits]
    rfl
  | succ grids ih =>
    rw [search]
    split
    · next digits hdigits => exact ⟨hdigits, fun p hlt hle => absurd hle (Int.not_le.mpr hlt)⟩
    · next hnone =>
      have hpower : power - 1 - grids = power - (grids + 1 : Nat) := by omega
      rw [← hpower] at h
      obtain ⟨hfound, hcoarser⟩ := ih h
      refine ⟨hfound, fun p hlt hle => ?_⟩
      rcases Int.lt_or_eq_of_le hle with hlt' | rfl
      · exact hcoarser p hlt (by omega)
      · exact hnone

/-- Whether a decimal is the one to write for a double: it reads back, no decimal on a coarser grid
    does, and none on its own grid is nearer. -/
structure IsShortest (i : Interval) (exponent : Int) (digits : Nat) (power : Int) : Prop where
  covers : i.Covers (quarters exponent digits power)
  coarsest : ∀ digits' power', i.Covers (quarters exponent digits' power') → power' ≤ power
  closest : Closest i exponent power digits

/-- Only one decimal is the one to write. -/
theorem IsShortest.unique {power' : Int} (h : IsShortest i exponent digits power)
    (h' : IsShortest i exponent digits' power') : digits = digits' ∧ power = power' := by
  obtain rfl : power = power' :=
    Int.le_antisymm (h'.coarsest _ _ h.covers) (h.coarsest _ _ h'.covers)
  refine ⟨?_, rfl⟩
  rcases h.closest digits' h'.covers, h'.closest digits h.covers with
    ⟨hlt | ⟨heq, hle⟩, hlt' | ⟨heq', hle'⟩⟩
  · exact absurd hlt' hlt.not_gt
  · exact absurd heq' hlt.ne'
  · exact absurd heq hlt'.ne'
  · exact Nat.le_antisymm hle' hle

variable {m : Nat} {e : Int}

/-- The interval around a double reaches at least a quarter down, and two up. -/
theorem around_bounds (h : Canonical m e) :
    ((Interval.around m e).low : ℚ) ≤ (Interval.around m e).mid - 1 ∧
      ((Interval.around m e).mid : ℚ) + 2 = (Interval.around m e).high := by
  have hpos := h.pos
  have hlow : (Interval.around m e).low + 1 ≤ (Interval.around m e).mid := by
    unfold Interval.around
    dsimp only
    split <;> omega
  refine ⟨le_sub_iff_add_le.mpr (by exact_mod_cast hlow), ?_⟩
  simp [Interval.around]

/-- What is at less than a quarter from a double lies in its interval. -/
theorem covers_of_lt_mid (h : Canonical m e) {q : ℚ} (hlow : (Interval.around m e).mid - 1 < q)
    (hhigh : q ≤ (Interval.around m e).mid) : (Interval.around m e).Covers q := by
  obtain ⟨hle, heq⟩ := around_bounds h
  exact Interval.covers_of_lt (hle.trans_lt hlow) (by linarith)

theorem covers_mid (h : Canonical m e) : (Interval.around m e).Covers (Interval.around m e).mid :=
  covers_of_lt_mid h (sub_one_lt _) le_rfl

/-- The grids from the first one on are too coarse. -/
theorem not_covers_of_powerAbove_le (h : Canonical m e)
    (hpower : powerAbove (m.log2 + 1 + e) ≤ power) (digits : Nat) :
    ¬(Interval.around m e).Covers (quarters e digits power) := by
  intro hcovers
  obtain ⟨hlow, hhigh⟩ := h.le_of_covers hcovers
  have hlog := h.log2_le
  obtain ⟨hleast, hgreatest⟩ := h.exponent_bounds
  have hm : (1 : ℚ) ≤ m := by exact_mod_cast h.pos
  have hlt : (m : ℚ) + 1 ≤ 2 * 2 ^ m.log2 := by exact_mod_cast natCast_lt_two_mul_log2 m
  have hdigits : 0 < digits := by
    rcases Nat.eq_zero_or_pos digits with rfl | hpos
    · rw [quarters, Nat.cast_zero, zero_mul, zero_div] at hlow
      linarith
    · exact hpos
  have hge : 8 * 2 ^ m.log2 ≤ quarters e digits power := calc
    (8 : ℚ) * 2 ^ m.log2 = 2 ^ (m.log2 + 1 + e) / 2 ^ (e - 2) := by
      rw [← zpow_sub₀ two_ne_zero, show (m.log2 : Int) + 1 + e - (e - 2) = m.log2 + 3 by omega,
        zpow_add₀ two_ne_zero, zpow_natCast]
      norm_num
      ring
    _ ≤ 10 ^ powerAbove (m.log2 + 1 + e) / 2 ^ (e - 2) := by
      gcongr
      exact two_zpow_le_powerAbove (by omega) (by omega)
    _ ≤ 10 ^ power / 2 ^ (e - 2) := by
      gcongr
      norm_num
    _ ≤ quarters e digits power := step_le_quarters hdigits
  linarith

/-- Something is found on the last grid. -/
theorem isSome_onGrid? (h : Canonical m e) :
    (onGrid? (.around m e) e (powerAbove (m.log2 + 1 + e) - 20)).isSome := by
  have hlog := h.log2_le
  obtain ⟨hleast, hgreatest⟩ := h.exponent_bounds
  obtain ⟨below, hle, hlt, -⟩ :=
    onGrid?_cases (.around m e) e (powerAbove (m.log2 + 1 + e) - 20)
  have hstep : quarters e (below + 1) (powerAbove (m.log2 + 1 + e) - 20) ≤
      quarters e below (powerAbove (m.log2 + 1 + e) - 20) + 1 := by
    have hone : (10 : ℚ) ^ (powerAbove (m.log2 + 1 + e) - 20) / 2 ^ (e - 2) ≤ 1 :=
      (div_le_one (by positivity)).mpr (powerAbove_le_two_zpow (by omega) (by omega) (by omega))
    unfold quarters
    push_cast
    rw [add_mul, one_mul, add_div]
    gcongr
  rw [Option.isSome_iff_ne_none]
  intro hnone
  exact (onGrid?_eq_none_iff (covers_mid h)).mp hnone below
    (covers_of_lt_mid h (by linarith) hle)

theorem isShortest_shortest (h : Canonical m e) :
    IsShortest (.around m e) e (shortest m e).1 (shortest m e).2 := by
  obtain ⟨hfound, hcoarser⟩ := search_spec (isSome_onGrid? h)
  obtain ⟨hcovers, hclosest⟩ := closest_of_onGrid? (covers_mid h) hfound
  refine ⟨hcovers, fun digits' power' hcovers' => ?_, hclosest⟩
  by_contra hlt
  rcases Int.le_total power' (powerAbove (m.log2 + 1 + e)) with hle | hge
  · exact (onGrid?_eq_none_iff (covers_mid h)).mp (hcoarser _ (Int.not_le.mp hlt) hle) _ hcovers'
  · exact not_covers_of_powerAbove_le h hge _ hcovers'

end Reckon.Decimal
