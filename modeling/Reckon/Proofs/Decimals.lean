import Mathlib
import Reckon.Decimal
import Reckon.Proofs.Literals
import Reckon.Proofs.Shortest

/-!
# The texts of doubles

The text of a finite double is a numeral, after a sign if the double has one, and what is nearest to
this numeral is the double itself. So an expression that consists of the text has the double as its
value, and different doubles have different texts. Among the decimals that read back, the one that
is written has the fewest places and is the nearest one.

## Key results

- `Numeral.nearestDecimal_eq_iff`: a decimal reads back as a double exactly if the interval around
  the double covers it
- `Decimal.exists_numeral_text`, `Decimal.value_text`: the text of a double reads back
- `Decimal.text_shortest`: no decimal with fewer places reads back, and none that does is nearer
- `Decimal.text_injective`: different doubles have different texts
-/

namespace Reckon

open Binary64 Decimal

variable {m : Nat} {e : Int}

/-! ## Reading decimals -/

theorem Binary64.withSign_inj {negative : Bool} {a b : Nat} (ha : a ≤ infinityBits)
    (hb : b ≤ infinityBits) : withSign negative a = withSign negative b ↔ a = b := by
  refine ⟨fun h => ?_, fun h => by rw [h]⟩
  have hbits := congrArg (fun x : Float => x.toBits.toNat) h
  rw [toNat_toBits_withSign negative ha, toNat_toBits_withSign negative hb] at hbits
  exact Nat.add_left_cancel hbits

namespace Numeral

/-- A decimal that is too small to be calculated is below every positive double. -/
theorem quarters_lt_of_small (hleast : leastExponent ≤ e) {digits : Nat} {power : Int}
    (h : digits = 0 ∨ power + digits.log2 < -400) : quarters e digits power < 2 := by
  rcases Nat.eq_zero_or_pos digits with rfl | hpos
  · rw [quarters, Nat.cast_zero, zero_mul, zero_div]
    exact two_pos
  · replace h : power + digits.log2 < -400 := h.resolve_left hpos.ne'
    have hdigits : (digits : ℚ) < 2 * 10 ^ digits.log2 := calc
      (digits : ℚ) < 2 * 2 ^ digits.log2 := natCast_lt_two_mul_log2 digits
      _ ≤ 2 * 10 ^ digits.log2 := by
        gcongr
        norm_num
    have hsmall : (10 : ℚ) ^ (power + digits.log2) ≤ 2 ^ (e - 2) := by
      unfold leastExponent at hleast
      exact ten_zpow_le_two_zpow (by omega) (by omega)
    rw [quarters, div_lt_iff₀ (by positivity)]
    calc (digits : ℚ) * 10 ^ power < 2 * 10 ^ digits.log2 * 10 ^ power := by gcongr
      _ = 2 * 10 ^ (power + digits.log2) := by
        rw [zpow_add₀ (by norm_num), zpow_natCast]
        ring
      _ ≤ 2 * 2 ^ (e - 2) := by gcongr

/-- A decimal that is too large to be calculated is above every double. -/
theorem lt_quarters_of_large (hgreatest : e ≤ greatestExponent) {digits : Nat} {power : Int}
    (hpos : 0 < digits) (h : 400 < power) : 8 * hiddenBit ≤ quarters e digits power := by
  have hlarge : (2 : ℚ) ^ (e + 53) ≤ 10 ^ power := by
    unfold greatestExponent at hgreatest
    exact two_zpow_le_ten_zpow (by omega) (by omega)
  calc (8 * hiddenBit : ℚ) = 2 ^ (e + 53) / 2 ^ (e - 2) := by
        rw [← zpow_sub₀ two_ne_zero, show e + 53 - (e - 2) = 55 by omega, hiddenBit]
        norm_num
    _ ≤ 10 ^ power / 2 ^ (e - 2) := by gcongr
    _ ≤ quarters e digits power := step_le_quarters hpos

/-- A decimal reads back as a double exactly if the interval around the double covers it. -/
theorem nearestDecimal_eq_iff (h : Canonical m e) (negative : Bool) (digits : Nat) (power : Int) :
    nearestDecimal negative digits power = withSign negative (bitsOf m e) ↔
      (Interval.around m e).Covers (quarters e digits power) := by
  have hm : (1 : ℚ) ≤ m := by exact_mod_cast h.pos
  have hlt : (m : ℚ) + 1 ≤ 2 * hiddenBit := by exact_mod_cast h.lt
  unfold nearestDecimal
  split
  · next hsmall =>
    rw [withSign_inj (Nat.zero_le _) h.bitsOf_lt.le]
    refine iff_of_false ?_ fun hcovers => ?_
    · have := h.pos
      unfold bitsOf
      omega
    · linarith [(h.le_of_covers hcovers).1, quarters_lt_of_small h.least hsmall]
  split
  · next hsmall hlarge =>
    rw [withSign_inj le_rfl h.bitsOf_lt.le]
    refine iff_of_false h.bitsOf_lt.ne' fun hcovers => ?_
    linarith [(h.le_of_covers hcovers).2,
      lt_quarters_of_large h.greatest (Nat.pos_of_ne_zero fun h => hsmall (Or.inl h)) hlarge]
  · rw [nearest, withSign_inj (magnitudeBits_le_infinityBits _ _) h.bitsOf_lt.le, Nat.pow_eq,
      Nat.pow_eq, h.magnitudeBits_eq_iff _ (Nat.pow_pos (by decide)), quarters,
      zpow_eq_div (by norm_num : (10 : ℚ) ≠ 0), mul_div_assoc']
    push_cast
    rfl

/-! ## Writing decimals -/

theorem ofDigits_append_zeros (digits : List Char) (k : Nat) :
    ofDigits (digits ++ List.replicate k '0') = ofDigits digits * 10 ^ k := by
  have h := Nat.ofDigitChars_append (b := 10) (l := digits) (m := List.replicate k '0') 0
  rw [Nat.ofDigitChars_replicate_zero, mul_comm] at h
  exact h

theorem ofDigits_zeros_append (k : Nat) (digits : List Char) :
    ofDigits (List.replicate k '0' ++ digits) = ofDigits digits := by
  have h := Nat.ofDigitChars_append (b := 10) (l := List.replicate k '0') (m := digits) 0
  rw [Nat.ofDigitChars_replicate_zero, mul_zero] at h
  exact h

/-- The number that a numeral without a power of ten spells, in quarters of the last place of a
    double. -/
def inQuarters (exponent : Int) (n : Numeral) : ℚ :=
  quarters exponent (ofDigits (n.whole ++ n.fraction.getD [])) (-(n.fraction.getD []).length)

/-- A numeral without a power of ten reads as a double exactly if the interval around the double
    covers the number that it spells. -/
theorem Plain.value_eq_iff {n : Numeral} (hn : n.Plain) (h : Canonical m e) (negative : Bool) :
    n.value negative = withSign negative (bitsOf m e) ↔
      (Interval.around m e).Covers (n.inQuarters e) := by
  have hvalue : n.value negative = nearestDecimal negative
      (ofDigits (n.whole ++ n.fraction.getD [])) (-(n.fraction.getD []).length) := by
    rw [value, hn.scale, powerOf, zero_sub]
  rw [hvalue, nearestDecimal_eq_iff h, inQuarters]

end Numeral

namespace Decimal

/-- A decimal in positional notation is a numeral that spells it. -/
theorem exists_numeral_positional (digits : Nat) (power : Int) :
    ∃ n : Numeral, n.Plain ∧ n.text = positional digits power ∧
      ∀ exponent, n.inQuarters exponent = quarters exponent digits power := by
  have hdigit := (Numeral.plain_toDigits digits).whole
  have hzeros (k : Nat) : ∀ c ∈ List.replicate k '0', c.isDigit := fun c hc => by
    rw [List.eq_of_mem_replicate hc]
    decide
  have hvalue := Numeral.ofDigits_toDigits digits
  have hne : Nat.toDigits 10 digits ≠ [] := Nat.toDigits_ne_nil
  unfold positional
  dsimp only
  generalize Nat.toDigits 10 digits = written at *
  split
  · next hpower =>
    -- zeros are written after the digits
    obtain ⟨k, rfl⟩ := Int.eq_ofNat_of_zero_le hpower
    refine ⟨⟨written ++ List.replicate k '0', none, []⟩, ⟨?_, nofun, by simp [hne], rfl⟩, ?_, ?_⟩
    · exact fun c hc => (List.mem_append.mp hc).elim (hdigit c) (hzeros k c)
    · simp [Numeral.text]
    · intro exponent
      simp [Numeral.inQuarters, quarters, Numeral.ofDigits_append_zeros, hvalue]
  next hpower =>
  have hplaces : -((-power).toNat : Int) = power := by omega
  split
  · next hlt =>
    -- the point is among the digits
    refine ⟨⟨written.take (written.length - (-power).toNat),
      some (written.drop (written.length - (-power).toNat)), []⟩, ⟨?_, ?_, ?_, rfl⟩, ?_, ?_⟩
    · exact fun c hc => hdigit c (List.mem_of_mem_take hc)
    · exact fun c hc => hdigit c (List.mem_of_mem_drop hc)
    · rwa [Option.getD_some, List.take_append_drop]
    · simp [Numeral.text]
    · intro exponent
      have hlength : written.length - (written.length - (-power).toNat) = (-power).toNat := by
        omega
      rw [Numeral.inQuarters, Option.getD_some, List.take_append_drop, List.length_drop, hlength,
        hplaces, hvalue]
  · next hge =>
    -- zeros are written before the digits
    refine ⟨⟨['0'], some (List.replicate ((-power).toNat - written.length) '0' ++ written), []⟩,
      ⟨by simp, ?_, by simp, rfl⟩, ?_, ?_⟩
    · exact fun c hc => (List.mem_append.mp hc).elim (hzeros _ c) (hdigit c)
    · simp [Numeral.text]
    · intro exponent
      have hlength : (-power).toNat - written.length + written.length = (-power).toNat := by omega
      rw [Numeral.inQuarters, Option.getD_some, List.length_append, List.length_replicate, hlength,
        hplaces, List.singleton_append, ← List.cons_append, ← List.replicate_succ,
        Numeral.ofDigits_zeros_append, hvalue]

/-! ## Texts -/

variable {x : Float} {negative : Bool}

/-- Distances to a double, counted in quarters of its last place. -/
theorem abs_quarters_sub (digits : Nat) (power : Int) :
    |quarters e digits power - (Interval.around m e).mid| =
      |(digits * 10 ^ power - m * 2 ^ e : ℚ)| / 2 ^ (e - 2) := by
  have hmid : ((Interval.around m e).mid : ℚ) = m * 2 ^ e / 2 ^ (e - 2) := by
    rw [div_quarter, mul_div_cancel_right₀ _ (by positivity)]
    simp [Interval.around]
  rw [quarters, hmid, ← sub_div, abs_div, abs_of_pos (by positivity : (0 : ℚ) < 2 ^ (e - 2))]

/-- The text of a double other than zero is that of its shortest decimal. -/
theorem text_eq_shortest (h : ofFloat x = .finite negative m e) (hpos : 0 < m) :
    ∃ digits power,
      text x = String.ofList (ofBinary64.signed negative (positional digits power)) ∧
      IsShortest (.around m e) e digits power := by
  obtain ⟨rfl, ⟨hzero, -⟩ | hcanonical⟩ := eq_of_ofFloat_eq_finite h
  · exact absurd hzero hpos.ne'
  refine ⟨(shortest m e).1, (shortest m e).2, ?_, isShortest_shortest hcanonical⟩
  rw [text, h, ofBinary64]
  · exact hpos.ne'

/-- The decimal in the text of a double reads back, no decimal with fewer places does, and none
    with as many places is nearer; of two that are equally near it is the upper one. -/
theorem text_shortest (h : ofFloat x = .finite negative m e) (hpos : 0 < m) :
    ∃ digits power,
      text x = String.ofList (ofBinary64.signed negative (positional digits power)) ∧
      Numeral.nearestDecimal negative digits power = x ∧
      (∀ digits' power', Numeral.nearestDecimal negative digits' power' = x → power' ≤ power) ∧
      ∀ digits', Numeral.nearestDecimal negative digits' power = x →
        |(digits * 10 ^ power - m * 2 ^ e : ℚ)| < |(digits' * 10 ^ power - m * 2 ^ e : ℚ)| ∨
          |(digits * 10 ^ power - m * 2 ^ e : ℚ)| = |(digits' * 10 ^ power - m * 2 ^ e : ℚ)| ∧
            digits' ≤ digits := by
  obtain ⟨digits, power, htext, hcovers, hcoarsest, hclosest⟩ := text_eq_shortest h hpos
  obtain ⟨hx, ⟨hzero, -⟩ | hcanonical⟩ := eq_of_ofFloat_eq_finite h
  · exact absurd hzero hpos.ne'
  have hread (digits' : Nat) (power' : Int) :
      Numeral.nearestDecimal negative digits' power' = x ↔
        (Interval.around m e).Covers (quarters e digits' power') := by
    rw [hx, Numeral.nearestDecimal_eq_iff hcanonical]
  simp only [hread]
  refine ⟨digits, power, htext, hcovers, hcoarsest, fun digits' hcovers' => ?_⟩
  have hquarter : (0 : ℚ) < 2 ^ (e - 2) := by positivity
  have hnearest := hclosest digits' hcovers'
  rwa [abs_quarters_sub, abs_quarters_sub, div_lt_div_iff_of_pos_right hquarter,
    div_left_inj' hquarter.ne'] at hnearest

example : text (Numeral.nearestDecimal false 1 (-1)) = "0.1" := by decide +kernel

/-- The text of a finite double is a numeral that reads back, after a sign if there is one. -/
theorem exists_numeral_text (h : ofFloat x = .finite negative m e) :
    ∃ n : Numeral, n.Plain ∧ text x = String.ofList (ofBinary64.signed negative n.text) ∧
      n.value negative = x := by
  obtain ⟨hx, ⟨rfl, rfl⟩ | hcanonical⟩ := eq_of_ofFloat_eq_finite h
  · refine ⟨⟨['0'], none, []⟩, ⟨by simp, nofun, nofun, rfl⟩, ?_, ?_⟩
    · rw [text, h]
      rfl
    · rw [hx]
      rfl
  · obtain ⟨digits, power, htext, hshortest⟩ := text_eq_shortest h hcanonical.pos
    obtain ⟨n, hplain, hn, hspelled⟩ := exists_numeral_positional digits power
    refine ⟨n, hplain, by rw [htext, hn], ?_⟩
    rw [hx, hplain.value_eq_iff hcanonical, hspelled]
    exact hshortest.covers

/-- The text of a finite double without a sign is an expression that has the double as its value. -/
theorem value_text (h : ofFloat x = .finite false m e) : value (text x) none = .ok x := by
  obtain ⟨n, hplain, htext, hvalue⟩ := exists_numeral_text h
  rw [htext, ← hvalue]
  exact value_literal ⟨n, hplain⟩

/-! ## Different doubles -/

/-- The double that a text without a sign stands for. -/
def readUnsigned (negative : Bool) (text : List Char) : Float :=
  match Numeral.ofPlain? text with
  | some n => n.value negative
  | none =>
    if text = ['i', 'n', 'f'] then withSign negative infinityBits else withSign false nanBits

/-- The double that a text stands for. -/
def read (text : List Char) : Float :=
  match text with
  | '-' :: rest => readUnsigned true rest
  | rest => readUnsigned false rest

theorem read_signed {text : List Char} (h : '-' ∉ text) (negative : Bool) :
    read (ofBinary64.signed negative text) = readUnsigned negative text := by
  cases negative with
  | true => rfl
  | false =>
    have hne : ∀ rest, text ≠ '-' :: rest := fun rest heq => h (heq ▸ List.mem_cons_self)
    rw [ofBinary64.signed, if_neg Bool.false_ne_true, read]
    exact hne

/-- The text of a double stands for it. -/
theorem read_text (x : Float) : read (text x).toList = x := by
  cases h : ofFloat x with
  | nan =>
    rw [text, h, String.toList_ofList, eq_of_ofFloat_eq_nan h]
    rfl
  | infinite negative =>
    rw [text, h, String.toList_ofList, eq_of_ofFloat_eq_infinite h, ofBinary64,
      read_signed (by decide)]
    rfl
  | finite negative m e =>
    obtain ⟨n, hplain, htext, hvalue⟩ := exists_numeral_text h
    have hsign : '-' ∉ n.text := fun hmem =>
      (hplain.of_mem_text hmem).elim (absurd · (by decide)) (absurd · (by decide))
    rw [htext, String.toList_ofList, read_signed hsign, readUnsigned, hplain.ofPlain?_text]
    exact hvalue

/-- Different doubles have different texts. -/
theorem text_injective : Function.Injective text := fun x y h => by
  rw [← read_text x, h, read_text]

end Decimal

end Reckon
