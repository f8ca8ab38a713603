import Reckon.Binary64

/-!
# The shortest decimal of a double

A decimal reads back as a positive double if it lies in the interval of numbers that round to it.
`Decimal.shortest` looks for such a decimal on coarser grids first, so it has as few digits as any
decimal that reads back; on the grid it takes the nearer of the double's two neighbours, and the
upper one of two equally near.
-/

namespace Reckon.Decimal

/-- The numbers that round to the double `significand * 2 ^ exponent`, in quarters of its last
place: the double itself is `4 * significand` quarters. Both ends belong to the interval when
`closed` holds. -/
structure Interval where
  /-- The lower end. -/
  low : Nat
  /-- The double. -/
  mid : Nat
  /-- The upper end. -/
  high : Nat
  /-- Whether the ends round to the double, too. -/
  closed : Bool

/-- The interval of a positive double. The gap below a power of two is half the gap above it,
except at the least exponent. -/
def Interval.around (significand : Nat) (exponent : Int) : Interval :=
  let narrow := significand = Binary64.hiddenBit ∧ Binary64.leastExponent < exponent
  { low := 4 * significand - (if narrow then 1 else 2)
    mid := 4 * significand
    high := 4 * significand + 2
    closed := significand % 2 = 0 }

/-- Whether a candidate lies in the interval, once each quarter counts for `scale`. -/
def Interval.contains (i : Interval) (scale candidate : Nat) : Bool :=
  if i.closed then i.low * scale ≤ candidate && candidate ≤ i.high * scale
  else i.low * scale < candidate && candidate < i.high * scale

/-- The multiple of `10 ^ power` next to the double that reads back as it, if there is one. -/
def onGrid? (i : Interval) (exponent power : Int) : Option Nat :=
  -- a quarter is `quarter / unit` grid steps
  let quarter := Nat.pow 10 (-power).toNat <<< (exponent - 2).toNat
  let unit := Nat.pow 10 power.toNat <<< (2 - exponent).toNat
  let below := i.mid * quarter / unit
  let above := below + 1
  let nearerBelow := decide (i.mid * quarter - below * unit < above * unit - i.mid * quarter)
  match i.contains quarter (below * unit), i.contains quarter (above * unit) with
  | true, true => some (if nearerBelow then below else above)
  | true, false => some below
  | false, true => some above
  | false, false => none

/-- A power of ten above `2 ^ exponent`, by a rational just above the logarithm of two. -/
def powerAbove (exponent : Int) : Int :=
  (exponent * 30103) / 100000 + 2

/-- Tries `grids + 1` grids, the coarsest first. -/
def search (i : Interval) (exponent : Int) : (grids : Nat) → (power : Int) → Nat × Int
  | 0, power => ((onGrid? i exponent power).getD 0, power)
  | grids + 1, power =>
    match onGrid? i exponent power with
    | some digits => (digits, power)
    | none => search i exponent grids (power - 1)

/-- The digits and the power of ten of the shortest decimal that reads back as the positive double
`significand * 2 ^ exponent`. Seventeen digits always suffice, and the search starts at most three
grids too high. -/
def shortest (significand : Nat) (exponent : Int) : Nat × Int :=
  search (.around significand exponent) exponent 20 (powerAbove (significand.log2 + 1 + exponent))

end Reckon.Decimal
