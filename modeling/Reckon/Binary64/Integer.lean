import Reckon.Binary64

/-!
# Integers and doubles

Integers of the language are signed 64 bit words. An integer becomes a double only if its
magnitude is below `2 ^ 53`, so that nothing is lost, and a double becomes an integer by dropping
its fractional part.
-/

namespace Reckon

/-- The least signed 64 bit integer. -/
def leastInteger : Int := -0x8000000000000000

/-- The greatest signed 64 bit integer. -/
def greatestInteger : Int := 0x7FFFFFFFFFFFFFFF

/-- Whether an integer is a signed 64 bit word. -/
def fitsWord (i : Int) : Bool :=
  decide (leastInteger ≤ i) && decide (i ≤ greatestInteger)

namespace Binary64

/-- The integers from `-greatestExact` to `greatestExact` have doubles of their own. -/
def greatestExact : Nat := 0x1FFFFFFFFFFFFF

/-- The double equal to an integer, if its magnitude is at most `greatestExact`. -/
def ofInteger? (i : Int) : Option Float :=
  if i.natAbs ≤ greatestExact then some (nearest (decide (i < 0)) i.natAbs 1) else none

/-- The integer part of what a double denotes, rounded toward zero. -/
def integerPart? : Binary64 → Option Int
  | .nan => none
  | .infinite _ => none
  | .finite negative significand exponent =>
    let magnitude : Nat := (significand <<< exponent.toNat) >>> (-exponent).toNat
    some (if negative then -magnitude else magnitude)

/-- The integer part of a double, if there is one and it is a signed 64 bit word. -/
def truncate? (x : Float) : Option Int :=
  (ofFloat x).integerPart?.filter fitsWord

end Binary64

end Reckon
