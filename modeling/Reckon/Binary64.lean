/-!
# What a double denotes

The 64 bits of a `Float` are a sign, an eleven bit exponent field and a 52 bit fraction.
`Binary64.ofFloat` reads them as a number `significand * 2 ^ exponent`, and `Binary64.nearest` goes
the other way: it is the double nearest to a quotient of natural numbers.

Both directions are plain arithmetic on the bits, so what a literal, a truncated subscript or an
exact integer means can be calculated.
-/

namespace Reckon

/-- What the bits of a double stand for. -/
inductive Binary64 where
  /-- Not a number. -/
  | nan
  /-- An infinite value. -/
  | infinite (negative : Bool)
  /-- The number `significand * 2 ^ exponent`, negated if `negative` holds. -/
  | finite (negative : Bool) (significand : Nat) (exponent : Int)
deriving DecidableEq

namespace Binary64

/-- The exponent of the smallest positive double. -/
def leastExponent : Int := -1074

/-- The value of the leading bit of a significand, which is not stored. -/
def hiddenBit : Nat := 0x10000000000000

/-- The value of the sign bit among the 64 bits of a double. -/
def signBit : Nat := 0x8000000000000000

/-- The exponent field of the doubles that are not finite. -/
def lastField : Nat := 0x7FF

/-- Reads the bits of a double. A normal number has a hidden leading bit, and a subnormal one has
none. -/
def ofBits (bits : Nat) : Binary64 :=
  let negative := decide (bits / signBit % 2 = 1)
  let field := bits / hiddenBit % (lastField + 1)
  let fraction := bits % hiddenBit
  if field = lastField then
    if fraction = 0 then .infinite negative else .nan
  else if field = 0 then
    .finite negative fraction leastExponent
  else
    .finite negative (hiddenBit + fraction) (leastExponent + (field - 1 : Nat))

/-- What a double denotes. -/
def ofFloat (x : Float) : Binary64 :=
  ofBits x.toBits.toNat

/-! ## Rounding a quotient -/

/-- The quotient of `n` and `d`, rounded to a natural number; a half goes to the even neighbour. -/
def roundDiv (n d : Nat) : Nat :=
  let q := n / d
  let r := n % d
  if 2 * r < d then q
  else if d < 2 * r then q + 1
  else q + q % 2

/-- `n / d * 2 ^ (-e)` as a quotient of natural numbers. -/
def scaled (n d : Nat) (e : Int) : Nat × Nat :=
  (n <<< (-e).toNat, d <<< e.toNat)

/-- The exponent at which `n / d` has a significand of 53 bits, or the least exponent if it is too
small for that. -/
def exponentFor (n d : Nat) : Int :=
  let e : Int := n.log2 - d.log2 - 52
  let (a, b) := scaled n d e
  max leastExponent (if a / b < hiddenBit then e - 1 else e)

/-- The bits of an infinite value, without its sign. -/
def infinityBits : Nat := lastField * hiddenBit

/-- The bits of the double nearest to `n / d`, for a positive `d`. Adding the rounded significand,
hidden bit included, to the exponent field carries into that field exactly when rounding reaches
the next power of two. -/
def magnitudeBits (n d : Nat) : Nat :=
  if n = 0 then 0
  else
    let e := exponentFor n d
    let (a, b) := scaled n d e
    min infinityBits ((e - leastExponent).toNat * hiddenBit + roundDiv a b)

/-- The double with these bits besides the sign. -/
def withSign (negative : Bool) (magnitude : Nat) : Float :=
  Float.ofBits (UInt64.ofNat ((if negative then signBit else 0) + magnitude))

/-- The double nearest to `n / d`, for a positive `d`, negated if `negative` holds. A tie goes to
the even significand, and a quotient beyond the largest double to an infinite value. -/
def nearest (negative : Bool) (n d : Nat) : Float :=
  withSign negative (magnitudeBits n d)

end Binary64

end Reckon
