import Reckon.Decimal.Shortest

/-!
# The text of a number

Every number in an answer, a message or a log is written by `Decimal.text`: the shortest digits
that read back, always in positional notation, without a point when the number is an integer.
-/

namespace Reckon.Decimal

/-- The decimal `digits * 10 ^ power`, written out in positional notation. -/
def positional (digits : Nat) (power : Int) : List Char :=
  let written := Nat.toDigits 10 digits
  let places := (-power).toNat
  if 0 ≤ power then written ++ List.replicate power.toNat '0'
  else if places < written.length then
    written.take (written.length - places) ++ '.' :: written.drop (written.length - places)
  else '0' :: '.' :: (List.replicate (places - written.length) '0' ++ written)

/-- The text of what a double denotes. Zero keeps its sign, and what is not a number has none. -/
def ofBinary64 : Binary64 → List Char
  | .nan => ['N', 'a', 'N']
  | .infinite negative => signed negative ['i', 'n', 'f']
  | .finite negative 0 _ => signed negative ['0']
  | .finite negative significand exponent =>
    let (digits, power) := shortest significand exponent
    signed negative (positional digits power)
where
  /-- The text with its sign. -/
  signed (negative : Bool) (text : List Char) : List Char :=
    if negative then '-' :: text else text

/-- The text of a double. -/
def text (x : Float) : String :=
  String.ofList (ofBinary64 (.ofFloat x))

end Reckon.Decimal
