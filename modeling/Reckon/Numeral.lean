import Reckon.Binary64.Integer

/-!
# Numerals

A numeral is the spelling of an unsigned number: digits, digits around a point, and after a number
with a point optionally a power of ten. `Numeral.first?` finds the longest one at the front of a
text, `Numeral.text` writes it back, and `Numeral.value` is the double nearest to it.
-/

namespace Reckon

/-- The spelling of an unsigned number. -/
structure Numeral where
  /-- The digits before the point. -/
  whole : List Char
  /-- The digits after the point, if there is one. -/
  fraction : Option (List Char)
  /-- The power of ten as it is written, from its letter on; empty if there is none. -/
  scale : List Char
deriving DecidableEq

namespace Numeral

/-- The characters of a numeral. -/
def text (n : Numeral) : List Char :=
  n.whole ++ (match n.fraction with | none => [] | some digits => '.' :: digits) ++ n.scale

/-- A numeral without a point spells an integer. -/
def isInteger (n : Numeral) : Bool :=
  n.fraction.isNone

/-! ## Reading -/

/-- The sign at the front of a power of ten, if it has one, and the rest. -/
def splitSign : List Char → List Char × List Char
  | '+' :: rest => (['+'], rest)
  | '-' :: rest => (['-'], rest)
  | rest => ([], rest)

/-- The power of ten at the front of a text, as it is written: a letter `e`, a sign or none, and at
least one digit. -/
def firstScale : List Char → List Char
  | c :: rest =>
    let (sign, rest) := splitSign rest
    let digits := rest.takeWhile Char.isDigit
    if (c = 'e' ∨ c = 'E') ∧ digits ≠ [] then c :: (sign ++ digits) else []
  | [] => []

/-- The longest numeral at the front of a text. -/
def first? (cs : List Char) : Option Numeral :=
  let whole := cs.takeWhile Char.isDigit
  match cs.dropWhile Char.isDigit with
  | '.' :: rest =>
    let fraction := rest.takeWhile Char.isDigit
    if whole = [] ∧ fraction = [] then none
    else some ⟨whole, some fraction, firstScale (rest.dropWhile Char.isDigit)⟩
  | _ => if whole = [] then none else some ⟨whole, none, []⟩

/-- The numeral that a whole text spells, if it spells one without a power of ten. -/
def ofPlain? (cs : List Char) : Option Numeral :=
  (first? cs).filter fun n => n.scale = [] && n.text = cs

/-! ## Value -/

/-- The number that a row of digits spells. -/
def ofDigits (digits : List Char) : Nat :=
  digits.foldl (fun n c => 10 * n + (c.toNat - '0'.toNat)) 0

/-- The power of ten that is written after the letter. -/
def powerOf : List Char → Int
  | [] => 0
  | _ :: rest =>
    let (sign, digits) := splitSign rest
    if sign = ['-'] then -ofDigits digits else ofDigits digits

/-- The double nearest to `digits * 10 ^ power`, negated if `negative` holds. Powers so large or so
small that only infinity or zero can be meant are not calculated. -/
def nearestDecimal (negative : Bool) (digits : Nat) (power : Int) : Float :=
  if digits = 0 ∨ power + digits.log2 < -400 then Binary64.withSign negative 0
  else if 400 < power then Binary64.withSign negative Binary64.infinityBits
  else Binary64.nearest negative (digits * Nat.pow 10 power.toNat) (Nat.pow 10 (-power).toNat)

/-- The double nearest to the number that a numeral spells, negated if `negative` holds. -/
def value (n : Numeral) (negative : Bool) : Float :=
  let fraction := n.fraction.getD []
  nearestDecimal negative (ofDigits (n.whole ++ fraction)) (powerOf n.scale - fraction.length)

/-- The natural number that an integer numeral spells. -/
def toNat (n : Numeral) : Nat :=
  ofDigits n.whole

end Numeral

end Reckon
