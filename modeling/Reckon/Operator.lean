/-!
# Operators

The four arithmetic operators, how tightly they bind, and what they compute. All of them associate
to the left.
-/

namespace Reckon

/-- An arithmetic operator. -/
inductive Operator where
  | add
  | sub
  | mul
  | div
deriving DecidableEq, Repr

namespace Operator

/-- The character that is written for an operator. -/
def symbol : Operator → Char
  | add => '+'
  | sub => '-'
  | mul => '*'
  | div => '/'

/-- How tightly an operator binds; the higher, the tighter. -/
def precedence : Operator → Nat
  | add | sub => 1
  | mul | div => 2

/-- Whether an operator is to be applied before a later one: it binds at least as tightly. -/
def reducesBefore (earlier later : Operator) : Bool :=
  later.precedence ≤ earlier.precedence

/-- The value of `left` and `right` under an operator, rounded to the nearest double. Division by
zero gives an infinite value or none, and is no error. -/
def apply (op : Operator) (left right : Float) : Float :=
  match op with
  | add => left + right
  | sub => left - right
  | mul => left * right
  | div => left / right

end Operator

end Reckon
