import Reckon.Bracket
import Reckon.Decimal

/-!
# Faults of an expression

Everything that can be wrong with an expression, as a cause and the byte offset at which it shows.
-/

namespace Reckon

/-- What is wrong with an expression. -/
inductive Fault.Cause where
  /-- A bracket has no partner. -/
  | unbalanced (kind : Bracket) (side : Side)
  /-- A subscript is negative or not below the length of its array. The length is `none` for an
  array without cells. -/
  | indexOutOfRange (name : String) (index : Int) (length : Option Nat)
  /-- A subscript has no integer part, or none that is a signed 64 bit word. -/
  | invalidIndex (name : String) (value : Float)
  /-- There is nothing where an expression is expected. -/
  | emptyExpression
  /-- An operator lacks an operand on one of its sides. -/
  | missingOperand
  /-- A token stands where it is not allowed. -/
  | unexpectedToken (text : String)
  /-- Brackets are nested more than `limit` deep. -/
  | nestingTooDeep (limit : Nat)
  /-- A name is used both as a scalar and as an array. -/
  | kindConflict (name : String)

/-- A fault of an expression and where it shows. -/
structure Fault where
  /-- The byte offset in the text of the expression. -/
  offset : Nat
  /-- What is wrong there. -/
  cause : Fault.Cause

namespace Fault

/-- What is wrong, in words. -/
def Cause.message : Cause → String
  | unbalanced kind side => s!"Bracket '{kind.char side}' has no matching partner."
  | indexOutOfRange name index (some length) =>
    s!"Index {index} is out of range for array '{name}' of length {length}."
  | indexOutOfRange name index none => s!"Index {index} is out of range for array '{name}'."
  | invalidIndex name value =>
    s!"Subscript of '{name}' evaluated to {Decimal.text value}, which is not a valid index."
  | emptyExpression => "Expected an expression but found nothing."
  | missingOperand => "Operator is missing an operand."
  | unexpectedToken text => s!"Unexpected token: {text}."
  | nestingTooDeep limit => s!"Brackets are nested deeper than {limit} levels."
  | kindConflict name => s!"'{name}' is used both as a scalar and as an array."

/-- The message of a fault. -/
def message (fault : Fault) : String :=
  s!"Error at position {fault.offset}: {fault.cause.message}"

end Fault

end Reckon
