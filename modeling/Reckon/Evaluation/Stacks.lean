import Reckon.Event
import Reckon.Fault

/-!
# The stacks of an evaluation

Operands wait on one stack until the operator between them may be applied, and operators wait on
another until a later one shows how far to the right they reach. `Stacks.reduce` applies operators
from the top as long as a condition holds.
-/

namespace Reckon

/-- The operands and operators that wait, the last ones first. -/
structure Stacks where
  operands : List Float := []
  operators : List Operator := []

namespace Stacks

/-- Puts an operand on its stack. -/
def pushOperand (pending : Stacks) (value : Float) : Logged Fault Stacks := do
  report (.operandPushed value)
  return { pending with operands := value :: pending.operands }

/-- Puts an operator on its stack. -/
def pushOperator (pending : Stacks) (op : Operator) : Logged Fault Stacks := do
  report (.operatorPushed op)
  return { pending with operators := op :: pending.operators }

/-- The operands after an operator has been applied to the two on top. A lack of operands would
show at a byte offset. -/
def applyTop (op : Operator) (offset : Nat) : List Float → Logged Fault (List Float)
  | right :: left :: operands => do
    let result := op.apply left right
    report (.applied left op right result)
    return result :: operands
  | _ => throw ⟨offset, .missingOperand⟩

/-- Applies operators from the top of the stack as long as a condition holds of them. -/
def reduceFrom (applies : Operator → Bool) (offset : Nat) (operands : List Float) :
    List Operator → Logged Fault Stacks
  | [] => return ⟨operands, []⟩
  | op :: operators => do
    if applies op then
      let operands ← applyTop op offset operands
      reduceFrom applies offset operands operators
    else return ⟨operands, op :: operators⟩

/-- Applies operators from the top of the stack as long as a condition holds of them. -/
def reduce (pending : Stacks) (applies : Operator → Bool) (offset : Nat) : Logged Fault Stacks :=
  reduceFrom applies offset pending.operands pending.operators

/-- Applies all operators; the value is the operand that is left. -/
def drain (pending : Stacks) (offset : Nat) : Logged Fault Float := do
  let pending ← pending.reduce (fun _ => true) offset
  match pending.operands with
  | value :: _ => return value
  | [] => throw ⟨offset, .missingOperand⟩

end Stacks

end Reckon
