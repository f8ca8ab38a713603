import Reckon.Bracket.Pair
import Reckon.Evaluation.Stacks
import Reckon.Table

/-!
# The value of an expression

An expression is evaluated on its tokens, without a tree: operands and operators alternate, and an
operator is applied as soon as the next one binds no tighter. What is between two brackets is
evaluated in the same way as a span of the same row of tokens, one level further in.

`Evaluation.span` evaluates a span, given how to evaluate the spans inside its brackets, and
`Evaluation.evalSpan` ties the knot by the number of levels that are left.
-/

namespace Reckon

/-- The tokens of an expression, and the number of bytes of its text. What is missing after the
last token shows at the end of the text. -/
structure Formula where
  tokens : Array Placed
  length : Nat

/-- The formula of a text. -/
def Formula.ofText (text : String) : Formula :=
  ⟨Token.scan text, text.utf8ByteSize⟩

/-- How deep brackets may be nested. -/
def greatestDepth : Nat := 256

/-- What an evaluation goes by: a formula, the values of its names, and how deep its brackets may
be nested. -/
structure Evaluation extends Formula where
  table : Table
  limit : Nat := greatestDepth

/-- How to evaluate the tokens from one index to another, if brackets may be nested any deeper. -/
abbrev Evaluation.Inner := Option (Nat → Nat → Logged Fault Float)

/-- An operand that has been evaluated. -/
structure Operand where
  /-- Its value. -/
  value : Float
  /-- The number of tokens that it takes up after its first one. -/
  more : Nat

namespace Evaluation

variable (e : Evaluation)

/-- The byte offset of a token, or that of the end of the text after the last one. -/
def offsetAt (index : Nat) : Nat :=
  match e.tokens[index]? with
  | some placed => placed.offset
  | none => e.length

/-- The fault of a token that cannot stand where it does. -/
def misplaced (placed : Placed) : Fault :=
  match placed.token with
  | .bracket kind .closing => ⟨placed.offset, .unbalanced kind .closing⟩
  | token => ⟨placed.offset, .unexpectedToken token.text⟩

/-! ## Operands -/

/-- The value of what is between the bracket at an index and its partner, which has to come before
`stop`, and how many tokens after the bracket the partner is. -/
def group (inner : Inner) (kind : Bracket) (index stop : Nat) (h : stop ≤ e.tokens.size) :
    Logged Fault (Float × Nat) := do
  match inner with
  | none => throw ⟨e.offsetAt index, .nestingTooDeep e.limit⟩
  | some inner =>
    let (_, last) ← kind.pairWithin e.tokens index stop h
    let value ← inner (index + 1) (index + last)
    return (value, last)

/-- The value of a cell, given the value of its subscript. The name of the array is at a byte
offset. -/
def cell (name : String) (offset : Nat) (subscript : Float) : Logged Fault Float := do
  match Binary64.truncate? subscript with
  | none => throw ⟨offset, .invalidIndex name subscript⟩
  | some index =>
    let cells := e.table.cells name
    match index.toNat?.bind cells.get? with
    | none => throw ⟨offset, .indexOutOfRange name index cells.length?⟩
    | some value =>
      report (.cellRead name index value)
      return value

/-- Whether a token before `stop` opens a subscript. -/
def opensSubscript (index stop : Nat) (h : stop ≤ e.tokens.size) : Bool :=
  if h' : index < stop then e.tokens[index].token.side? .square = some .opening else false

/-- Evaluates the operand that starts at an index. -/
def operand (inner : Inner) (index stop : Nat) (h : stop ≤ e.tokens.size) (h' : index < stop) :
    Logged Fault Operand := do
  let placed := e.tokens[index]
  match placed.token with
  | .number value => return ⟨value, 0⟩
  | .name name =>
    if e.opensSubscript (index + 1) stop h then
      let (subscript, last) ← e.group inner .square (index + 1) stop h
      let value ← e.cell name placed.offset subscript
      return ⟨value, last + 1⟩
    else return ⟨e.table.scalarValue name, 0⟩
  | .bracket .round .opening =>
    let (value, last) ← e.group inner .round index stop h
    return ⟨value, last⟩
  | .operator _ => throw ⟨placed.offset, .missingOperand⟩
  | _ => throw (misplaced placed)

/-! ## Spans -/

/-- Evaluates the tokens from an index to `stop`, where an operand is expected and some operands
and operators wait. -/
def run (inner : Inner) (stop : Nat) (h : stop ≤ e.tokens.size) (index : Nat) (pending : Stacks) :
    Logged Fault Float := do
  if h' : index < stop then
    let operand ← e.operand inner index stop h h'
    let pending ← pending.pushOperand operand.value
    let next := index + 1 + operand.more
    if h'' : next < stop then
      let placed := e.tokens[next]
      match placed.token.operator? with
      | some op =>
        let pending ← pending.reduce (·.reducesBefore op) placed.offset
        let pending ← pending.pushOperator op
        run inner stop h (next + 1) pending
      | none => throw (misplaced placed)
    else pending.drain (e.offsetAt stop)
  else throw ⟨e.offsetAt stop, .missingOperand⟩
termination_by stop - index

/-- Evaluates the tokens from `start` to `stop`. -/
def span (inner : Inner) (start stop : Nat) : Logged Fault Float :=
  let stop := min stop e.tokens.size
  if start < stop then e.run inner stop (Nat.min_le_right ..) start {}
  else throw ⟨e.offsetAt start, .emptyExpression⟩

/-- Evaluates the tokens from `start` to `stop`, where brackets may be nested `room` deep. -/
def evalSpan : (room : Nat) → (start stop : Nat) → Logged Fault Float
  | 0 => e.span none
  | room + 1 => e.span (some (evalSpan room))

end Evaluation

/-- The value of a formula with the values of a table. -/
def Formula.eval (formula : Formula) (table : Table) : Logged Fault Float :=
  let e : Evaluation := { formula with table }
  e.evalSpan e.limit 0 formula.tokens.size

/-- The value of the tokens of a formula from `start` to `stop`. -/
def Formula.evalSpan (formula : Formula) (table : Table) (start stop : Nat) :
    Logged Fault Float :=
  let e : Evaluation := { formula with table }
  e.evalSpan e.limit start stop

end Reckon
