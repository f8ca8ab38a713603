import Reckon.Operator
import Reckon.Table
import Reckon.Values.Error

/-!
# The log

What discovery, loading and evaluation report as they go. A computation that reports extends the
log that it is given; `Logged` may fail besides, and what was reported before a failure stays.
-/

namespace Reckon

/-- How much a report matters. -/
inductive Level where
  | trace
  | debug
  | warn
deriving DecidableEq, Repr

/-- The name of a level in a log. -/
def Level.text : Level → String
  | trace => "TRACE"
  | debug => "DEBUG"
  | warn => "WARN"

/-- Something that is reported. -/
inductive Event where
  /-- A symbol is met for the first time, at a byte offset of the expression. -/
  | discovered (kind : Kind) (name : String) (offset : Nat)
  /-- A values line starts with a word that is no symbol. -/
  | unknownSymbol (line : Nat) (word : String)
  /-- A values line sets a scalar. -/
  | scalarSet (line : Nat) (name : String) (value : Float)
  /-- A values line sets an array. -/
  | arraySet (line : Nat) (name : String) (length : Nat)
  /-- A values line fails. -/
  | lineSkipped (line : Nat) (error : Values.LoadError)
  /-- An operand is put on the stack. -/
  | operandPushed (value : Float)
  /-- An operator is put on the stack. -/
  | operatorPushed (op : Operator)
  /-- An operator is applied. -/
  | applied (left : Float) (op : Operator) (right result : Float)
  /-- A cell of an array is read. -/
  | cellRead (name : String) (index : Int) (value : Float)

namespace Event

/-- How much an event matters. -/
def level : Event → Level
  | discovered .. | unknownSymbol .. | scalarSet .. | arraySet .. => .debug
  | lineSkipped .. => .warn
  | operandPushed _ | operatorPushed _ | applied .. | cellRead .. => .trace

/-- An event in words. -/
def message : Event → String
  | discovered .scalar name offset => s!"discovered scalar '{name}' at position {offset}"
  | discovered .array name offset => s!"discovered array '{name}' at position {offset}"
  | unknownSymbol line word => s!"line {line}: skipping values for unknown symbol '{word}'"
  | scalarSet line name value => s!"line {line}: {name} = {Decimal.text value}"
  | arraySet line name length => s!"line {line}: allocating {name} with length {length}"
  | lineSkipped line error => s!"skipping line {line}: {error.message}"
  | operandPushed value => s!"push operand {Decimal.text value}"
  | operatorPushed op => s!"push operator {op.symbol}"
  | applied left op right result =>
    s!"apply {Decimal.text left} {op.symbol} {Decimal.text right} = {Decimal.text result}"
  | cellRead name index value => s!"{name}[{index}] = {Decimal.text value}"

/-- An event as a line of a log. -/
def text (event : Event) : String :=
  s!"{event.level.text} {event.message}"

end Event

/-! ## Computations that report -/

/-- What has been reported, in order. -/
abbrev Log := Array Event

/-- A computation that reports as it goes. -/
abbrev Logging := StateM Log

/-- A computation that reports as it goes, and may fail. -/
abbrev Logged (ε : Type) := ExceptT ε Logging

/-- Reports an event. -/
def report (event : Event) : Logging Unit :=
  modify (·.push event)

namespace Logged

variable {ε α : Type}

/-- How a computation ends. -/
def result (x : Logged ε α) : Except ε α :=
  (x.run #[]).1

/-- What a computation reports. -/
def log (x : Logged ε α) : Log :=
  (x.run #[]).2

end Logged

end Reckon
