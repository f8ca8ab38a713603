import Reckon.Evaluation
import Reckon.Table.Discovery
import Reckon.Values.Load

/-!
# Expressions

An expression is a text with its tokens and a table of its symbols. The table is empty until it is
built; building it again discards all values. After that, sources of values are loaded into it, and
the expression is evaluated with the values that it has then.
-/

namespace Reckon

/-- A text with its tokens and its symbols. -/
structure Expression where
  text : String
  formula : Formula
  table : Table := {}

namespace Expression

/-- The expression of a text, without any symbols. -/
def ofText (text : String) : Expression :=
  { text, formula := .ofText text }

/-- Builds the table of the symbols from scratch. -/
def build (x : Expression) : Logged Fault Expression := do
  return { x with table := ← Table.ofTokens x.formula.tokens }

/-- Loads a source of values into the table. What fails is reported, and the rest is loaded. -/
def load (x : Expression) (source : Values.Source) :
    Logging (Expression × Except Values.LoadError Unit) := do
  let loaded ← source.load x.table
  return ({ x with table := loaded.table }, loaded.outcome)

/-- Evaluates the expression with the values of its table. -/
def eval (x : Expression) : Logged Fault Float :=
  x.formula.eval x.table

end Expression

/-! ## All at once -/

/-- The value of a text with the values of a table, which need not have been built from it. -/
def evaluate (text : String) (table : Table) : Except Fault Float :=
  ((Formula.ofText text).eval table).result

/-- Why an expression has no value. -/
inductive Failure where
  /-- There is a fault in the expression. -/
  | expression (fault : Fault)
  /-- The values cannot be loaded. -/
  | values (error : Values.LoadError)

/-- The value of a text with the values of a source, every line of which has to be good. Names
without a value read zero. -/
def value (text : String) (source : Option Values.Source) : Except Failure Float := do
  let x ← (Expression.ofText text).build.result.mapError .expression
  match source with
  | none => x.eval.result.mapError .expression
  | some source =>
    let (x, outcome) := (x.load source #[]).1
    outcome.mapError .values
    x.eval.result.mapError .expression

/-- The value of a text with the values of a source, as far as its lines are good, and all that is
reported on the way. -/
def valueLogged (text : String) (source : Option Values.Source) : Logged Fault Float := do
  let x ← (Expression.ofText text).build
  match source with
  | none => x.eval
  | some source =>
    let (x, _) ← x.load source
    x.eval

end Reckon
