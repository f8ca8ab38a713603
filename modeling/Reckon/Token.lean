import Reckon.Bracket
import Reckon.Decimal
import Reckon.Numeral
import Reckon.Operator
import Reckon.Rule

/-!
# Tokens of an expression

An expression is read as a row of tokens, each with the byte offset at which it starts. Nothing but
spaces and tabs is lost: what is neither an operator, a bracket, a number nor a name is kept as an
unrecognized token.

`Token.rules` is the table of the tokens. The patterns overlap: whatever a number or a name is, an
unrecognized token could be, too. `Token.scan` takes the longest match at each place, and of equally
long ones that of the highest priority.
-/

namespace Reckon

/-- A token of an expression. -/
inductive Token where
  /-- A number, rounded to the nearest double. -/
  | number (value : Float)
  /-- The name of a scalar or an array. -/
  | name (text : String)
  /-- An operator. -/
  | operator (op : Operator)
  /-- A bracket. -/
  | bracket (kind : Bracket) (side : Side)
  /-- A run of characters that is neither a number nor a name. -/
  | unrecognized (text : String)

/-- A token and the byte offset at which it starts. -/
structure Placed where
  token : Token
  offset : Nat

namespace Token

/-- The text of a token, as it is shown in messages. -/
def text : Token → String
  | number value => Decimal.text value
  | name text => text
  | operator op => op.symbol.toString
  | bracket kind side => (kind.char side).toString
  | unrecognized text => text

/-- The side on which a token stands as a bracket of this kind, if it is one. -/
def side? (kind : Bracket) : Token → Option Side
  | bracket kind' side => if kind' = kind then some side else none
  | _ => none

theorem side?_eq_some_iff {kind : Bracket} {token : Token} {side : Side} :
    token.side? kind = some side ↔ token = bracket kind side := by
  cases token with
  | bracket kind' side' =>
    by_cases h : kind' = kind <;> simp [side?, h]
  | _ => simp [side?]

/-- The operator that a token is, if it is one. -/
def operator? : Token → Option Operator
  | operator op => some op
  | _ => none

theorem operator?_eq_some_iff {token : Token} {op : Operator} :
    token.operator? = some op ↔ token = operator op := by
  cases token <;> simp [operator?]

/-! ## Scanning -/

/-- The characters that separate tokens. Spaces and tabs are lost, and the others are tokens. -/
def delimiters : String := " \t*+-/()[]"

/-- Whether a character separates tokens. -/
def isDelimiter (c : Char) : Bool :=
  delimiters.toList.contains c

/-- A digit. -/
def digit : Pattern := .one Char.isDigit

/-- A number that starts with digits: a point may follow, and digits after it. -/
def numberPattern : Pattern :=
  .seq (.plus digit) (.optional (.seq (.char '.') (.star digit)))

/-- A number that starts with a point. -/
def fractionPattern : Pattern :=
  .seq (.char '.') (.plus digit)

/-- The rule of a number of a certain form. -/
def numberRule (pattern : Pattern) : Rule Token where
  pattern
  read text :=
    match Numeral.ofPlain? text with
    | some n => .token (number (n.value false))
    | none => .refused
  priority := 3

/-- The rule of the names. -/
def nameRule : Rule Token where
  pattern := .plus (.one Char.isAlpha)
  read text := .token (name (String.ofList text))
  priority := 3

/-- The rule of a token that is written as one character. -/
def symbolRule (c : Char) (token : Token) : Rule Token where
  pattern := .char c
  read _ := .token token

/-- The rule of the runs of characters that are no delimiters. -/
def runRule : Rule Token where
  pattern := .plus (.one (!isDelimiter ·))
  read text := .token (unrecognized (String.ofList text))
  priority := 1

/-- The rule of the characters between tokens. -/
def blankRule : Rule Token where
  pattern := .plus (.one fun c => c = ' ' || c = '\t')
  read _ := .skipped

/-- The rules of the tokens. A number or a name is also a run, and goes before the unrecognized
token that the run would be. -/
def rules : List (Rule Token) :=
  [ numberRule numberPattern,
    numberRule fractionPattern,
    nameRule,
    symbolRule '+' (operator .add),
    symbolRule '-' (operator .sub),
    symbolRule '*' (operator .mul),
    symbolRule '/' (operator .div),
    symbolRule '(' (bracket .round .opening),
    symbolRule ')' (bracket .round .closing),
    symbolRule '[' (bracket .square .opening),
    symbolRule ']' (bracket .square .closing),
    runRule,
    blankRule ]

/-- The token that a piece of an expression is. What no rule has read is unrecognized. -/
def ofSlice (slice : Rule.Slice Token) : Placed :=
  ⟨slice.token?.getD (unrecognized (String.ofList slice.text)), slice.offset⟩

/-- The tokens of an expression. -/
def scan (text : String) : Array Placed :=
  ((Rule.slices rules 0 text.toList).map ofSlice).toArray

end Token

end Reckon
