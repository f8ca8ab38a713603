import Reckon.Table
import Reckon.Text
import Reckon.Values.Error

/-!
# What a values line sets

A line `name value` sets a scalar, and a line `name length (index,value) ...` an array. What a line
sets depends on its text and on the kind of the name that it starts with, and on nothing else:
`Line.read` needs no table, and `Setting.applyTo` cannot fail: allocating the cells of an array, of
which there are at most `greatestLength`, is taken to succeed.
-/

namespace Reckon.Values

/-- What a values line sets. -/
inductive Setting where
  /-- The value of a scalar. -/
  | scalar (name : String) (value : Float)
  /-- The length of an array, and the values of some of its cells, a later one over an earlier
  one. -/
  | array (name : String) (length : Nat) (pairs : List (Nat × Float))

namespace Setting

/-- The name that is set. -/
def name : Setting → String
  | scalar name _ => name
  | array name _ _ => name

/-- The cells of an array of this length: zero where no pair gives a value, else the value of the
last pair that does. -/
def cellsOf (length : Nat) (pairs : List (Nat × Float)) : Cells :=
  .loaded (pairs.foldl (fun values (index, value) => values.setIfInBounds index value)
    (Array.replicate length 0))

/-- The table after a setting. Nothing but the value or the cells of one symbol changes. -/
def applyTo (setting : Setting) (table : Table) : Table :=
  match setting with
  | scalar name value => table.setScalar name value
  | array name length pairs => table.setCells name (cellsOf length pairs)

end Setting

/-! ## Reading a line -/

/-- What a values line is about. -/
inductive Line where
  /-- The line has no words. -/
  | blank
  /-- The line starts with a word that is no symbol; the rest of it is not looked at. -/
  | unknown (word : String)
  /-- The line sets a symbol. -/
  | sets (setting : Setting)

namespace Line

/-- The number that a token is. -/
def number : Token → Except Cause Float
  | .real value => .ok value
  | .integer value =>
    match Binary64.ofInteger? value with
    | some value => .ok value
    | none => .error (.malformed (.tooLarge value))
  | token => .error (.malformed (.notNumber token))

/-- The length that an array is given by the token after its name. -/
def length (name : String) : Token → Except Cause Nat
  | .integer value =>
    match value.toNat? with
    | none => .error (.malformed (.negativeLength name value))
    | some length =>
      if length ≤ greatestLength then .ok length
      else .error (.malformed (.lengthAboveLimit name length))
  | token => .error (.malformed (.lengthNotInteger token))

/-- The index that a pair writes to, in an array of a given length. -/
def index (name : String) (length : Nat) : Token → Except Cause Nat
  | .integer value =>
    match value.toNat? with
    | none => .error (.indexOutOfRange name value length)
    | some index =>
      if index < length then .ok index else .error (.indexOutOfRange name value length)
  | token => .error (.malformed (.indexNotInteger token))

/-- The pairs of an array, after those found so far. -/
def pairs (name : String) (length : Nat) (found : Array (Nat × Float)) :
    List Token → Except Cause (List (Nat × Float))
  | [] => .ok found.toList
  | .opening :: i :: .comma :: x :: .closing :: rest => do
    let i ← index name length i
    let x ← number x
    pairs name length (found.push (i, x)) rest
  | _ => .error (.malformed (.pairExpected name))

/-- What the tokens after the name of a symbol set it to. -/
def setting (kind : Kind) (name : String) (tokens : List Token) : Except Cause Setting :=
  match kind, tokens with
  | .scalar, [token] => return .scalar name (← number token)
  | .scalar, _ => .error (.malformed (.notOneValue name))
  | .array, [] => .error (.malformed (.missingLength name))
  | .array, token :: rest => do
    let length ← length name token
    return .array name length (← pairs name length #[] rest)

/-- Reads a line: its first word decides whether the rest is looked at, and as what. -/
def read (kind? : String → Option Kind) (line : String) : Except Cause Line :=
  match (Text.firstWord? line.toList).map String.ofList with
  | none => .ok .blank
  | some word =>
    match kind? word with
    | none => .ok (.unknown word)
    | some kind =>
      match Token.scan line with
      | .error text => .error (.malformed (.unexpectedText text))
      | .ok tokens =>
        match tokens.toList with
        | .name first :: rest =>
          if first = word then Line.sets <$> setting kind word rest
          else .error (.malformed (.wrongStart word))
        | _ => .error (.malformed (.wrongStart word))

end Line

end Reckon.Values
