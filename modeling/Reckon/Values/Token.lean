import Reckon.Decimal
import Reckon.Numeral

/-!
# Tokens of a values line

A values line consists of numbers, names and the punctuation of pairs, with blanks anywhere between
them. `Lexeme.first?` finds the longest lexeme at the front of a text; `Token.scan` cuts a line into
lexemes and reads each of them, or returns the first piece of the line that is no token.
-/

namespace Reckon.Values

/-- A token of a values line. -/
inductive Token where
  /-- A number with a point, rounded to the nearest double. -/
  | real (value : Float)
  /-- A number without a point, a signed 64 bit word. -/
  | integer (value : Int)
  /-- The name of a symbol. -/
  | name (text : String)
  /-- The bracket that opens a pair. -/
  | opening
  /-- The bracket that closes a pair. -/
  | closing
  /-- The comma inside a pair. -/
  | comma

/-- The text of a token, as it is shown in messages. -/
def Token.text : Token → String
  | real value => Decimal.text value
  | integer value => toString value
  | name text => text
  | opening => "("
  | closing => ")"
  | comma => ","

/-! ## Lexemes -/

/-- A token as it is spelled. -/
inductive Lexeme where
  /-- A number, with or without a minus sign. -/
  | numeral (negative : Bool) (n : Numeral)
  /-- A row of ASCII letters. -/
  | name (letters : List Char)
  | opening
  | closing
  | comma
deriving DecidableEq

namespace Lexeme

/-- The characters of a lexeme. -/
def text : Lexeme → List Char
  | numeral true n => '-' :: n.text
  | numeral false n => n.text
  | name letters => letters
  | opening => ['(']
  | closing => [')']
  | comma => [',']

/-- The longest lexeme at the front of a text. -/
def first? : List Char → Option Lexeme
  | [] => none
  | '(' :: _ => some opening
  | ')' :: _ => some closing
  | ',' :: _ => some comma
  | '-' :: cs => (Numeral.first? cs).map (numeral true)
  | c :: cs =>
    if c.isAlpha then some (name (c :: cs.takeWhile Char.isAlpha))
    else (Numeral.first? (c :: cs)).map (numeral false)

/-- The token that a lexeme spells; `none` for an integer that is no signed 64 bit word. -/
def token? : Lexeme → Option Token
  | numeral negative n =>
    if n.isInteger then
      let value : Int := if negative then -n.toNat else n.toNat
      if fitsWord value then some (.integer value) else none
    else some (.real (n.value negative))
  | name letters => some (.name (String.ofList letters))
  | opening => some .opening
  | closing => some .closing
  | comma => some .comma

end Lexeme

/-! ## Scanning -/

namespace Token

/-- The characters that only separate the tokens of a values line. -/
def isBlank (c : Char) : Bool :=
  c = ' ' || c = '\t' || c = '\r' || c = '\x0c'

/-- The tokens of a values line. The error is the first piece of it that is no token: a character
with which none starts, or an integer that is no signed 64 bit word. -/
def scan (line : String) : Except String (Array Token) :=
  go #[] line.toList
where
  /-- Scans what is left of the line. -/
  go (found : Array Token) : List Char → Except String (Array Token)
    | [] => .ok found
    | c :: cs =>
      if isBlank c then go found cs
      else
        match Lexeme.first? (c :: cs) with
        | none => .error c.toString
        | some lexeme =>
          match lexeme.token? with
          | none => .error (String.ofList lexeme.text)
          | some token => go (found.push token) (cs.drop (lexeme.text.length - 1))
  termination_by cs => cs.length
  decreasing_by
    · simp
    · simp only [List.length_drop, List.length_cons]
      omega

end Token

end Reckon.Values
