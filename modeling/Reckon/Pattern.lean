/-!
# Patterns

A pattern is a regular expression over characters. `Pattern.longest?` finds the longest text at the
front of another that a pattern matches: `derivative` is the pattern of what may follow a character,
and a match ends where the pattern that is left matches the empty text.
-/

namespace Reckon

/-- A regular expression over characters. -/
inductive Pattern where
  /-- Matches no text. -/
  | nothing
  /-- Matches the empty text. -/
  | empty
  /-- Matches one character of a class. -/
  | one (p : Char → Bool)
  /-- Matches what one of two patterns does. -/
  | alt (p q : Pattern)
  /-- Matches what the first pattern does, followed by what the second one does. -/
  | seq (p q : Pattern)
  /-- Matches any number of texts, one after the other, that the pattern does. -/
  | star (p : Pattern)

namespace Pattern

/-- Matches one character. -/
def char (c : Char) : Pattern :=
  one (· = c)

/-- Matches at least one text that the pattern does. -/
def plus (p : Pattern) : Pattern :=
  seq p (star p)

/-- Matches what the pattern does, or the empty text. -/
def optional (p : Pattern) : Pattern :=
  alt empty p

/-- The weight of a pattern: two for each character that every match of it has. -/
def weight : Pattern → Nat
  | nothing | empty | star _ => 0
  | one _ => 2
  | alt p q => min p.weight q.weight
  | seq p q => p.weight + q.weight

/-! ## Matching -/

/-- Whether a pattern matches the empty text. -/
def nullable : Pattern → Bool
  | nothing | one _ => false
  | empty | star _ => true
  | alt p q => p.nullable || q.nullable
  | seq p q => p.nullable && q.nullable

/-- An alternative, without a side that matches nothing. -/
def or : Pattern → Pattern → Pattern
  | nothing, q => q
  | p, nothing => p
  | p, q => alt p q

/-- A sequence, without a first part that matches nothing or only the empty text. -/
def andThen : Pattern → Pattern → Pattern
  | nothing, _ => nothing
  | empty, q => q
  | p, q => seq p q

/-- The pattern of what may follow a character. -/
def derivative (c : Char) : Pattern → Pattern
  | nothing | empty => nothing
  | one p => if p c then empty else nothing
  | alt p q => (p.derivative c).or (q.derivative c)
  | seq p q =>
    let first := (p.derivative c).andThen q
    if p.nullable then first.or (q.derivative c) else first
  | star p => (p.derivative c).andThen (star p)

/-- The length of the longest text at the front of another that a pattern matches. -/
def longest? : Pattern → List Char → Option Nat
  | nothing, _ => none
  | p, [] => if p.nullable then some 0 else none
  | p, c :: cs =>
    match (p.derivative c).longest? cs with
    | some length => some (length + 1)
    | none => if p.nullable then some 0 else none

end Pattern

end Reckon
