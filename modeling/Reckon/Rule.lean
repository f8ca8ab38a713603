import Reckon.Pattern
import Reckon.Text

/-!
# Rules of a scanner

A scanner is a table of rules, each of which has a pattern and says what becomes of the text that it
matches. At each place the rule that matches the longest text is taken, and of those that match the
same text the one of highest priority. `Rule.slices` cuts a text in this way.
-/

namespace Reckon

/-- What becomes of a text that a rule matches. -/
inductive Rule.Outcome (α : Type) where
  /-- The text is a token. -/
  | token (a : α)
  /-- The text is skipped. -/
  | skipped
  /-- The text is none of the tokens that the rule is about. -/
  | refused

/-- A rule of a scanner. -/
structure Rule (α : Type) where
  /-- The texts that the rule matches. -/
  pattern : Pattern
  /-- What becomes of a text that the rule matches. -/
  read : List Char → Rule.Outcome α
  /-- The priority among rules that match the same text. -/
  priority : Nat := pattern.weight

namespace Rule

variable {α : Type}

/-- The text at the front of another that a rule matches, as its length. -/
structure Match (α : Type) where
  rule : Rule α
  length : Nat
  length_pos : 0 < length

/-- Whether a match is taken in place of another: it is longer, or as long and of a higher
priority. -/
def Match.beats (m n : Match α) : Bool :=
  n.length < m.length || (m.length = n.length && n.rule.priority < m.rule.priority)

/-- The longest match of a rule at the front of a text. -/
def match? (cs : List Char) (rule : Rule α) : Option (Match α) :=
  match rule.pattern.longest? cs with
  | none => none
  | some length => if h : 0 < length then some ⟨rule, length, h⟩ else none

/-- The first of some matches that none of the others beats. -/
def best? : List (Match α) → Option (Match α)
  | [] => none
  | m :: ms =>
    match best? ms with
    | none => some m
    | some n => if n.beats m then some n else some m

/-- The match that is taken at the front of a text. -/
def winner? (rules : List (Rule α)) (cs : List Char) : Option (Match α) :=
  best? (rules.filterMap (match? cs))

/-- A piece of a text that is not skipped. -/
structure Slice (α : Type) where
  /-- The byte offset at which the piece starts. -/
  offset : Nat
  text : List Char
  /-- The token that the piece is; `none` if no rule has read it. -/
  token? : Option α

/-- The pieces of what is left of a text from a byte offset on. Where no rule matches, the next
character is a piece that no rule has read. -/
def slices (rules : List (Rule α)) (offset : Nat) : List Char → List (Slice α)
  | [] => []
  | c :: cs =>
    match winner? rules (c :: cs) with
    | none => ⟨offset, [c], none⟩ :: slices rules (offset + c.utf8Size) cs
    | some m =>
      let text := (c :: cs).take m.length
      let later := slices rules (offset + Text.byteLength text) ((c :: cs).drop m.length)
      match m.rule.read text with
      | .token a => ⟨offset, text, some a⟩ :: later
      | .skipped => later
      | .refused => ⟨offset, text, none⟩ :: later
termination_by cs => cs.length
decreasing_by
  · simp
  · have := m.length_pos
    simp only [List.length_drop, List.length_cons]
    omega

end Rule

end Reckon
