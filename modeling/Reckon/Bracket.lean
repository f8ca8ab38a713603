/-!
# Brackets

Round brackets group, square ones enclose a subscript. `Search` looks for the first opening bracket
of one kind and the bracket that closes it, by counting brackets of that kind only; `step` takes in
one place of a text or of a row of tokens, and `outcome` is the result after the last one.
-/

namespace Reckon

/-- A kind of brackets. -/
inductive Bracket where
  /-- `(` and `)`, which group. -/
  | round
  /-- `[` and `]`, which enclose a subscript. -/
  | square
deriving DecidableEq, Repr

/-- A side of a pair of brackets. -/
inductive Side where
  | opening
  | closing
deriving DecidableEq, Repr

namespace Bracket

/-- The character of a bracket. -/
def char : Bracket → Side → Char
  | round, .opening => '('
  | round, .closing => ')'
  | square, .opening => '['
  | square, .closing => ']'

/-- The side on which a character stands as a bracket of this kind, if it is one. -/
def side? (kind : Bracket) (c : Char) : Option Side :=
  if c = kind.char .opening then some .opening
  else if c = kind.char .closing then some .closing
  else none

theorem side?_eq_some_iff {kind : Bracket} {c : Char} {side : Side} :
    kind.side? c = some side ↔ c = kind.char side := by
  unfold side?
  cases kind <;> cases side <;> grind [char]

end Bracket

/-! ## Searching for a pair -/

/-- How a search for a pair ends. -/
inductive Pairing where
  /-- The first opening bracket and the one that closes it. -/
  | found (first last : Nat)
  /-- There is no bracket. -/
  | absent
  /-- A closing bracket comes before any opening one. -/
  | stray (place : Nat)
  /-- The first opening bracket is never closed. -/
  | unclosed (first : Nat)
deriving DecidableEq, Repr

/-- How far a search for a pair has come. -/
inductive Search where
  /-- No bracket has been met. -/
  | seeking
  /-- The first opening bracket has been met, and `depth` brackets are open. -/
  | inside (first depth : Nat)
  /-- The search is over. -/
  | done (pairing : Pairing)
deriving DecidableEq, Repr

namespace Search

/-- Takes in one place, which may hold a bracket. -/
def step (search : Search) (place : Nat) (side : Option Side) : Search :=
  match search, side with
  | seeking, some .opening => inside place 1
  | seeking, some .closing => done (.stray place)
  | inside first depth, some .opening => inside first (depth + 1)
  | inside first depth, some .closing =>
    if depth - 1 = 0 then done (.found first place) else inside first (depth - 1)
  | search, _ => search

/-- The result of a search when there are no more places. -/
def outcome : Search → Pairing
  | seeking => .absent
  | inside first _ => .unclosed first
  | done pairing => pairing

@[simp] theorem step_none (search : Search) (place : Nat) : search.step place none = search := by
  cases search <;> rfl

@[simp] theorem step_done (pairing : Pairing) (place : Nat) (side : Option Side) :
    (done pairing).step place side = done pairing := by
  cases side <;> rfl

end Search

end Reckon
