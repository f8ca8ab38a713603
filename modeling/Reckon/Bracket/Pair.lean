import Reckon.Fault
import Reckon.Token

/-!
# Pairs of brackets

The pair that the first opening bracket of a kind makes, in a row of tokens or in a text. Both
searches take the same steps, over indices of tokens and over byte offsets, and report the same
faults.
-/

namespace Reckon

/-- The pair that a search has found, or the fault it has met. The place of a bracket in the row
that was searched is turned into an offset by `offsetOf`. -/
def Pairing.toExcept (kind : Bracket) (offsetOf : Nat → Nat) : Pairing → Except Fault (Nat × Nat)
  | found first last => .ok (first, last)
  | absent => .error ⟨offsetOf 0, .unbalanced kind .opening⟩
  | stray place => .error ⟨offsetOf place, .unbalanced kind .closing⟩
  | unclosed first => .error ⟨offsetOf first, .unbalanced kind .opening⟩

namespace Bracket

/-- Searches the tokens from `start` to `stop`, of which the first `place` have been taken in, and
goes no further than it needs. -/
def searchTokens (kind : Bracket) (tokens : Array Placed) (start stop : Nat)
    (h : stop ≤ tokens.size) (place : Nat) (search : Search) : Search :=
  match search with
  | .done pairing => .done pairing
  | search =>
    if h' : start + place < stop then
      searchTokens kind tokens start stop h (place + 1)
        (search.step place (tokens[start + place].token.side? kind))
    else search
termination_by stop - (start + place)

/-- The first opening bracket of a kind among the tokens from `start` to `stop`, and the one that
closes it, as indices counted from `start`. -/
def pairWithin (kind : Bracket) (tokens : Array Placed) (start stop : Nat)
    (h : stop ≤ tokens.size) : Except Fault (Nat × Nat) :=
  let offsetOf place := if h' : start + place < stop then tokens[start + place].offset else 0
  (kind.searchTokens tokens start stop h 0 .seeking).outcome.toExcept kind offsetOf

/-- The first opening bracket of a kind among the tokens from `start` on, and the one that closes
it, as indices counted from `start`. -/
def pairFrom (kind : Bracket) (tokens : Array Placed) (start : Nat) : Except Fault (Nat × Nat) :=
  kind.pairWithin tokens start tokens.size (Nat.le_refl _)

/-- Searches what is left of a text from a byte offset on. -/
def searchText (kind : Bracket) (offset : Nat) (search : Search) : List Char → Search
  | [] => search
  | c :: cs => kind.searchText (offset + c.utf8Size) (search.step offset (kind.side? c)) cs

/-- The first opening bracket of a kind in a text, and the one that closes it, as byte offsets. -/
def pairInText (kind : Bracket) (text : String) : Except Fault (Nat × Nat) :=
  (kind.searchText 0 .seeking text.toList).outcome.toExcept kind id

end Bracket

end Reckon
