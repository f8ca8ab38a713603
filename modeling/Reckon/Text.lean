/-!
# Blank characters and words

White space around an expression and before the first word of a values line is what Unicode calls
so: the twenty-five characters with the property `White_Space`. The lexers skip fewer characters
and say so themselves.
-/

namespace Reckon.Text

/-- The ranges of the characters with the Unicode property `White_Space`. -/
def blankRanges : List (Nat × Nat) :=
  [(0x09, 0x0D), (0x20, 0x20), (0x85, 0x85), (0xA0, 0xA0), (0x1680, 0x1680), (0x2000, 0x200A),
    (0x2028, 0x2029), (0x202F, 0x202F), (0x205F, 0x205F), (0x3000, 0x3000)]

/-- Whether a character has the Unicode property `White_Space`. -/
def isBlank (c : Char) : Bool :=
  blankRanges.any fun (low, high) => low ≤ c.toNat && c.toNat ≤ high

/-- The first word of a line: its first maximal run of characters that are not blank. -/
def firstWord? (line : List Char) : Option (List Char) :=
  match (line.dropWhile isBlank).takeWhile (!isBlank ·) with
  | [] => none
  | word => some word

/-- The text without the blanks at its ends. -/
def trim (text : List Char) : List Char :=
  ((text.dropWhile isBlank).reverse.dropWhile isBlank).reverse

/-- The first line, without the line feed that ends it. -/
def firstLine (text : List Char) : List Char :=
  text.takeWhile (· != '\n')

/-- The number of bytes of a row of characters. -/
def byteLength (cs : List Char) : Nat :=
  cs.foldl (fun n c => n + c.utf8Size) 0

theorem byteLength_append (cs ds : List Char) :
    byteLength (cs ++ ds) = byteLength cs + byteLength ds := by
  -- the bytes are counted from the left, so the count may start from any number
  have hadd : ∀ (n : Nat) (cs : List Char),
      cs.foldl (fun n c => n + c.utf8Size) n = n + byteLength cs := by
    intro n cs
    induction cs generalizing n with
    | nil => rfl
    | cons c cs ih =>
      have hcons : byteLength (c :: cs) = c.utf8Size + byteLength cs := by
        rw [← ih c.utf8Size]
        simp [byteLength]
      rw [List.foldl_cons, ih, hcons, Nat.add_assoc]
  rw [byteLength, List.foldl_append, hadd]
  rfl

theorem byteLength_cons (c : Char) (cs : List Char) :
    byteLength (c :: cs) = c.utf8Size + byteLength cs := by
  rw [← List.singleton_append, byteLength_append]
  simp [byteLength]

theorem byteLength_pos {cs : List Char} (h : cs ≠ []) : 0 < byteLength cs := by
  cases cs with
  | nil => exact absurd rfl h
  | cons c cs =>
    have := c.utf8Size_pos
    rw [byteLength_cons]
    omega

end Reckon.Text
