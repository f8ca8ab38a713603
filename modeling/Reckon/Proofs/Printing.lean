import Reckon.Proofs.Discovery
import Reckon.Proofs.Grammar
import Reckon.Proofs.Numerals

/-!
# Printed expressions

An `Expr` is an expression without brackets and blanks. It is printed as a row of pieces, with the
round brackets that precedence and association to the left require and no others. What is printed
is derived by the grammar, at the phrase of the outermost operator.

## Key results

- `Expr.derives_pieces`: what is printed is derived, and its parse tree is that of the expression
- `Expr.nesting_pieces`: the brackets that are printed are nested as deep as the parse tree
- `Expr.uses_placed`: what is printed uses the names of the expression, as the same kinds
-/

namespace Reckon

/-- A number that an expression can contain. -/
structure Literal where
  numeral : Numeral
  plain : numeral.Plain

/-- The double that a literal stands for. -/
def Literal.value (l : Literal) : Float :=
  l.numeral.value false

/-- A name that an expression can contain: at least one ASCII letter. -/
structure Identifier where
  text : String
  ne_nil : text.toList ≠ []
  isAlpha : ∀ c ∈ text.toList, c.isAlpha

/-! ## Pieces -/

/-- What is printed as one token. -/
inductive Piece where
  | literal (l : Literal)
  | name (name : Identifier)
  | operator (op : Operator)
  | bracket (kind : Bracket) (side : Side)

namespace Piece

/-- The characters of a piece. -/
def text : Piece → List Char
  | literal l => l.numeral.text
  | name n => n.text.toList
  | operator op => [op.symbol]
  | bracket kind side => [kind.char side]

/-- The token that a piece is. -/
def token : Piece → Token
  | literal l => .number l.value
  | name n => .name n.text
  | operator op => .operator op
  | bracket kind side => .bracket kind side

/-- How many brackets are open after a piece. -/
def opened (before : Nat) : Piece → Nat
  | bracket _ .opening => before + 1
  | bracket _ .closing => before - 1
  | _ => before

/-- The greatest number of brackets that are open at once. -/
def nesting (before : Nat) : List Piece → Nat
  | [] => before
  | p :: ps => max before (nesting (p.opened before) ps)

theorem le_nesting (before : Nat) (ps : List Piece) : before ≤ nesting before ps := by
  cases ps with
  | nil => exact Nat.le_refl _
  | cons p ps => exact Nat.le_max_left ..

/-- The tokens of pieces, given where the pieces start by their index. -/
def placed (offsetOf : Nat → Nat) (index : Nat) : List Piece → List Placed
  | [] => []
  | p :: ps => ⟨p.token, offsetOf index⟩ :: placed offsetOf (index + 1) ps

theorem placed_append (offsetOf : Nat → Nat) (index : Nat) (ps qs : List Piece) :
    placed offsetOf index (ps ++ qs) =
      placed offsetOf index ps ++ placed offsetOf (index + ps.length) qs := by
  induction ps generalizing index with
  | nil => rfl
  | cons p ps ih =>
    rw [List.cons_append, placed, ih, placed, List.cons_append, List.length_cons]
    congr 3
    omega

/-- Pieces in round brackets, if they are to be. -/
def enclose (brackets : Bool) (ps : List Piece) : List Piece :=
  if brackets then bracket .round .opening :: ps ++ [bracket .round .closing] else ps

end Piece

/-! ## Expressions -/

/-- An expression: literals, scalars, cells of arrays, and the four operators. -/
inductive Expr where
  | literal (l : Literal)
  | scalar (name : Identifier)
  | cell (name : Identifier) (subscript : Expr)
  | binary (op : Operator) (left right : Expr)

namespace Expr

/-- The phrase that an expression is. -/
def phrase : Expr → Phrase
  | binary op _ _ => op.phrase
  | _ => .factor

/-- Whether the left operand of an operator needs brackets: it binds less tightly. -/
def enclosesLeft (op : Operator) (left : Expr) : Bool :=
  left.phrase.precedence < op.precedence

/-- Whether the right operand of an operator needs brackets: it binds no more tightly. -/
def enclosesRight (op : Operator) (right : Expr) : Bool :=
  right.phrase.precedence ≤ op.precedence

/-- What is printed for an expression. -/
def pieces : Expr → List Piece
  | literal l => [.literal l]
  | scalar name => [.name name]
  | cell name subscript =>
    .name name :: .bracket .square .opening :: subscript.pieces ++ [.bracket .square .closing]
  | binary op left right =>
    Piece.enclose (enclosesLeft op left) left.pieces ++
      .operator op :: Piece.enclose (enclosesRight op right) right.pieces

/-- The index of the first piece of a left operand, given that of the first piece of all. -/
def leftStart (op : Operator) (left : Expr) (index : Nat) : Nat :=
  index + (enclosesLeft op left).toNat

/-- The index of the first piece of a right operand, given that of the first piece of all. -/
def rightStart (op : Operator) (left right : Expr) (index : Nat) : Nat :=
  index + (Piece.enclose (enclosesLeft op left) left.pieces).length + 1 +
    (enclosesRight op right).toNat

/-- The names of an expression, each as the kind that it is used as. -/
def uses : Expr → List (String × Kind)
  | literal _ => []
  | scalar name => [(name.text, .scalar)]
  | cell name subscript => (name.text, .array) :: subscript.uses
  | binary _ left right => left.uses ++ right.uses

/-- A tree in round brackets, if it is to be. -/
def group (brackets : Bool) (t : Tree) : Tree :=
  if brackets then .group t else t

/-- The parse tree of what is printed, given where the pieces start by their index. -/
def tree (offsetOf : Nat → Nat) (index : Nat) : Expr → Tree
  | literal l => .number l.value
  | scalar name => .scalar name.text
  | cell name subscript =>
    .cell name.text (offsetOf index) (subscript.tree offsetOf (index + 2))
  | binary op left right =>
    .binary op (group (enclosesLeft op left) (left.tree offsetOf (leftStart op left index)))
      (group (enclosesRight op right)
        (right.tree offsetOf (rightStart op left right index)))

/-! ## What is printed is derived -/

end Expr

/-- What a phrase derives is derived by every phrase that binds no more tightly. -/
theorem Derives.of_precedence_le {phrase phrase' : Phrase} {ts : List Placed} {t : Tree}
    (h : phrase'.precedence ≤ phrase.precedence) (ht : Derives phrase ts t) :
    Derives phrase' ts t := by
  cases phrase with
  | sum =>
    cases phrase' with
    | sum => exact ht
    | _ => exact absurd h (by decide)
  | product =>
    cases phrase' with
    | sum => exact .single nofun ht
    | product => exact ht
    | factor => exact absurd h (by decide)
  | factor =>
    cases phrase' with
    | sum => exact .single nofun (.single nofun ht)
    | product => exact .single nofun ht
    | factor => exact ht

theorem Phrase.sum_le (phrase : Phrase) : Phrase.sum.precedence ≤ phrase.precedence := by
  cases phrase <;> decide

theorem Phrase.le_factor (phrase : Phrase) : phrase.precedence ≤ Phrase.factor.precedence := by
  cases phrase <;> decide

/-- A phrase that binds more tightly than another can be its right operand. -/
theorem Phrase.operand_le_of_lt {phrase phrase' : Phrase}
    (h : phrase.precedence < phrase'.precedence) :
    phrase.operand.precedence ≤ phrase'.precedence := by
  cases phrase <;> cases phrase' <;> first | exact absurd h (by decide) | decide

namespace Expr

variable {phrase : Phrase} {ps : List Piece} {t : Tree} {offsetOf : Nat → Nat} {index : Nat}
  {brackets : Bool}

/-- An operand is derived, in brackets as a factor and without them if it binds tightly enough. -/
theorem derives_enclose (ht : Derives .sum (Piece.placed offsetOf (index + brackets.toNat) ps) t)
    (hbare : brackets = false → Derives phrase (Piece.placed offsetOf index ps) t) :
    Derives phrase (Piece.placed offsetOf index (Piece.enclose brackets ps))
      (group brackets t) := by
  cases brackets with
  | false => exact hbare rfl
  | true =>
    refine .of_precedence_le phrase.le_factor ?_
    have hgroup := Derives.group (offsetOf index) (offsetOf (index + 1 + ps.length)) ht
    have hplaced : Piece.placed offsetOf index (Piece.enclose true ps) =
        ⟨.bracket .round .opening, offsetOf index⟩ :: Piece.placed offsetOf (index + 1) ps ++
          [⟨.bracket .round .closing, offsetOf (index + 1 + ps.length)⟩] := by
      simp [Piece.enclose, Piece.placed, Piece.placed_append, Piece.token]
    rw [hplaced]
    exact hgroup

/-- What is printed for an expression is derived by the grammar, with the tree of the expression. -/
theorem derives_pieces (e : Expr) (offsetOf : Nat → Nat) (index : Nat) :
    Derives e.phrase (Piece.placed offsetOf index e.pieces) (e.tree offsetOf index) := by
  -- Induction on the expression. The index moves on to each part, as the tokens before it have
  -- offsets of their own.
  induction e generalizing index with
  | literal l => exact .number ..
  | scalar name => exact .scalar ..
  | cell name subscript ih =>
    have hplaced : Piece.placed offsetOf index (cell name subscript).pieces =
        ⟨.name name.text, offsetOf index⟩ ::
          (⟨.bracket .square .opening, offsetOf (index + 1)⟩ ::
            Piece.placed offsetOf (index + 2) subscript.pieces ++
          [⟨.bracket .square .closing, offsetOf (index + 2 + subscript.pieces.length)⟩]) := by
      simp [pieces, Piece.placed, Piece.placed_append, Piece.token]
    rw [hplaced]
    exact .cell _ _ _ _ (.of_precedence_le (Phrase.sum_le _) (ih (index + 2)))
  | binary op left right ihl ihr =>
    rw [pieces, Piece.placed_append, Piece.placed]
    refine .binary op _ rfl ?_ ?_
    · -- without brackets, the left operand can be of the phrase of the operator itself
      refine derives_enclose (.of_precedence_le (Phrase.sum_le _) (ihl _)) fun hbare => ?_
      have hle : op.precedence ≤ left.phrase.precedence := by
        simpa [enclosesLeft] using hbare
      rw [leftStart, hbare]
      rw [← op.precedence_phrase] at hle
      exact .of_precedence_le hle (ihl index)
    · -- without brackets, the right operand has to bind more tightly
      refine derives_enclose (.of_precedence_le (Phrase.sum_le _) (ihr _)) fun hbare => ?_
      have hlt : op.precedence < right.phrase.precedence := by
        simpa [enclosesRight] using hbare
      rw [rightStart, hbare]
      rw [← op.precedence_phrase] at hlt
      exact .of_precedence_le (Phrase.operand_le_of_lt hlt) (ihr _)

/-! ## How deep brackets are nested -/

theorem nesting_enclose {qs : List Piece} {before : Nat}
    (h : ∀ before qs, Piece.nesting before (ps ++ qs) =
      max (before + t.depth) (Piece.nesting before qs)) :
    Piece.nesting before (Piece.enclose brackets ps ++ qs) =
      max (before + (group brackets t).depth) (Piece.nesting before qs) := by
  cases brackets with
  | false => exact h before qs
  | true =>
    have hclose : before + 1 - 1 = before := by omega
    have hle := Piece.le_nesting before qs
    simp only [Piece.enclose, ↓reduceIte, List.cons_append, List.append_assoc, List.nil_append,
      Piece.nesting, Piece.opened, h, group, Tree.depth, hclose]
    omega

/-- The brackets that are printed for an expression are nested as deep as its tree. -/
theorem nesting_pieces (e : Expr) (offsetOf : Nat → Nat) (index before : Nat) (qs : List Piece) :
    Piece.nesting before (e.pieces ++ qs) =
      max (before + (e.tree offsetOf index).depth) (Piece.nesting before qs) := by
  -- Induction on the expression, with whatever is printed after it: brackets that are closed again
  -- do not count there.
  induction e generalizing index before qs with
  | literal l => rfl
  | scalar name => rfl
  | cell name subscript ih =>
    have hclose : before + 1 - 1 = before := by omega
    have hle := Piece.le_nesting before qs
    simp only [pieces, List.cons_append, List.append_assoc, List.nil_append, Piece.nesting,
      Piece.opened, ih (index + 2), tree, Tree.depth, hclose]
    omega
  | binary op left right ihl ihr =>
    have hle := Piece.le_nesting before qs
    have hop : (Piece.operator op).opened before = before := rfl
    rw [pieces, List.append_assoc, List.cons_append,
      nesting_enclose (ihl (leftStart op left index)), Piece.nesting, hop,
      nesting_enclose (ihr (rightStart op left right index)), tree, Tree.depth]
    omega

/-! ## Which names are used -/

theorem uses_enclose {us : List (String × Kind)} {qs : List Placed}
    (h : ∀ index qs, Table.kindBefore qs = .scalar →
      Table.uses (Piece.placed offsetOf index ps ++ qs) = us ++ Table.uses qs)
    (hqs : Table.kindBefore qs = .scalar) :
    Table.uses (Piece.placed offsetOf index (Piece.enclose brackets ps) ++ qs) =
      us ++ Table.uses qs := by
  cases brackets with
  | false => exact h index qs hqs
  | true =>
    simp only [Piece.enclose, ↓reduceIte, List.cons_append, Piece.placed, Piece.placed_append,
      List.append_assoc, List.nil_append, Piece.token, Table.uses]
    rw [h _ _ rfl]
    rfl

/-- What is printed for an expression uses the names of the expression, provided that no subscript
    comes after it. -/
theorem uses_placed (e : Expr) (offsetOf : Nat → Nat) (index : Nat) {qs : List Placed}
    (hqs : Table.kindBefore qs = .scalar) :
    Table.uses (Piece.placed offsetOf index e.pieces ++ qs) = e.uses ++ Table.uses qs := by
  -- Induction on the expression. Which kind a name is used as depends on the token after it, so the
  -- tokens after the expression are part of the statement.
  induction e generalizing index qs with
  | literal l => rfl
  | scalar name =>
    show (name.text, Table.kindBefore qs) :: Table.uses qs = _
    rw [hqs]
    rfl
  | cell name subscript ih =>
    simp only [pieces, List.cons_append, Piece.placed, Piece.placed_append, List.append_assoc,
      List.nil_append, Piece.token, Table.uses]
    rw [ih _ rfl]
    rfl
  | binary op left right ihl ihr =>
    rw [pieces, Piece.placed_append, Piece.placed, List.append_assoc, List.cons_append,
      uses_enclose (fun i _ h => ihl i h) rfl, uses, List.append_assoc]
    congr 1
    exact uses_enclose (fun i _ h => ihr i h) hqs

end Expr

end Reckon
