import Reckon.Proofs.Printing

/-!
# Environments

An environment gives integers to some of the names of an expression: one to a scalar, and a row of
them to an array. `Expr.eval` is the value of an expression in an environment, by recursion on the
expression, and `Entry.text` is how an environment is written into a text of values.

## Key results

- `Expr.eval_tree`: with a table that holds an environment, the parse tree of what is printed
  evaluates as the expression does in the environment
-/

namespace Reckon

/-- The double of an integer. -/
def Binary64.ofInteger (n : Int) : Float :=
  nearest (decide (n < 0)) n.natAbs 1

/-- An integer has a double of its own exactly if it is not too large. -/
theorem Binary64.ofInteger?_eq_some_iff {i : Int} {x : Float} :
    ofInteger? i = some x ↔ i.natAbs ≤ greatestExact ∧ x = ofInteger i := by
  unfold ofInteger? ofInteger
  split
  · next h => simp [h, eq_comm]
  · next h => simp [h]

/-- An integer that a double can hold exactly is a signed 64 bit word. -/
theorem Binary64.fitsWord_of_natAbs_le {i : Int} (h : i.natAbs ≤ greatestExact) :
    fitsWord i = true := by
  unfold greatestExact at h
  unfold fitsWord leastInteger greatestInteger
  rw [Bool.and_eq_true, decide_eq_true_eq, decide_eq_true_eq]
  omega

/-- What an environment gives to an array: a length, and integers to some of the cells. -/
structure Row where
  length : Nat
  cell? : Nat → Option Int
  length_le : length ≤ Values.greatestLength
  lt_length : ∀ {i n}, cell? i = some n → i < length
  exact : ∀ {i n}, cell? i = some n → n.natAbs ≤ Binary64.greatestExact

/-- What scalars and arrays are given. -/
structure Environment where
  scalar? : String → Option Int
  row? : String → Option Row
  exact : ∀ {name n}, scalar? name = some n → n.natAbs ≤ Binary64.greatestExact

/-- The value of a cell: zero if it is given nothing. -/
def Row.value (row : Row) (index : Nat) : Float :=
  match row.cell? index with
  | some n => Binary64.ofInteger n
  | none => 0

namespace Environment

/-- The value of a scalar: zero if it is given nothing. -/
def value (env : Environment) (name : String) : Float :=
  match env.scalar? name with
  | some n => Binary64.ofInteger n
  | none => 0

/-- The value of a cell at a subscript, or the fault of the subscript, which shows at a byte
    offset. The index is the integer part of the number that the subscript denotes, which has to be
    a signed 64 bit word. An array that is given nothing has no length, and all of its cells are
    zero. -/
def read (env : Environment) (name : String) (offset : Nat) (subscript : Float) :
    Except Fault Float :=
  match Binary64.number? subscript with
  | none => .error ⟨offset, .invalidIndex name subscript⟩
  | some q =>
    let index := Binary64.integerPart q
    if index < -2 ^ 63 ∨ 2 ^ 63 ≤ index then .error ⟨offset, .invalidIndex name subscript⟩
    else
      match env.row? name with
      | none =>
        if 0 ≤ index then .ok 0 else .error ⟨offset, .indexOutOfRange name index none⟩
      | some row =>
        if 0 ≤ index ∧ index < row.length then .ok (row.value index.toNat)
        else .error ⟨offset, .indexOutOfRange name index row.length⟩

end Environment

/-- The value of an expression in an environment, with the arithmetic of doubles, or the fault of
    the first subscript that is not valid, from left to right and the inner ones first. The fault
    shows where the name of the array starts, given where the pieces that are printed start by their
    index. -/
def Expr.eval (env : Environment) (offsetOf : Nat → Nat) (index : Nat) : Expr → Except Fault Float
  | literal l => .ok l.value
  | scalar name => .ok (env.value name.text)
  | cell name subscript => do
    let v ← subscript.eval env offsetOf (index + 2)
    env.read name.text (offsetOf index) v
  | binary op left right => do
    let l ← left.eval env offsetOf (leftStart op left index)
    let r ← right.eval env offsetOf (rightStart op left right index)
    match op with
    | .add => return l + r
    | .sub => return l - r
    | .mul => return l * r
    | .div => return l / r

/-! ## Environments in tables -/

/-- Whether a table holds what an environment gives to the names of a list. -/
structure Table.Holds (table : Table) (env : Environment) (uses : List (String × Kind)) :
    Prop where
  scalar : ∀ name, (name, .scalar) ∈ uses → table.scalarValue name = env.value name
  length : ∀ name, (name, .array) ∈ uses →
    (table.cells name).length? = (env.row? name).map Row.length
  cell : ∀ name row, (name, .array) ∈ uses → env.row? name = some row →
    ∀ i, i < row.length → (table.cells name).get? i = some (row.value i)

section

variable {table : Table} {env : Environment} {uses : List (String × Kind)} {name : String}

/-- The cells of an array that is used are those that the environment gives it. An array that it
    gives nothing was never loaded. -/
theorem Table.Holds.get?_eq (h : table.Holds env uses) (hname : (name, .array) ∈ uses) (i : Nat) :
    (table.cells name).get? i =
      match env.row? name with
      | none => some 0
      | some row => if i < row.length then some (row.value i) else none := by
  have hlength := h.length name hname
  cases hrow : env.row? name with
  | none =>
    rw [hrow] at hlength
    cases hcells : table.cells name with
    | unloaded => rfl
    | loaded values => simp [hcells, Cells.length?] at hlength
  | some row =>
    rw [hrow] at hlength
    by_cases hlt : i < row.length
    · simp only [h.cell name row hname hrow i hlt, if_pos hlt]
    · cases hcells : table.cells name with
      | unloaded => simp [hcells, Cells.length?] at hlength
      | loaded values =>
        have hsize : values.size = row.length := by simpa [hcells, Cells.length?] using hlength
        simp [Cells.get?, hsize, hlt]

/-- A cell that is used is read as the environment gives it. -/
theorem Table.Holds.read_eq (h : table.Holds env uses) (hname : (name, .array) ∈ uses)
    (offset : Nat) (subscript : Float) :
    table.read name offset subscript = env.read name offset subscript := by
  have hlength := h.length name hname
  unfold read Environment.read
  rw [Binary64.truncate?_eq]
  cases Binary64.number? subscript with
  | none => rfl
  | some q =>
    simp only [Option.map_some]
    generalize Binary64.integerPart q = index
    by_cases hword : index < -2 ^ 63 ∨ 2 ^ 63 ≤ index
    · have hfits : fitsWord index = false := by
        rw [Bool.eq_false_iff, ne_eq, Binary64.fitsWord_iff]
        omega
      simp only [Option.filter_some, hfits, if_pos hword, Bool.false_eq_true, ↓reduceIte]
    · have hfits : fitsWord index = true := by
        rw [Binary64.fitsWord_iff]
        omega
      simp only [Option.filter_some, hfits, if_neg hword, ↓reduceIte]
      cases index with
      | negSucc i =>
        -- a negative index is out of range, whatever the array has been given
        have hneg : ¬(0 : Int) ≤ Int.negSucc i := by omega
        have hnat : (Int.negSucc i).toNat? = none := rfl
        rw [hnat, Option.bind_none, hlength]
        cases env.row? name with
        | none => simp only [if_neg hneg, Option.map_none]
        | some row => simp only [hneg, false_and, ↓reduceIte, Option.map_some]
      | ofNat i =>
        have hnonneg : (0 : Int) ≤ Int.ofNat i := Int.natCast_nonneg i
        have hnat : (Int.ofNat i).toNat? = some i := rfl
        rw [hnat, Option.bind_some, h.get?_eq hname, hlength]
        cases env.row? name with
        | none => simp only [if_pos hnonneg]
        | some row => by_cases hlt : i < row.length <;> simp [hlt]

/-- The parse tree of what is printed evaluates as the expression does. -/
theorem Expr.eval_tree (h : table.Holds env uses) (e : Expr) (he : ∀ u ∈ e.uses, u ∈ uses)
    (offsetOf : Nat → Nat) (index : Nat) :
    (e.tree offsetOf index).eval table = e.eval env offsetOf index := by
  have hgroup : ∀ brackets t, (group brackets t).eval table = t.eval table := by
    intro brackets t
    cases brackets <;> rfl
  -- Induction on the expression, with the names of the whole of it, which the table holds.
  induction e generalizing index with
  | literal l => rfl
  | scalar name =>
    rw [tree, Tree.eval, eval, h.scalar _ (he _ (by simp [Expr.uses]))]
  | cell name subscript ih =>
    have hsub : ∀ u ∈ subscript.uses, u ∈ uses := fun u hu => he u (by simp [Expr.uses, hu])
    have hname : (name.text, .array) ∈ uses := he _ (by simp [Expr.uses])
    simp only [tree, Tree.eval, eval, ih hsub, h.read_eq hname]
  | binary op left right ihl ihr =>
    have hleft : ∀ u ∈ left.uses, u ∈ uses := fun u hu => he u (by simp [Expr.uses, hu])
    have hright : ∀ u ∈ right.uses, u ∈ uses := fun u hu => he u (by simp [Expr.uses, hu])
    cases op <;> simp only [tree, Tree.eval, eval, hgroup, ihl hleft, ihr hright, Operator.apply]

end

/-! ## Environments in a text -/

namespace Values

/-- A line of a text of values. -/
inductive Entry where
  | scalar (name : String) (value : Int)
  | array (name : String) (length : Nat) (pairs : List (Nat × Int))

namespace Entry

/-- The name that an entry is about. -/
def name : Entry → String
  | scalar name _ => name
  | array name _ _ => name

/-- The text of a pair of an index and a value. -/
def pairText (pair : Nat × Int) : String :=
  " (" ++ toString pair.1 ++ "," ++ toString pair.2 ++ ")"

/-- The line of an entry: `name value`, or `name length (index,value) ...`. -/
def text : Entry → String
  | scalar name value => name ++ " " ++ toString value
  | array name length pairs => name ++ " " ++ toString length ++ String.join (pairs.map pairText)

end Entry

/-- The text of a row of entries, each on a line of its own. -/
def Entry.texts (entries : List Entry) : String :=
  String.join (entries.map fun entry => entry.text ++ "\n")

end Values

/-- Whether entries list what an environment gives, each name on one line and each cell in one
    pair, in any order. -/
structure Environment.ListedBy (env : Environment) (entries : List Values.Entry) : Prop where
  nodup : (entries.map Values.Entry.name).Nodup
  scalar_mem_iff : ∀ name n, .scalar name n ∈ entries ↔ env.scalar? name = some n
  array_mem : ∀ name row, env.row? name = some row → ∃ pairs, .array name row.length pairs ∈ entries
  of_array_mem : ∀ name length pairs, .array name length pairs ∈ entries →
    ∃ row, env.row? name = some row ∧ row.length = length ∧ (pairs.map Prod.fst).Nodup ∧
      ∀ i n, (i, n) ∈ pairs ↔ row.cell? i = some n

end Reckon
