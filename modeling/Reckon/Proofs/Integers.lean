import Reckon.Proofs.Nearest
import Reckon.Proofs.Refusal
import Reckon.Proofs.RoundTrip
import Reckon.Proofs.Subscripts

/-!
# Integers that doubles hold

An integer is loaded only if it has a double of its own, which then denotes exactly this integer.
The integer part of the double is the integer again, so that a loaded integer, used as a subscript,
is the index that the values line says.

## Key results

- `Binary64.truncate?_ofInteger`: an integer is the integer part of its double
- `Values.Source.at?_load`: where a loaded integer is found
- `exact_integer_spec`: an integer from a values line to a subscript
-/

namespace Reckon

namespace Binary64

variable {i j : Int}

/-! ## Words -/

/-- The absolute value of a word, taken as an unsigned word, does not overflow. The least word is
    its own absolute value, and it is the unsigned reading that makes it right. -/
theorem toNat_toUInt64_abs (n : Int64) : n.abs.toUInt64.toNat = n.toInt.natAbs := by
  show n.toBitVec.abs.toNat = n.toBitVec.toInt.natAbs
  have hlt := n.toBitVec.isLt
  rw [BitVec.toNat_abs, BitVec.toInt_eq_msb_cond]
  split <;> omega

theorem natAbs_le_greatestExact_iff :
    i.natAbs ≤ greatestExact ↔ -(2 ^ 53 - 1) ≤ i ∧ i ≤ 2 ^ 53 - 1 := by
  rw [greatestExact]
  omega

/-! ## Doubles of integers -/

/-- The double of an integer denotes this integer. -/
theorem number?_ofInteger (h : i.natAbs ≤ greatestExact) :
    number? (ofInteger i) = some (i : ℚ) := by
  rw [ofInteger, number?_nearest _ h, Option.some.injEq]
  cases i with
  | ofNat n => simp
  | negSucc n => simp [Int.negSucc_lt_zero, Int.cast_negSucc]

theorem integerPart_intCast (i : Int) : integerPart (i : ℚ) = i := by
  unfold integerPart
  split
  · exact Int.floor_intCast i
  · exact Int.ceil_intCast i

/-- An integer is the integer part of its double. -/
theorem truncate?_ofInteger (h : i.natAbs ≤ greatestExact) :
    truncate? (ofInteger i) = some i := by
  have hfits := fitsWord_iff.mp (fitsWord_of_natAbs_le h)
  exact truncate?_eq_some_iff.mpr ⟨i, number?_ofInteger h, integerPart_intCast i, hfits⟩

/-- The doubles of two integers compare equal only if the integers are. -/
theorem beq_ofInteger_iff (hi : i.natAbs ≤ greatestExact) (hj : j.natAbs ≤ greatestExact) :
    ofInteger i == ofInteger j ↔ i = j := by
  constructor
  · intro h
    have hnumber := number?_eq_of_beq h
    rw [number?_ofInteger hi, number?_ofInteger hj, Option.some.injEq] at hnumber
    exact Int.cast_injective hnumber
  · rintro rfl
    exact beq_self_of_number? (number?_ofInteger hi)

end Binary64

/-! ## Integers in values lines -/

/-- Where a table keeps a number. -/
inductive Place where
  /-- The value of a scalar. -/
  | scalar (name : String)
  /-- A cell of an array. -/
  | cell (name : String) (index : Nat)

/-- The symbol that a place belongs to. -/
def Place.symbol : Place → String
  | scalar name => name
  | cell name _ => name

/-- The number at a place, if there is such a place. -/
def Table.at? (table : Table) : Place → Option Float
  | .scalar name => table.scalars.get? name
  | .cell name index => (table.cells name).get? index

namespace Values

namespace Line

variable {kind? : String → Option Kind} {line name : String} {n : Int}

/-- Whether a line is accepted and gives an integer to a place; to a cell, by the last of its pairs
    that is about it. -/
inductive Stores (kind? : String → Option Kind) (line : String) : Place → Int → Prop
  | scalar {name : String} {n : Int} {x : Float}
      (hread : read kind? line = .ok (.sets (.scalar name x)))
      (hscan : Token.scan line = .ok #[.name name, .integer n]) :
      Stores kind? line (.scalar name) n
  | cell {name : String} {length index : Nat} {n : Int} {before after : List Token}
      {pairs earlier later : List (Nat × Float)}
      (hread : read kind? line = .ok (.sets (.array name length pairs)))
      (hscan : Token.scan line = .ok (.name name :: .integer length :: (before ++
        .opening :: .integer index :: .comma :: .integer n :: .closing :: after)).toArray)
      (hbefore : Token.Groups length before earlier) (hafter : Token.Groups length after later)
      (hlast : ∀ x, (index, x) ∉ later) :
      Stores kind? line (.cell name index) n

/-- Whether the last accepted line about a symbol gives an integer to a place that belongs to
    it. -/
def Leaves (kind? : String → Option Kind) (lines : List String) (place : Place) (n : Int) : Prop :=
  ∃ earlier line later, lines = earlier ++ line :: later ∧ Stores kind? line place n ∧
    ∀ l ∈ later, settingOf? kind? place.symbol l = none

/-- A scalar is set to the double of the integer that is stored. -/
theorem Stores.settingOf?_scalar (h : Stores kind? line (.scalar name) n) :
    ∃ x, Binary64.ofInteger? n = some x ∧
      settingOf? kind? name line = some (.scalar name x) := by
  cases h with
  | @scalar _ _ x hread hscan =>
    have hword : word? line = some name := (of_read_eq_sets hread).1
    have hkind : kind? name = some .scalar := (of_read_eq_sets hread).2
    obtain ⟨y, ⟨token, hscan', hy⟩, hset⟩ := (read_scalar_iff hword hkind).mp hread
    -- the only token after the name is the integer
    obtain rfl : .integer n = token := by simpa using hscan.symm.trans hscan'
    obtain rfl : x = y := by simpa using hset
    exact ⟨x, Token.denotes_integer_iff.mp hy, (settingOf?_of_sets hread).trans (if_pos rfl)⟩

/-- An array is set to pairs, of which the last about the cell has the double of the integer that is
    stored. -/
theorem Stores.settingOf?_cell {index : Nat} (h : Stores kind? line (.cell name index) n) :
    ∃ x, Binary64.ofInteger? n = some x ∧ ∃ length earlier later, index < length ∧
      (∀ y, (index, y) ∉ later) ∧
      settingOf? kind? name line = some (.array name length (earlier ++ (index, x) :: later)) := by
  cases h with
  | @cell _ length _ _ before after new earlier later hread hscan hbefore hafter hlast =>
    have hword : word? line = some name := (of_read_eq_sets hread).1
    have hkind : kind? name = some .array := (of_read_eq_sets hread).2
    obtain ⟨length', new', ⟨groups, hscan', -, hgroups⟩, hset⟩ :=
      (read_array_iff hword hkind).mp hread
    obtain ⟨rfl, rfl⟩ : length = length' ∧ before ++ .opening :: .integer index :: .comma ::
        .integer n :: .closing :: after = groups := by simpa using hscan.symm.trans hscan'
    obtain rfl : new = new' := by simpa using hset
    -- the groups are read one after the other: those before, the one about the cell, those after
    have hpairs : Line.pairs name length #[] _ = .ok _ := pairs_of_groups hgroups #[]
    rw [pairs_append hbefore, pairs] at hpairs
    obtain ⟨i, hi, hpairs⟩ := bind_eq_ok_iff.mp hpairs
    obtain ⟨x, hx, hpairs⟩ := bind_eq_ok_iff.mp hpairs
    obtain ⟨hindex, hlt⟩ := index_eq_ok_iff.mp hi
    obtain rfl : index = i := by simpa using hindex
    rw [pairs_of_groups hafter] at hpairs
    obtain rfl : earlier ++ (index, x) :: later = new := by simpa using hpairs
    exact ⟨x, Token.denotes_integer_iff.mp (number_eq_ok_iff.mp hx), length, earlier, later, hlt,
      hlast, (settingOf?_of_sets hread).trans (if_pos rfl)⟩

/-- What a line sets a symbol to is what is left, if no later line is accepted for it. -/
theorem last?_of_last (earlier : List String) {later : List String} {s : Setting}
    (h : settingOf? kind? name line = some s)
    (hlater : ∀ l ∈ later, settingOf? kind? name l = none) :
    last? kind? (earlier ++ line :: later) name = some s := by
  have hnone : later.reverse.findSome? (settingOf? kind? name) = none := by
    simpa using hlater
  rw [last?, List.reverse_append, List.reverse_cons, List.append_assoc, List.findSome?_append,
    hnone]
  simp [h]

end Line

/-- The double of an integer is where the last accepted line about the symbol leaves it. -/
theorem Source.at?_load {source : Source} {t : Table} {place : Place} {n : Int}
    (h : Line.Leaves t.kind? source.read.lines place n) (log : Log) :
    ∃ x, Binary64.ofInteger? n = some x ∧ (source.load t log).1.table.at? place = some x := by
  obtain ⟨earlier, line, later, hlines, hstores, hlater⟩ := h
  rw [load_table, hlines]
  cases place with
  | scalar name =>
    obtain ⟨x, hx, hline⟩ := hstores.settingOf?_scalar
    have hlast := Line.last?_of_last earlier hline hlater
    obtain ⟨old, hold⟩ := Table.exists_scalar_of_kind? (Line.kind_of_settingOf? hline)
    refine ⟨x, hx, ?_⟩
    rw [Table.at?, Table.overwrite, Bindings.get?_mapValues, hold, hlast]
    rfl
  | cell name index =>
    obtain ⟨x, hx, length, before, after, hlt, hnot, hline⟩ := hstores.settingOf?_cell
    have hlast := Line.last?_of_last earlier hline hlater
    refine ⟨x, hx, ?_⟩
    rw [Table.at?, Table.cells_overwrite (Line.kind_of_settingOf? hline), hlast]
    exact Setting.get?_cellsOf_of_last hlt hnot

end Values

/-! ## Integers as subscripts -/

open Binary64 Values

/-- Whether a result is what an array gives at an index. A negative index is out of range, and so is
    one that is not below the length of a loaded array; else it is the cell at this very index, or
    zero if the array is absent or was never loaded. -/
structure Table.Addresses (table : Table) (name : String) (offset : Nat) (index : Int)
    (result : Except Fault Float) : Prop where
  outOfRange : result = .error ⟨offset, .indexOutOfRange name index (table.cells name).length?⟩ ↔
    index < 0 ∨ ∃ length : Nat, (table.cells name).length? = some length ∧ length ≤ index
  loaded : ∀ values, table.cells name = .loaded values → ∀ i, ∀ hi : i < values.size,
    index = i → result = .ok values[i]
  unloaded : table.cells name = .unloaded → 0 ≤ index → result = .ok 0

/-- A subscript addresses its integer part. -/
theorem Table.addresses_read {table : Table} {name : String} {offset : Nat} {subscript : Float}
    {index : Int} (h : truncate? subscript = some index) :
    table.Addresses name offset index (table.read name offset subscript) where
  outOfRange := read_eq_indexOutOfRange_iff h
  loaded values hcells i hi hindex := read_loaded hcells hi (hindex ▸ h)
  unloaded hcells hnonneg := by
    obtain ⟨i, rfl⟩ := Int.eq_ofNat_of_zero_le hnonneg
    exact read_unloaded hcells h

/-- A name with a subscript that has been evaluated addresses the integer part of it. -/
theorem Evaluation.addresses_operand {e : Evaluation} {room index stop first last offset : Nat}
    {h : stop ≤ e.tokens.size} {name : String} {s : Float} {i : Int} (hlt : index < stop)
    (htok : e.tokens[index]? = some ⟨.name name, offset⟩)
    (hopens : e.opensSubscript (index + 1) stop h)
    (hpair : Bracket.square.pairWithin e.tokens (index + 1) stop h = .ok (first, last))
    (hsub : (e.evalSpan room (index + 2) (index + 1 + last)).result = .ok s)
    (hs : truncate? s = some i) :
    e.table.Addresses name offset i
      ((e.operand (some (e.evalSpan room)) index stop h hlt).result.map Operand.value) := by
  have hvalue : (e.operand (some (e.evalSpan room)) index stop h hlt).result.map Operand.value =
      e.table.read name offset s := by
    rw [operand_cell_result hlt htok hopens hpair hsub]
    cases e.table.read name offset s <;> rfl
  rw [hvalue]
  exact Table.addresses_read hs

/-- A text that is an array with a scalar for its subscript reads the cell at the value of this
    scalar. -/
theorem evaluate_subscript {text array name : String} {o₁ o₂ o₃ o₄ : Nat}
    (htokens : (Token.scan text).toList = [⟨.name array, o₁⟩, ⟨.bracket .square .opening, o₂⟩,
      ⟨.name name, o₃⟩, ⟨.bracket .square .closing, o₄⟩]) (t : Table) :
    evaluate text t = t.read array o₁ (t.scalarValue name) := by
  have hscalar : Derives .sum [⟨.name name, o₃⟩] (.scalar name) :=
    .single nofun (.single nofun (.scalar name o₃))
  have hderives : Derives .sum (Token.scan text).toList (.cell array o₁ (.scalar name)) := by
    rw [htokens]
    exact .single nofun (.single nofun (.cell array o₁ o₂ o₄ hscalar))
  have hdepth : (Tree.cell array o₁ (.scalar name)).depth ≤ greatestDepth := by
    show 1 ≤ greatestDepth
    decide
  rw [evaluate_of_derives hderives hdepth]
  rfl

/-- A word has a double exactly if its magnitude is below `2 ^ 53`, which is found out without an
    overflow, even for the least word. The double denotes the word, it is different from those of
    all other words, and its integer part is the word again. So where the last accepted line about a
    symbol leaves an integer, there is the double of this integer, and as a subscript, wherever in
    an expression, it addresses the cell at this very index. -/
theorem exact_integer_spec :
    (∀ n : Int64, n.abs.toUInt64.toNat = n.toInt.natAbs ∧
      ((∃ x, ofInteger? n.toInt = some x) ↔ n.abs.toUInt64 ≤ 0x1FFFFFFFFFFFFF) ∧
      ((∃ x, ofInteger? n.toInt = some x) ↔ -(2 ^ 53 - 1) ≤ n.toInt ∧ n.toInt ≤ 2 ^ 53 - 1) ∧
      ∀ x, ofInteger? n.toInt = some x →
        number? x = some (n.toInt : ℚ) ∧ truncate? x = some n.toInt ∧
        ∀ (m : Int64) (y : Float), ofInteger? m.toInt = some y → (x == y ↔ n = m)) ∧
    (Int64.minValue.abs.toUInt64 = 0x8000000000000000 ∧
      ofInteger? Int64.minValue.toInt = none) ∧
    ∀ (t : Table) (source : Source) (log : Log) (place : Place) (n : Int),
      Line.Leaves t.kind? source.read.lines place n →
      let loaded := (source.load t log).1.table
      ∃ x, ofInteger? n = some x ∧ loaded.at? place = some x ∧
        (∀ (e : Evaluation) (room index stop first last offset : Nat) (array : String)
          (h : stop ≤ e.tokens.size) (hlt : index < stop), e.table = loaded →
          e.tokens[index]? = some ⟨.name array, offset⟩ → e.opensSubscript (index + 1) stop h →
          Bracket.square.pairWithin e.tokens (index + 1) stop h = .ok (first, last) →
          (e.evalSpan room (index + 2) (index + 1 + last)).result = .ok x →
          loaded.Addresses array offset n
            ((e.operand (some (e.evalSpan room)) index stop h hlt).result.map Operand.value)) ∧
        ∀ (name array text : String) (o₁ o₂ o₃ o₄ : Nat), place = .scalar name →
          (Token.scan text).toList = [⟨.name array, o₁⟩, ⟨.bracket .square .opening, o₂⟩,
            ⟨.name name, o₃⟩, ⟨.bracket .square .closing, o₄⟩] →
          loaded.Addresses array o₁ n (evaluate text loaded) := by
  have hdouble : ∀ i : Int, (∃ x, ofInteger? i = some x) ↔ i.natAbs ≤ greatestExact := by
    simp [ofInteger?_eq_some_iff]
  refine ⟨fun n => ⟨toNat_toUInt64_abs n, ?_, ?_, ?_⟩, ⟨by decide, by decide +kernel⟩, ?_⟩
  · rw [hdouble, UInt64.le_iff_toNat_le, toNat_toUInt64_abs]
    rfl
  · rw [hdouble, natAbs_le_greatestExact_iff]
  · intro x hx
    obtain ⟨hn, rfl⟩ := ofInteger?_eq_some_iff.mp hx
    refine ⟨number?_ofInteger hn, truncate?_ofInteger hn, fun m y hy => ?_⟩
    obtain ⟨hm, rfl⟩ := ofInteger?_eq_some_iff.mp hy
    rw [beq_ofInteger_iff hn hm, Int64.toInt_inj]
  · intro t source log place n hleaves loaded
    obtain ⟨x, hx, hat⟩ := Source.at?_load hleaves log
    obtain ⟨hn, rfl⟩ := ofInteger?_eq_some_iff.mp hx
    have hindex : truncate? (Binary64.ofInteger n) = some n := truncate?_ofInteger hn
    refine ⟨_, hx, hat, ?_, ?_⟩
    · intro e room index stop first last offset array h hlt htable htok hopens hpair hsub
      rw [← htable]
      exact Evaluation.addresses_operand hlt htok hopens hpair hsub hindex
    · rintro name array text o₁ o₂ o₃ o₄ rfl htokens
      have hscalar : loaded.scalarValue name = Binary64.ofInteger n := by
        have hget : loaded.scalars.get? name = some (Binary64.ofInteger n) := hat
        rw [Table.scalarValue, hget, Option.getD_some]
      rw [evaluate_subscript htokens, hscalar]
      exact Table.addresses_read hindex

/-- The least integer that is held exactly. A scalar that keeps its first value, as the second is
    too large, and a cell that is given two values by one line, as subscripts of an array. -/
theorem exact_integer_spec_loaded :
    let t : Table :=
      { scalars := ⟨[("x", 0)]⟩, arrays := ⟨[("A", .loaded #[7, 8]), ("B", .unloaded)]⟩ }
    let text := "x 1\nB 2 (1,5) (1,-3)\nx 9007199254740992"
    let loaded := ((Source.ofText text).load t #[]).1.table
    let e : Evaluation := { Formula.ofText "A[B[1]]" with table := loaded }
    (∃ x y, ofInteger? (-9007199254740991) = some x ∧ number? x = some (-9007199254740991) ∧
      truncate? x = some (-9007199254740991) ∧
      ofInteger? (-9007199254740990) = some y ∧ (x == y) = false) ∧
    evaluate "A[x]" loaded = .ok 8 ∧
    ∃ h : 7 ≤ e.tokens.size,
      (e.operand (some (e.evalSpan 8)) 0 7 h (by decide)).result.map Operand.value =
        .error ⟨0, .indexOutOfRange "A" (-3) (some 2)⟩ := by
  intro t text
  obtain ⟨hwords, -, hloads⟩ := exact_integer_spec
  have hlines : (Source.ofText text).read.lines =
      ["x 1", "B 2 (1,5) (1,-3)", "x 9007199254740992"] := by
    rw [Source.read_ofText]
    decide +kernel
  have hscalar : Line.Leaves t.kind? (Source.ofText text).read.lines (.scalar "x") 1 := by
    have hread : Line.read t.kind? "x 1" = .ok (.sets (.scalar "x" (Binary64.ofInteger 1))) := by
      with_unfolding_all rfl
    refine ⟨[], _, _, hlines, .scalar hread (by with_unfolding_all rfl), ?_⟩
    simp only [List.forall_mem_cons, ← Option.isNone_iff_eq_none]
    decide +kernel
  have hcell : Line.Leaves t.kind? (Source.ofText text).read.lines (.cell "B" 1) (-3) := by
    have hread : Line.read t.kind? "B 2 (1,5) (1,-3)" = .ok (.sets (.array "B" 2
        [(1, Binary64.ofInteger 5), (1, Binary64.ofInteger (-3))])) := by
      with_unfolding_all rfl
    have hbefore : Token.Groups 2 [.opening, .integer (1 : Nat), .comma, .integer 5, .closing] _ :=
      .cons (by decide) (.integer 5 (by decide)) .nil
    refine ⟨["x 1"], _, _, hlines, .cell hread (by with_unfolding_all rfl) hbefore .nil nofun, ?_⟩
    simp only [List.forall_mem_cons, ← Option.isNone_iff_eq_none]
    decide +kernel
  have hcells : ((Source.ofText text).load t #[]).1.table.cells "A" = .loaded #[7, 8] := by
    have hnone : Line.last? t.kind? (Source.ofText text).read.lines "A" = none := by
      rw [hlines]
      exact Option.isNone_iff_eq_none.mp (by decide +kernel)
    rw [Source.load_table, Table.cells_overwrite rfl, hnone]
    rfl
  obtain ⟨_, -, -, -, htext⟩ := hloads t (.ofText text) #[] _ _ hscalar
  obtain ⟨_, ⟨⟩, -, hoperand, -⟩ := hloads t (.ofText text) #[] _ _ hcell
  have hsub : (Evaluation.evalSpan { Formula.ofText "A[B[1]]" with
      table := ((Source.ofText text).load t #[]).1.table } 8 2 6).result =
        .ok (Binary64.ofInteger (-3)) := toOption_eq_some_iff.mp (by decide +kernel)
  -- the loaded table is not looked into any more, so that nothing below evaluates it
  generalize ((Source.ofText text).load t #[]).1.table = loaded at htext hoperand hcells hsub ⊢
  intro _ e
  refine ⟨?_, ?_, ?_⟩
  · obtain ⟨x, hx⟩ : ∃ x, ofInteger? (-9007199254740991) = some x := ⟨_, rfl⟩
    obtain ⟨y, hy⟩ : ∃ y, ofInteger? (-9007199254740990) = some y := ⟨_, rfl⟩
    obtain ⟨-, -, -, hword⟩ := hwords (-9007199254740991)
    obtain ⟨hnumber, hpart, hdifferent⟩ := hword x hx
    refine ⟨x, y, hx, ?_, hpart, hy, ?_⟩
    · rw [hnumber]
      rfl
    · rw [Bool.eq_false_iff, ne_eq, hdifferent (-9007199254740990) y hy]
      decide
  · have htokens : (Token.scan "A[x]").toList = [⟨.name "A", 0⟩, ⟨.bracket .square .opening, 1⟩,
        ⟨.name "x", 2⟩, ⟨.bracket .square .closing, 3⟩] := by with_unfolding_all rfl
    exact (htext "x" "A" "A[x]" 0 1 2 3 rfl htokens).loaded _ hcells 1 (by decide) rfl
  · have hsize : 7 ≤ (Token.scan "A[B[1]]").size := by decide +kernel
    have htok : (Token.scan "A[B[1]]")[0]? = some ⟨.name "A", 0⟩ := by with_unfolding_all rfl
    have hpair : Bracket.square.pairWithin (Token.scan "A[B[1]]") 1 7 hsize = .ok (0, 5) := by
      with_unfolding_all rfl
    have hopens : e.opensSubscript 1 7 hsize := by
      with_unfolding_all rfl
    have houtside := (hoperand e 8 0 7 0 5 0 "A" hsize (by decide) rfl htok hopens hpair
      hsub).outOfRange.mpr (Or.inl (by decide))
    rw [hcells] at houtside
    exact ⟨hsize, houtside⟩

end Reckon
