import Reckon.Proofs.LongestMatch
import Reckon.Proofs.Nearest
import Reckon.Proofs.RoundTrip

/-!
# Literals in expressions and in values

A literal is read in two ways. In an expression, it is the double nearest to the number that it
spells. In a values line, it is this double only if it has a point; without one it is read as a
signed 64 bit word, and is refused unless a double can hold that exactly. The two agree wherever the
second one gives a value, and a minus before the literal changes the sign and nothing else, except
that an integer of value zero has no sign to lose.

## Key results

- `Values.Lexeme.denotes_numeral_iff`: which number a literal gives to a scalar
- `Values.Loaded.load_negated`: a literal with a minus and without it in a values line
- `value_loaded_literal`: a literal in a values line and in an expression
-/

namespace Reckon

open Binary64 Computability

/-! ## The doubles of numerals -/

namespace Numeral

/-- Without a power of ten, the double is the one nearest to the natural number. -/
theorem nearestDecimal_zero (negative : Bool) (digits : Nat) :
    nearestDecimal negative digits 0 = nearest negative digits 1 := by
  unfold nearestDecimal
  by_cases hzero : digits = 0
  · rw [if_pos (Or.inl hzero), hzero]
    rfl
  · -- a natural number has no negative exponent, so it is not too small
    have hsmall : ¬(digits = 0 ∨ (0 : Int) + digits.log2 < -400) := by omega
    have hlarge : ¬(400 : Int) < 0 := by decide
    rw [if_neg hsmall, if_neg hlarge]
    simp [nearest]

/-- The double of an integer, without a detour over signed words. -/
theorem value_of_isInteger {n : Numeral} (hn : n.Spelled) (hinteger : n.isInteger)
    (negative : Bool) : n.value negative = nearest negative n.toNat 1 := by
  rcases hn.integer_or_real with ⟨digits, rfl, -⟩ | ⟨whole, ds, scale, rfl, -⟩
  · rw [toNat, ← nearestDecimal_zero]
    simp [value, powerOf]
  · exact absurd hinteger Bool.false_ne_true

/-- The sign of a numeral does not change the bits of its magnitude. -/
theorem exists_value_eq_withSign (n : Numeral) :
    ∃ magnitude ≤ infinityBits, ∀ negative, n.value negative = withSign negative magnitude := by
  unfold value nearestDecimal
  dsimp only
  split
  · exact ⟨0, Nat.zero_le _, fun _ => rfl⟩
  · split
    · exact ⟨infinityBits, Nat.le_refl _, fun _ => rfl⟩
    · exact ⟨_, magnitudeBits_le_infinityBits _ _, fun _ => rfl⟩

/-- A minus before a numeral changes the sign bit and nothing else. -/
theorem toBits_value_true (n : Numeral) :
    (n.value true).toBits = (n.value false).toBits ^^^ 0x8000000000000000 := by
  obtain ⟨magnitude, hle, hvalue⟩ := n.exists_value_eq_withSign
  rw [hvalue, hvalue, toBits_withSign_true hle]

/-- Whether a numeral is an integer of value zero, which as a word has no sign. -/
def isZero (n : Numeral) : Bool :=
  n.isInteger && n.toNat == 0

/-- The integers among the numerals are spelled as rows of digits. -/
theorem Spelled.isInteger_iff {n : Numeral} (h : n.Spelled) :
    n.isInteger ↔ n.text ∈ digit * digit∗ := by
  constructor
  · exact fun hinteger => mem_digits_iff_spelled.mpr ⟨n, h, hinteger, rfl⟩
  · intro hmem
    obtain ⟨m, hm, hinteger, htext⟩ := mem_digits_iff_spelled.mp hmem
    -- a text spells one numeral only
    have hfirst := hm.first?_text
    rw [htext, h.first?_text] at hfirst
    rwa [Option.some.inj hfirst]

theorem Spelled.toNat_eq_placeValue {n : Numeral} (h : n.Spelled) (hinteger : n.isInteger) :
    n.toNat = placeValue n.text := by
  rcases h.integer_or_real with ⟨digits, rfl, -⟩ | ⟨whole, ds, scale, rfl, -⟩
  · simp [toNat, ofDigits_eq_placeValue, text]
  · exact absurd hinteger Bool.false_ne_true

/-- The integers of value zero are the rows of digits of value zero. -/
theorem Spelled.isZero_iff {n : Numeral} (h : n.Spelled) :
    n.isZero ↔ n.text ∈ digit * digit∗ ∧ placeValue n.text = 0 := by
  rw [isZero, Bool.and_eq_true, beq_iff_eq, ← h.isInteger_iff]
  exact and_congr_right fun hinteger => by rw [h.toNat_eq_placeValue hinteger]

/-- An integer of value zero is the zero without a sign. -/
theorem Spelled.toBits_value_of_isZero {n : Numeral} (h : n.Spelled) (hzero : n.isZero) :
    (n.value false).toBits = 0 := by
  obtain ⟨hinteger, hzero⟩ := Bool.and_eq_true_iff.mp hzero
  rw [value_of_isInteger h hinteger, beq_iff_eq.mp hzero]
  decide +kernel

theorem Plain.spelled {n : Numeral} (h : n.Plain) : n.Spelled where
  whole := h.whole
  fraction := h.fraction
  digits hempty := h.digits (by simp [hempty.1, hempty.2])
  scale := Or.inl h.scale

end Numeral

/-! ## Literals in values lines -/

namespace Values

/-- The number that a lexeme gives to a scalar, if it gives one. -/
def Lexeme.Denotes (l : Lexeme) (x : Float) : Prop :=
  ∃ token, l.token? = some token ∧ token.Denotes x

/-- A literal gives a scalar the double of its numeral, unless it is an integer too large to be held
    exactly. Only the sign of an integer of value zero is lost. -/
theorem Lexeme.denotes_numeral_iff {n : Numeral} (hn : n.Spelled) (negative : Bool) {x : Float} :
    (numeral negative n).Denotes x ↔
      (n.isInteger → n.toNat ≤ greatestExact) ∧ x = n.value (negative && !n.isZero) := by
  cases hinteger : n.isInteger with
  | false =>
    have htoken : (numeral negative n).token? = some (.real (n.value negative)) := by
      simp [token?, hinteger]
    simp only [Denotes, htoken, Option.some.injEq, exists_eq_left', Numeral.isZero, hinteger,
      Bool.false_and, Bool.not_false, Bool.and_true, Bool.false_eq_true, false_imp_iff, true_and]
    constructor
    · rintro ⟨⟩
      rfl
    · rintro rfl
      exact .real _
  | true =>
    -- the word is read from the digits, and is the double of the numeral but for the sign of zero
    obtain ⟨i, hi⟩ : ∃ i : Int, i = if negative then -(n.toNat : Int) else n.toNat := ⟨_, rfl⟩
    have habs : i.natAbs = n.toNat := by
      cases negative <;> simp [hi]
    have hsign : decide (i < 0) = (negative && !n.isZero) := by
      rw [Bool.eq_iff_iff]
      cases negative <;> simp [hi, Numeral.isZero, hinteger, Nat.pos_iff_ne_zero]
    have hvalue : Binary64.ofInteger i = n.value (negative && !n.isZero) := by
      rw [Binary64.ofInteger, habs, hsign, Numeral.value_of_isInteger hn hinteger]
    have htoken : (numeral negative n).token? =
        if fitsWord i then some (.integer i) else none := by
      simp only [token?, hinteger, ↓reduceIte, hi]
    simp only [Denotes, htoken, forall_const, ← hvalue, ← habs]
    constructor
    · rintro ⟨token, htoken, hx⟩
      split at htoken
      · obtain rfl := Option.some.inj htoken
        cases hx with
        | integer _ hexact => exact ⟨hexact, rfl⟩
      · contradiction
    · rintro ⟨hexact, rfl⟩
      -- what a double holds exactly is a word
      exact ⟨.integer i, if_pos (fitsWord_of_natAbs_le hexact), .integer i hexact⟩

/-- A line with a name and a lexeme is scanned into the two, unless the lexeme is no token. -/
theorem Token.scan_name_lexeme {line : String} {name : Identifier} {l : Lexeme} (hl : l.Spelled)
    (hline : line.toList = name.text.toList ++ ' ' :: l.text) :
    scan line = match l.token? with
      | none => .error (String.ofList l.text)
      | some token => .ok #[.name name.text, token] := by
  -- the lexeme is the longest one where it starts, as nothing comes after it
  have hfirst : Lexeme.first? (l.text ++ []) = some l := by
    rw [List.append_nil]
    exact hl.first?_text
  obtain ⟨m, hm, htext, hscan⟩ := scan_go_longest (Lexeme.longest_of_first? hfirst)
  obtain rfl := hm.eq_of_text hl htext
  have hgo := hscan (#[].push (.name name.text))
  rw [List.append_nil] at hgo
  rw [scan, hline, scan_go_name name (by simp), scan_go_blank rfl, hgo]
  cases m.token? with
  | none => rfl
  | some token => simp [scan.go]

end Values

/-- A scalar has the value that it is given. -/
theorem Table.scalarValue_setScalar {t : Table} {name : String} (h : t.kind? name = some .scalar)
    (x : Float) : (t.setScalar name x).scalarValue name = x := by
  rw [scalarValue, (gives_setScalar h x).get?, if_pos rfl, Option.getD_some]

namespace Values.Loaded

variable {t : Table} {name : Identifier} {line : String} {l : Lexeme}

/-- A line with the name of a scalar and a lexeme is accepted exactly if the lexeme denotes a
    number, and then gives this number to the scalar. -/
theorem load_name_lexeme (hkind : t.kind? name.text = some .scalar) (hl : l.Spelled)
    (hline : line.toList = name.text.toList ++ ' ' :: l.text) (number : Nat) (log : Log) :
    let loaded := (load { table := t } number line log).1
    (loaded.errors = #[] ↔ ∃ x, l.Denotes x) ∧
      ∀ x, l.Denotes x → loaded = { table := t.setScalar name.text x } := by
  intro loaded
  have hword : Line.word? line = some name.text := Entry.word?_of_name hline
  have hgives : ∀ x, Line.GivesScalar line name.text x ↔ l.Denotes x := by
    intro x
    unfold Line.GivesScalar Lexeme.Denotes
    rw [Token.scan_name_lexeme hl hline]
    cases l.token? <;> simp
  constructor
  · rw [errors_load_eq_empty_iff]
    simp [Line.read_scalar_iff hword hkind, hgives]
  · intro x hx
    exact load_of_sets ((Line.read_scalar_iff hword hkind).mpr ⟨x, (hgives x).mpr hx, rfl⟩)

/-- A literal with a minus before it is accepted exactly if it is accepted without, and then the
    scalar has the same value but for the sign bit. An integer of value zero is zero with a minus,
    too, as a signed word has only one zero. -/
theorem load_negated (name : Identifier) (hkind : t.kind? name.text = some .scalar)
    {literal : String}
    (hliteral : literal.toList ∈ Numeral.realLanguage + Numeral.digit * Numeral.digit∗)
    (number : Nat) (log : Log) :
    let plain := (load { table := t } number (name.text ++ " " ++ literal) log).1
    let negated := (load { table := t } number (name.text ++ " -" ++ literal) log).1
    (negated.errors = #[] ↔ plain.errors = #[]) ∧
    (plain.errors = #[] →
      (¬(literal.toList ∈ Numeral.digit * Numeral.digit∗ ∧
          Numeral.placeValue literal.toList = 0) →
        (negated.table.scalarValue name.text).toBits =
          (plain.table.scalarValue name.text).toBits ^^^ 0x8000000000000000) ∧
      (literal.toList ∈ Numeral.digit * Numeral.digit∗ →
        Numeral.placeValue literal.toList = 0 →
        (plain.table.scalarValue name.text).toBits = 0 ∧
          (negated.table.scalarValue name.text).toBits = 0)) := by
  intro plain negated
  obtain ⟨n, hn, htext⟩ := Lexeme.mem_numerals_iff.mp hliteral
  have hline : (name.text ++ " " ++ literal).toList =
      name.text.toList ++ ' ' :: (Lexeme.numeral false n).text := by simp [Lexeme.text, htext]
  have hminusLine : (name.text ++ " -" ++ literal).toList =
      name.text.toList ++ ' ' :: (Lexeme.numeral true n).text := by simp [Lexeme.text, htext]
  obtain ⟨hplain, hplainValue⟩ :=
    load_name_lexeme (l := .numeral false n) hkind hn hline number log
  obtain ⟨hnegated, hnegatedValue⟩ :=
    load_name_lexeme (l := .numeral true n) hkind hn hminusLine number log
  simp only [Lexeme.denotes_numeral_iff hn, exists_and_left, exists_eq, and_true, and_imp,
    Bool.false_and, Bool.true_and] at hplain hplainValue hnegated hnegatedValue
  rw [← htext, ← hn.isZero_iff]
  refine ⟨hnegated.trans hplain.symm, fun haccepted => ?_⟩
  have hexact := hplain.mp haccepted
  have hplainValue : plain = { table := t.setScalar name.text (n.value false) } :=
    hplainValue _ hexact rfl
  have hnegatedValue : negated = { table := t.setScalar name.text (n.value !n.isZero) } :=
    hnegatedValue _ hexact rfl
  simp only [hplainValue, hnegatedValue, Table.scalarValue_setScalar hkind]
  constructor
  · intro hzero
    rw [Bool.eq_false_of_not_eq_true hzero]
    exact n.toBits_value_true
  · intro hdigits hplace
    have hzero := hn.isZero_iff.mpr ⟨hdigits, hplace⟩
    rw [hzero]
    exact ⟨hn.toBits_value_of_isZero hzero, hn.toBits_value_of_isZero hzero⟩

/-- The greatest integer that is held exactly, and a number with a power of ten that is too large
    for a double. -/
theorem load_negated_extreme :
    let t : Table := { scalars := ⟨[("x", 0)]⟩ }
    let bits := fun line =>
      ((load { table := t } 1 line #[]).1.table.scalarValue "x").toBits
    bits "x -9007199254740991" = bits "x 9007199254740991" ^^^ 0x8000000000000000 ∧
      bits "x -1.e999" = bits "x 1.e999" ^^^ 0x8000000000000000 := by
  intro t bits
  let x : Identifier := ⟨"x", by simp, by simp⟩
  have hinteger : "9007199254740991".toList ∈ Numeral.digit * Numeral.digit∗ :=
    Numeral.mem_digit_mul_digits_iff.mpr ⟨by simp, by simp⟩
  have hreal : "1.e999".toList ∈ Numeral.realLanguage + Numeral.digit * Numeral.digit∗ := by
    have hfirst : Numeral.first? "1.e999".toList = some ⟨['1'], some [], "e999".toList⟩ := by
      decide +kernel
    exact Lexeme.mem_numerals_iff.mpr ⟨_, (Numeral.spelled_of_first? hfirst).1, by decide +kernel⟩
  constructor
  · refine ((load_negated (t := t) x (by decide +kernel) (Or.inr hinteger) 1 #[]).2
      (Array.isEmpty_iff.mp (by decide +kernel))).1 fun hzero => ?_
    exact absurd hzero.2 (by decide +kernel)
  · refine ((load_negated (t := t) x (by decide +kernel) hreal 1 #[]).2
      (Array.isEmpty_iff.mp (by decide +kernel))).1 fun hzero => ?_
    exact absurd hzero.2 (by decide +kernel)

/-- An integer of value zero is not negated: the same zero is loaded with a minus. -/
theorem load_zero_not_negated :
    let t : Table := { scalars := ⟨[("x", 0)]⟩ }
    let plain := (load { table := t } 1 "x 0" #[]).1
    let negated := (load { table := t } 1 "x -0" #[]).1
    "0".toList ∈ Numeral.realLanguage + Numeral.digit * Numeral.digit∗ ∧
      t.kind? "x" = some .scalar ∧ plain.errors = #[] ∧ negated.errors = #[] ∧
      (negated.table.scalarValue "x").toBits ≠
        (plain.table.scalarValue "x").toBits ^^^ 0x8000000000000000 := by
  intro t plain negated
  refine ⟨Or.inr ?_, by decide +kernel, Array.isEmpty_iff.mp (by decide +kernel),
    Array.isEmpty_iff.mp (by decide +kernel), by decide +kernel⟩
  exact Numeral.mem_digit_mul_digits_iff.mpr ⟨by simp, by simp⟩

end Values.Loaded

/-! ## Literals in expressions -/

/-- A text that is a single piece is a single token. -/
theorem Token.scan_piece (p : Piece) :
    (Token.scan (String.ofList p.text)).toList = [⟨p.token, 0⟩] := by
  have hgap : ∀ i, ∀ c ∈ (fun _ => [] : Nat → List Char) i, c = ' ' ∨ c = '\t' := by simp
  have hscan := Piece.scan_spread hgap (List.isChain_singleton p)
  simpa [Piece.spread, Piece.placed, Piece.offsetIn, Text.byteLength] using hscan

theorem Token.scan_name (name : Identifier) :
    (Token.scan name.text).toList = [⟨.name name.text, 0⟩] := by
  have hscan := Token.scan_piece (.name name)
  rwa [Piece.text, String.ofList_toList] at hscan

/-- A name alone is a scalar. -/
theorem Table.exists_ofText_name (name : Identifier) :
    ∃ t, Table.ofText name.text = .ok t ∧ t.kind? name.text = some .scalar := by
  have huses : uses (Token.scan name.text).toList = [(name.text, .scalar)] := by
    rw [Token.scan_name]
    rfl
  have hused : ∀ n kind kind', (n, kind) ∈ uses (Token.scan name.text).toList →
      (n, kind') ∈ uses (Token.scan name.text).toList → kind = kind' := by
    simp +contextual [huses]
  obtain ⟨t, hok, -, hkinds⟩ := ofTokens_result_of_consistent hused
  exact ⟨t, hok, (hkinds _ _).mpr (by rw [huses]; exact List.mem_singleton_self _)⟩

/-- A name alone has the value of its scalar. -/
theorem evaluate_name (name : Identifier) (t : Table) :
    evaluate name.text t = .ok (t.scalarValue name.text) := by
  have hderives : Derives .sum (Token.scan name.text).toList (.scalar name.text) := by
    rw [Token.scan_name]
    exact .single nofun (.single nofun (.scalar ..))
  exact evaluate_of_derives hderives (Nat.zero_le _) t

/-- A literal alone has its own value, and no symbols. -/
theorem value_literal (l : Literal) : value (String.ofList l.numeral.text) none = .ok l.value := by
  have hscan : (Token.scan (String.ofList l.numeral.text)).toList = [⟨.number l.value, 0⟩] :=
    Token.scan_piece (.literal l)
  have huses : Table.uses (Token.scan (String.ofList l.numeral.text)).toList = [] := by
    rw [hscan]
    rfl
  obtain ⟨t, hok, -⟩ := Table.ofTokens_result_of_consistent (by rw [huses]; simp)
  have hderives : Derives .sum (Token.scan (String.ofList l.numeral.text)).toList
      (.number l.value) := by
    rw [hscan]
    exact .single nofun (.single nofun (.number ..))
  rw [value_none hok, evaluate_of_derives hderives (Nat.zero_le _) t]
  rfl

/-- Loading a text of one line loads this line. -/
theorem Values.Source.load_line {line : String} (hne : line.toList ≠ []) (h : '\n' ∉ line.toList)
    (t : Table) (log : Log) :
    (ofText line).load t log = Loaded.load { table := t } 1 line log := by
  rw [load_ofText, Text.lines_eq_singleton hne h]
  rfl

/-- With a literal for its only value, a name has the double of the literal, unless the literal is
    an integer too large to be held exactly. -/
theorem value_name_literal (name : Identifier) {n : Numeral} (hn : n.Spelled) {line : String}
    (hline : line.toList = name.text.toList ++ ' ' :: n.text) :
    let loaded := value name.text (some (.ofText line))
    ((n.isInteger → n.toNat ≤ greatestExact) → loaded = .ok (n.value false)) ∧
      (¬(n.isInteger → n.toNat ≤ greatestExact) → ∃ error, loaded = .error (.values error)) := by
  intro loaded
  obtain ⟨t, hok, hkind⟩ := Table.exists_ofText_name name
  obtain ⟨herrors, hvalue⟩ := Values.Loaded.load_name_lexeme (l := .numeral false n) hkind hn
    hline 1 #[]
  simp only [Values.Lexeme.denotes_numeral_iff hn, exists_and_left, exists_eq, and_true, and_imp,
    Bool.false_and] at herrors hvalue
  -- there is no line feed in a name and a literal, so that they are one line
  have hne : line.toList ≠ [] := by simp [hline]
  have hfeed : '\n' ∉ line.toList := by
    rw [hline, List.mem_append, List.mem_cons]
    rintro (hmem | hmem | hmem)
    · exact absurd (name.isAlpha _ hmem) (by decide)
    · exact absurd hmem (by decide)
    · exact absurd (hn.of_mem_text hmem) (by decide)
  have hload := Values.Source.load_line hne hfeed t #[]
  constructor
  · intro hexact
    have hloaded : ((Values.Source.ofText line).load t #[]).1 =
        { table := t.setScalar name.text (n.value false) } := by
      rw [hload, hvalue _ hexact rfl]
    have heval := evaluate_name name (t.setScalar name.text (n.value false))
    rw [Table.scalarValue_setScalar hkind] at heval
    show value name.text (some (.ofText line)) = _
    rw [value_of_load hok hloaded]
    exact congrArg (Except.mapError Failure.expression) heval
  · intro hexact
    have houtcome : ((Values.Source.ofText line).load t #[]).1.outcome ≠ .ok () := by
      rw [hload, Values.Loaded.outcome, ne_eq, Values.LoadError.fold_eq_ok_iff,
        Array.toList_eq_nil_iff, herrors]
      exact hexact
    show ∃ error, value name.text (some (.ofText line)) = _
    rw [value_of_table hok]
    cases hresult : ((Values.Source.ofText line).load t #[]).1.outcome with
    | ok => exact absurd hresult houtcome
    | error error => exact ⟨error, rfl⟩

/-- A literal without a power of ten has a value as an expression. In a values line, it is accepted
    for a scalar exactly if it has a point or is an integer that a double can hold exactly, and then
    the value of the scalar is the same double. If the literal is an integer, this is the double
    that denotes it. -/
theorem value_loaded_literal (name : Identifier) {literal : String}
    (hliteral : literal.toList ∈ Numeral.plainLanguage) :
    let loaded := value name.text (some (.ofText (name.text ++ " " ++ literal)))
    (∃ v, value literal none = .ok v) ∧
    ((∃ v, loaded = .ok v) ↔ (literal.toList ∈ Numeral.digit * Numeral.digit∗ →
      Numeral.placeValue literal.toList ≤ greatestExact)) ∧
    ((∃ v, loaded = .ok v) → loaded = value literal none) ∧
    (literal.toList ∈ Numeral.digit * Numeral.digit∗ →
      Numeral.placeValue literal.toList ≤ greatestExact →
      ∃ v, loaded = .ok v ∧ number? v = some (Numeral.placeValue literal.toList : ℚ)) := by
  intro loaded
  obtain ⟨n, hplain, htext⟩ := Numeral.mem_plainLanguage_iff.mp hliteral
  have hn := hplain.spelled
  have hline : (name.text ++ " " ++ literal).toList = name.text.toList ++ ' ' :: n.text := by
    simp [htext]
  obtain ⟨haccepted, hrefused⟩ := value_name_literal name hn hline
  have hexact : (n.isInteger → n.toNat ≤ greatestExact) ↔
      (literal.toList ∈ Numeral.digit * Numeral.digit∗ →
        Numeral.placeValue literal.toList ≤ greatestExact) := by
    rw [← htext, hn.isInteger_iff.symm]
    exact forall_congr' fun hinteger => by rw [hn.toNat_eq_placeValue hinteger]
  have halone : value literal none = .ok (n.value false) := by
    have halone := value_literal ⟨n, hplain⟩
    rwa [htext, String.ofList_toList] at halone
  have hiff : (∃ v, loaded = .ok v) ↔ (n.isInteger → n.toNat ≤ greatestExact) := by
    refine ⟨?_, fun h => ⟨_, haccepted h⟩⟩
    rintro ⟨v, hv⟩
    by_contra hlarge
    obtain ⟨error, herror⟩ := hrefused hlarge
    exact nomatch hv.symm.trans herror
  refine ⟨⟨_, halone⟩, hiff.trans hexact, fun h => (haccepted (hiff.mp h)).trans halone.symm, ?_⟩
  intro hdigits hle
  have hinteger : n.isInteger := hn.isInteger_iff.mpr (htext ▸ hdigits)
  have htoNat : n.toNat = Numeral.placeValue literal.toList := by
    rw [hn.toNat_eq_placeValue hinteger, htext]
  refine ⟨_, haccepted (hexact.mpr fun _ => hle), ?_⟩
  rw [Numeral.value_of_isInteger hn hinteger, htoNat, number?_nearest false hle]
  simp

/-- The greatest integer that a double holds exactly, with zeros before it. -/
theorem value_loaded_literal_greatest :
    ∃ v, value "x" (some (.ofText "x 009007199254740991")) = .ok v ∧
      value "009007199254740991" none = .ok v ∧ number? v = some 9007199254740991 := by
  let x : Identifier := ⟨"x", by simp, by simp⟩
  have hdigits : "009007199254740991".toList ∈ Numeral.digit * Numeral.digit∗ :=
    Numeral.mem_digit_mul_digits_iff.mpr ⟨by simp, by simp⟩
  have hplain : "009007199254740991".toList ∈ Numeral.plainLanguage := by
    refine Numeral.mem_plainLanguage_iff.mpr
      ⟨⟨"009007199254740991".toList, none, []⟩, ⟨by simp, by simp, by simp, rfl⟩, ?_⟩
    simp [Numeral.text]
  have hplace : Numeral.placeValue "009007199254740991".toList = 9007199254740991 := by
    decide +kernel
  obtain ⟨-, -, hsame, hexact⟩ := value_loaded_literal x hplain
  obtain ⟨v, hv, hnumber⟩ := hexact hdigits (by rw [hplace]; decide)
  refine ⟨v, hv, (hsame ⟨v, hv⟩).symm.trans hv, ?_⟩
  rw [hnumber, hplace]
  rfl

end Reckon
