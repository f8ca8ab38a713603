import Reckon.Proofs.Acceptance

/-!
# What a line about an array is refused for

A line can be wrong in several places at once, and is refused for one of them: first for a piece
that is no token, wherever it is, then for how the line starts, then for the length, and then for
the first group that is not a pair of an index below the length and a number. Within a group, the
shape comes first, then the index, and then the value. `Line.Refuses` says this by what comes before
the place that counts, and not by the steps that find it.

## Key results

- `Line.givesArray_or_refuses`: a line sets an array, or there is something wrong with it
- `Line.read_array_eq_error_iff`: what a line is refused for
- `Loaded.load_array_refused`: what a refused line leaves, and when it is for an index out of range
-/

namespace Reckon.Values

/-- Why a token is no number: it is of another kind, or an integer that no double can hold. -/
inductive Token.NoNumber : Token → Defect → Prop
  | otherKind {token : Token} : (∀ x, token ≠ .real x) → (∀ i, token ≠ .integer i) →
      NoNumber token (.notNumber token)
  | tooLarge {i : Int} : Binary64.greatestExact < i.natAbs → NoNumber (.integer i) (.tooLarge i)

namespace Line

/-- Why the tokens after a name do not start with the length of an array. -/
inductive BadLength (name : String) : List Token → Defect → Prop
  | missing : BadLength name [] (.missingLength name)
  | notInteger {token : Token} {rest : List Token} : (∀ i, token ≠ .integer i) →
      BadLength name (token :: rest) (.lengthNotInteger token)
  | negative {i : Int} {rest : List Token} : i < 0 →
      BadLength name (.integer i :: rest) (.negativeLength name i)
  | aboveLimit {n : Nat} {rest : List Token} : greatestLength < n →
      BadLength name (.integer n :: rest) (.lengthAboveLimit name n)

/-- Why tokens do not start with a pair for an array of a given length. What comes after the group
    does not matter, and neither does the value if the index is wrong. -/
inductive BadGroup (name : String) (length : Nat) : List Token → Cause → Prop
  | shape {tokens : List Token} : tokens ≠ [] →
      (∀ index value rest, tokens ≠ .opening :: index :: .comma :: value :: .closing :: rest) →
      BadGroup name length tokens (.malformed (.pairExpected name))
  | index {index value : Token} {rest : List Token} : (∀ i, index ≠ .integer i) →
      BadGroup name length (.opening :: index :: .comma :: value :: .closing :: rest)
        (.malformed (.indexNotInteger index))
  | outOfRange {i : Int} {value : Token} {rest : List Token} : i < 0 ∨ length ≤ i →
      BadGroup name length (.opening :: .integer i :: .comma :: value :: .closing :: rest)
        (.indexOutOfRange name i length)
  | value {i : Nat} {value : Token} {rest : List Token} {defect : Defect} : i < length →
      value.NoNumber defect →
      BadGroup name length (.opening :: .integer i :: .comma :: value :: .closing :: rest)
        (.malformed defect)

/-- What a line about an array is refused for: the first thing that is wrong with it, once it is
    known to consist of tokens. -/
inductive Refuses (word line : String) : Cause → Prop
  /-- A piece of the line is no token. -/
  | tokens {text : String} : Token.scan line = .error text →
      Refuses word line (.malformed (.unexpectedText text))
  /-- The first token is not the name that the first word is. -/
  | start {tokens : Array Token} : Token.scan line = .ok tokens →
      (∀ rest, tokens.toList ≠ .name word :: rest) →
      Refuses word line (.malformed (.wrongStart word))
  /-- There is no length after the name. -/
  | length {rest : List Token} {defect : Defect} :
      Token.scan line = .ok (.name word :: rest).toArray → BadLength word rest defect →
      Refuses word line (.malformed defect)
  /-- A group after the length is wrong, and those before it are right. -/
  | group {length : Nat} {good bad : List Token} {pairs : List (Nat × Float)} {cause : Cause} :
      Token.scan line = .ok (.name word :: .integer length :: (good ++ bad)).toArray →
      length ≤ greatestLength → Token.Groups length good pairs → BadGroup word length bad cause →
      Refuses word line cause

/-! ## Numbers -/

variable {name : String} {token : Token} {tokens good bad : List Token} {cause : Cause}

theorem number_of_noNumber {defect : Defect} (h : token.NoNumber defect) :
    number token = .error (.malformed defect) := by
  cases h with
  | otherKind hreal hinteger =>
    unfold number
    split
    · next x => exact absurd rfl (hreal x)
    · next i => exact absurd rfl (hinteger i)
    · rfl
  | tooLarge hlarge =>
    unfold number Binary64.ofInteger?
    simp only [if_neg (Nat.not_le_of_lt hlarge)]

/-- Every token is a number, or there is a reason why it is none. -/
theorem denotes_or_noNumber (token : Token) :
    (∃ x, token.Denotes x) ∨ ∃ defect, token.NoNumber defect := by
  cases token with
  | real x => exact Or.inl ⟨x, .real x⟩
  | integer i =>
    rcases Nat.lt_or_ge Binary64.greatestExact i.natAbs with hlarge | hexact
    · exact Or.inr ⟨_, .tooLarge hlarge⟩
    · exact Or.inl ⟨_, .integer i hexact⟩
  | name | opening | closing | comma => exact Or.inr ⟨_, .otherKind nofun nofun⟩

/-- A negative integer is no natural number. -/
theorem toNat?_of_neg {i : Int} (h : i < 0) : i.toNat? = none := by
  cases i with
  | ofNat n => exact absurd h (Int.not_lt.mpr (Int.natCast_nonneg n))
  | negSucc n => rfl

/-! ## Lengths -/

theorem setting_of_badLength {defect : Defect} (h : BadLength name tokens defect) :
    setting .array name tokens = .error (.malformed defect) := by
  cases h with
  | missing => rfl
  | @notInteger token rest hother =>
    have hlength : length name token = .error (.malformed (.lengthNotInteger token)) := by
      unfold length
      split
      · next i => exact absurd rfl (hother i)
      · rfl
    rw [setting, hlength, error_bind]
  | negative hneg =>
    rw [setting, length]
    simp only [toNat?_of_neg hneg, error_bind]
  | @aboveLimit n rest habove =>
    have hnat : (n : Int).toNat? = some n := rfl
    rw [setting, length]
    simp only [hnat, if_neg (Nat.not_le_of_lt habove), error_bind]

/-- Tokens start with a length, or there is a reason why they do not. -/
theorem length_or_badLength (name : String) (tokens : List Token) :
    (∃ (n : Nat) (rest : List Token), tokens = .integer n :: rest ∧ n ≤ greatestLength) ∨
      ∃ defect, BadLength name tokens defect := by
  cases tokens with
  | nil => exact Or.inr ⟨_, .missing⟩
  | cons token rest =>
    cases token with
    | integer i =>
      cases i with
      | ofNat n =>
        rcases Nat.lt_or_ge greatestLength n with habove | hle
        · exact Or.inr ⟨_, .aboveLimit habove⟩
        · exact Or.inl ⟨n, rest, rfl, hle⟩
      | negSucc n => exact Or.inr ⟨_, .negative (Int.negSucc_lt_zero n)⟩
    | real | name | opening | closing | comma => exact Or.inr ⟨_, .notInteger nofun⟩

/-! ## Groups -/

variable {length : Nat}

theorem index_of_outOfRange {i : Int} (h : i < 0 ∨ length ≤ i) :
    index name length (.integer i) = .error (.indexOutOfRange name i length) := by
  rw [index]
  cases i with
  | ofNat n =>
    have hnat : (Int.ofNat n).toNat? = some n := rfl
    have hge : ¬ n < length := by
      rcases h with hneg | hle
      · exact absurd hneg (Int.not_lt.mpr (Int.natCast_nonneg n))
      · exact Nat.not_lt.mpr (Int.ofNat_le.mp hle)
    simp only [hnat, if_neg hge]
  | negSucc n => rfl

theorem pairs_of_badGroup (h : BadGroup name length tokens cause) (found : Array (Nat × Float)) :
    pairs name length found tokens = .error cause := by
  cases h with
  | shape hne hshape =>
    unfold pairs
    split
    · exact absurd rfl hne
    · next index value rest => exact absurd rfl (hshape index value rest)
    · rfl
  | @index index value rest hother =>
    have hindex : Line.index name length index = .error (.malformed (.indexNotInteger index)) := by
      unfold Line.index
      split
      · next i => exact absurd rfl (hother i)
      · rfl
    rw [pairs, hindex, error_bind]
  | outOfRange houtside => rw [pairs, index_of_outOfRange houtside, error_bind]
  | value hlt hvalue =>
    rw [pairs, index_eq_ok_iff.mpr ⟨rfl, hlt⟩, ok_bind, number_of_noNumber hvalue, error_bind]

/-- Groups that are right are read, and what comes after them is looked at. -/
theorem pairs_append {new : List (Nat × Float)} (h : Token.Groups length good new)
    (found : Array (Nat × Float)) (bad : List Token) :
    pairs name length found (good ++ bad) = pairs name length (found ++ new.toArray) bad := by
  induction h generalizing found with
  | nil => simp
  | cons hindex hx hrest ih =>
    simp only [List.cons_append]
    rw [pairs, index_eq_ok_iff.mpr ⟨rfl, hindex⟩, ok_bind, number_eq_ok_iff.mpr hx, ok_bind, ih]
    simp

/-- An integer is an index below a length, or out of range. -/
theorem index_cases (length : Nat) (i : Int) :
    (∃ n : Nat, i = n ∧ n < length) ∨ i < 0 ∨ length ≤ i := by
  cases i with
  | ofNat n =>
    rcases Nat.lt_or_ge n length with hlt | hge
    · exact Or.inl ⟨n, rfl, hlt⟩
    · exact Or.inr (Or.inr (Int.ofNat_le.mpr hge))
  | negSucc n => exact Or.inr (Or.inl (Int.negSucc_lt_zero n))

/-- Tokens start with a pair, or there is a reason why they do not. -/
theorem group_or_badGroup (name : String) (length : Nat) (index value : Token)
    (rest : List Token) :
    (∃ (i : Nat) (x : Float), index = .integer i ∧ i < length ∧ value.Denotes x) ∨
      ∃ cause, BadGroup name length
        (.opening :: index :: .comma :: value :: .closing :: rest) cause := by
  cases index with
  | integer i =>
    rcases index_cases length i with ⟨n, rfl, hlt⟩ | houtside
    · rcases denotes_or_noNumber value with ⟨x, hx⟩ | ⟨defect, hdefect⟩
      · exact Or.inl ⟨n, x, rfl, hlt, hx⟩
      · exact Or.inr ⟨_, .value hlt hdefect⟩
    · exact Or.inr ⟨_, .outOfRange houtside⟩
  | real | name | opening | closing | comma => exact Or.inr ⟨_, .index nofun⟩

/-- Tokens consist of groups that are right up to their end, or up to something that is none. -/
theorem groups_or_badGroup (name : String) (length : Nat) (found : Array (Nat × Float))
    (tokens : List Token) :
    ∃ good bad new, tokens = good ++ bad ∧ Token.Groups length good new ∧
      (bad = [] ∨ ∃ cause, BadGroup name length bad cause) := by
  -- Induction along the recursion of `pairs`, one group after the other.
  fun_induction pairs name length found tokens with
  | case1 => exact ⟨[], [], [], rfl, .nil, Or.inl rfl⟩
  | case2 found index value rest ih =>
    rcases group_or_badGroup name length index value rest with ⟨i, x, rfl, hlt, hx⟩ | hbad
    · obtain ⟨good, bad, new, rfl, hgood, hbad⟩ := ih i x
      exact ⟨_, bad, _, rfl, .cons hlt hx hgood, hbad⟩
    · exact ⟨[], _, [], rfl, .nil, Or.inr hbad⟩
  | case3 tokens found hne hshape =>
    exact ⟨[], tokens, [], rfl, .nil, Or.inr ⟨_, .shape hne hshape⟩⟩

/-! ## Lines -/

variable {kind? : String → Option Kind} {line word : String}

/-- A line is refused for what is wrong with it. -/
theorem Refuses.read_eq (h : Refuses word line cause) (hword : word? line = some word)
    (hkind : kind? word = some .array) : read kind? line = .error cause := by
  cases h with
  | tokens hscan => exact read_of_scan_error hword hkind hscan
  | start hscan hne => exact read_of_not_name hword hkind hscan hne
  | length hscan hlength =>
    rw [read_of_name hword hkind hscan rfl, setting_of_badLength hlength]
    rfl
  | @group n good bad new cause hscan hn hgood hbad =>
    have hsetting : setting .array word (.integer n :: (good ++ bad)) = .error cause := by
      rw [setting, length_eq_ok_iff.mpr ⟨rfl, hn⟩, ok_bind, pairs_append hgood,
        pairs_of_badGroup hbad, error_bind]
    rw [read_of_name hword hkind hscan rfl, hsetting]
    rfl

/-- A line about an array sets it, or there is something wrong with the line. -/
theorem givesArray_or_refuses (word line : String) :
    (∃ length pairs, GivesArray line word length pairs) ∨ ∃ cause, Refuses word line cause := by
  cases hscan : Token.scan line with
  | error text => exact Or.inr ⟨_, .tokens hscan⟩
  | ok tokens =>
    by_cases hname : ∃ rest, tokens.toList = .name word :: rest
    · obtain ⟨rest, htokens⟩ := hname
      obtain rfl : tokens = (.name word :: rest).toArray := by rw [← htokens]
      rcases length_or_badLength word rest with ⟨n, groups, rfl, hn⟩ | ⟨defect, hdefect⟩
      · obtain ⟨good, bad, new, rfl, hgood, hbad⟩ := groups_or_badGroup word n #[] groups
        rcases hbad with rfl | ⟨cause, hcause⟩
        · rw [List.append_nil] at hscan
          exact Or.inl ⟨n, new, good, hscan, hn, hgood⟩
        · exact Or.inr ⟨cause, .group hscan hn hgood hcause⟩
      · exact Or.inr ⟨_, .length hscan hdefect⟩
    · exact Or.inr ⟨_, .start hscan fun rest htokens => hname ⟨rest, htokens⟩⟩

/-- A line about an array is refused exactly for the first thing that is wrong with it. -/
theorem read_array_eq_error_iff (hword : word? line = some word)
    (hkind : kind? word = some .array) :
    read kind? line = .error cause ↔ Refuses word line cause := by
  refine ⟨fun h => ?_, fun h => h.read_eq hword hkind⟩
  rcases givesArray_or_refuses word line with ⟨length, pairs, hgives⟩ | ⟨cause', hrefuses⟩
  · rw [(read_array_iff hword hkind).mpr ⟨length, pairs, hgives, rfl⟩] at h
    exact nomatch h
  · obtain rfl := Except.error.inj (h.symm.trans (hrefuses.read_eq hword hkind))
    exact hrefuses

/-- Whether a line has tokens up to a length, groups of indices below it and numbers, and then a
    group of the right shape whose index is not below it. -/
def WritesOutside (word line : String) (i : Int) (length : Nat) : Prop :=
  ∃ good new value rest, Token.scan line = .ok (.name word :: .integer length ::
      (good ++ .opening :: .integer i :: .comma :: value :: .closing :: rest)).toArray ∧
    length ≤ greatestLength ∧ Token.Groups length good new ∧ (i < 0 ∨ length ≤ i)

/-- A line is refused for an index out of range exactly if this is the first thing wrong with it. -/
theorem refuses_indexOutOfRange_iff {i : Int} :
    Refuses word line (.indexOutOfRange name i length) ↔
      name = word ∧ WritesOutside word line i length := by
  constructor
  · intro h
    cases h with
    | group hscan hn hgood hbad =>
      cases hbad with
      | outOfRange houtside => exact ⟨rfl, _, _, _, _, hscan, hn, hgood, houtside⟩
  · rintro ⟨rfl, good, new, value, rest, hscan, hn, hgood, houtside⟩
    exact .group hscan hn hgood (.outOfRange houtside)

/-- A line is refused as malformed, or for an index out of range. -/
theorem Refuses.malformed_or_outOfRange (h : Refuses word line cause) :
    (∃ defect, cause = .malformed defect) ∨
      ∃ i length, cause = .indexOutOfRange word i length := by
  cases h with
  | tokens | start | length => exact Or.inl ⟨_, rfl⟩
  | group _ _ _ hbad =>
    cases hbad with
    | shape | index | value => exact Or.inl ⟨_, rfl⟩
    | outOfRange => exact Or.inr ⟨_, _, rfl⟩

end Line

/-! ## Loading -/

namespace Loaded

variable {loaded : Loaded} {number : Nat} {line : String} {log : Log}

theorem errors_load_of_ok {line' : Line} (h : Line.read loaded.table.kind? line = .ok line') :
    (loaded.load number line log).1.errors = loaded.errors := by
  unfold load
  rw [h]
  cases line' <;> rfl

/-- A line fails with a cause exactly if it is read with this error. -/
theorem load_eq_refused_iff {cause : Cause} :
    (loaded.load number line log).1 =
        { loaded with errors := loaded.errors.push (.onLine number cause) } ↔
      Line.read loaded.table.kind? line = .error cause := by
  cases hread : Line.read loaded.table.kind? line with
  | ok line' =>
    refine iff_of_false (fun h => ?_) nofun
    have hsize := congrArg (·.errors.size) h
    simp [errors_load_of_ok hread] at hsize
  | error cause' =>
    unfold load
    rw [hread, Except.error.injEq]
    constructor
    · intro h
      exact (LoadError.onLine.inj (Array.push_eq_push.mp (Loaded.mk.inj h).2).1).2
    · rintro rfl
      rfl

/-- A line about an array that fails does so for the first thing that is wrong with it, first for a
    piece that is no token and then from left to right, and leaves the table as it was. It fails for
    an index out of range exactly if this is what is wrong first, and is malformed otherwise. -/
theorem load_array_refused (loaded : Loaded) (number : Nat) (line : String) (log : Log)
    {word : String} (hword : Line.word? line = some word)
    (harray : loaded.table.arrays.contains word) (hscalar : ¬ loaded.table.scalars.contains word) :
    let after := (loaded.load number line log).1
    let refused (cause : Cause) : Loaded :=
      { loaded with errors := loaded.errors.push (.onLine number cause) }
    (after.errors ≠ loaded.errors → ∃ cause, after = refused cause) ∧
    (∀ cause, after = refused cause ↔ Line.Refuses word line cause) ∧
    (∀ i n, after = refused (.indexOutOfRange word i n) ↔ Line.WritesOutside word line i n) ∧
    ∀ cause, after = refused cause →
      (∃ defect, cause = .malformed defect) ∨ ∃ i n, cause = .indexOutOfRange word i n := by
  intro after refused
  have hkind : loaded.table.kind? word = some .array := by
    rw [Table.kind?, if_neg hscalar, if_pos harray]
  have hrefused : ∀ cause, after = refused cause ↔ Line.Refuses word line cause := fun cause =>
    load_eq_refused_iff.trans (Line.read_array_eq_error_iff hword hkind)
  refine ⟨fun hfails => ?_, hrefused, fun i n => ?_, fun cause hcause => ?_⟩
  · cases hread : Line.read loaded.table.kind? line with
    | ok line' => exact absurd (errors_load_of_ok hread) hfails
    | error cause => exact ⟨cause, load_eq_refused_iff.mpr hread⟩
  · rw [hrefused, Line.refuses_indexOutOfRange_iff, and_iff_right rfl]
  · exact ((hrefused cause).mp hcause).malformed_or_outOfRange

/-- The index is out of range, so what stands in the place of the value does not matter, nor what
    comes after the pair; the cells are the same as before. -/
theorem load_array_refused_outside :
    let t : Table := { arrays := ⟨[("A", .loaded #[5])]⟩ }
    (load { table := t } 3 "A 1 (1,x) (" #[]).1 =
      { table := t, errors := #[.onLine 3 (.indexOutOfRange "A" 1 1)] } := by
  intro t
  have hscan : Token.scan "A 1 (1,x) (" = .ok #[.name "A", .integer (1 : Nat), .opening, .integer 1,
      .comma, .name "x", .closing, .opening] := by with_unfolding_all rfl
  have hword : Line.word? "A 1 (1,x) (" = some "A" := by decide +kernel
  have hspec := load_array_refused { table := t } 3 "A 1 (1,x) (" #[] hword rfl (by decide)
  exact (hspec.2.2.1 1 1).mpr
    ⟨[], [], .name "x", [.opening], hscan, by decide, .nil, Or.inr (by decide)⟩

end Loaded

end Reckon.Values
