import Reckon.Proofs.Entries
import Reckon.Proofs.Reporting

/-!
# Which lines are accepted

The first word of a line says what the line is about, and the tokens of the line what is set. The
word is found by white space and the tokens by longest match, so the two are compared: for a word of
letters the line always starts with the name that it is. What comes after the name has to be a
number for a scalar, and for an array a length and groups of an index and a number.

## Key results

- `Line.setting_scalar_eq_ok_iff`, `Line.setting_array_eq_ok_iff`: the tokens that set a symbol
- `Setting.get?_cellsOf`: a cell has the value of the last pair that is about it, or is zero
- `Line.exists_name_of_scan`: a line whose first word is a row of letters starts with this name
- `Line.read_eq_ok_iff`: when a line about a symbol is accepted
- `Loaded.load_spec`: what one line does to a table, and when it is accepted
-/

namespace Reckon

namespace Values

/-! ## Tokens that are accepted -/

/-- The number that a token is, if it is one: with a point, or an integer that a double can hold
    exactly. -/
inductive Token.Denotes : Token → Float → Prop
  | real (x : Float) : Denotes (.real x) x
  | integer (i : Int) (h : i.natAbs ≤ Binary64.greatestExact) :
      Denotes (.integer i) (Binary64.ofInteger i)

theorem Token.denotes_integer_iff {i : Int} {x : Float} :
    (Token.integer i).Denotes x ↔ Binary64.ofInteger? i = some x := by
  rw [Binary64.ofInteger?_eq_some_iff]
  constructor
  · intro h
    cases h with
    | integer _ hexact => exact ⟨hexact, rfl⟩
  · rintro ⟨hexact, rfl⟩
    exact .integer i hexact

/-- The pairs that groups of an index below a length and a number are. -/
inductive Token.Groups (length : Nat) : List Token → List (Nat × Float) → Prop
  | nil : Groups length [] []
  | cons {index : Nat} {token : Token} {x : Float} {tokens : List Token}
      {pairs : List (Nat × Float)} (hindex : index < length) (hx : token.Denotes x)
      (hrest : Groups length tokens pairs) :
      Groups length (.opening :: .integer index :: .comma :: token :: .closing :: tokens)
        ((index, x) :: pairs)

theorem Token.Groups.lt_of_mem {length index : Nat} {x : Float} {tokens : List Token}
    {pairs : List (Nat × Float)} (h : Token.Groups length tokens pairs)
    (hmem : (index, x) ∈ pairs) : index < length := by
  induction h with
  | nil => exact nomatch hmem
  | cons hindex hx hrest ih =>
    cases List.mem_cons.mp hmem with
    | inl heq => exact (Prod.mk.inj heq).1 ▸ hindex
    | inr hmem => exact ih hmem

namespace Line

variable {name : String} {token : Token} {tokens : List Token}

theorem number_eq_ok_iff {x : Float} : number token = .ok x ↔ token.Denotes x := by
  cases token with
  | real y => exact ⟨fun h => Except.ok.inj h ▸ .real y, fun h => by cases h; rfl⟩
  | integer i =>
    rw [Token.denotes_integer_iff, number]
    cases Binary64.ofInteger? i <;> simp
  | name | opening | closing | comma => constructor <;> intro h <;> cases h

/-- A natural number is an integer that is not negative. -/
theorem toNat?_eq_some_iff {i : Int} {n : Nat} : i.toNat? = some n ↔ i = n := by
  cases i with
  | ofNat m => exact ⟨fun h => congrArg Int.ofNat (Option.some.inj h), fun h => by cases h; rfl⟩
  | negSucc m => exact ⟨nofun, nofun⟩

theorem index_eq_ok_iff {length i : Nat} :
    index name length token = .ok i ↔ token = .integer i ∧ i < length := by
  unfold index
  split
  · next value =>
    rw [Token.integer.injEq, ← toNat?_eq_some_iff]
    split
    · next hnone => simp [hnone]
    · next n hn =>
      rw [hn, Option.some.injEq]
      split
      · next hlt => exact ⟨fun h => ⟨Except.ok.inj h, Except.ok.inj h ▸ hlt⟩, fun h => h.1 ▸ rfl⟩
      · next hlt => exact ⟨nofun, fun h => absurd (h.1 ▸ h.2) hlt⟩
  · next hne => exact ⟨nofun, fun h => absurd h.1 (hne i)⟩

theorem length_eq_ok_iff {n : Nat} :
    length name token = .ok n ↔ token = .integer n ∧ n ≤ greatestLength := by
  unfold length
  split
  · next value =>
    rw [Token.integer.injEq, ← toNat?_eq_some_iff]
    split
    · next hnone => simp [hnone]
    · next m hm =>
      rw [hm, Option.some.injEq]
      split
      · next hle => exact ⟨fun h => ⟨Except.ok.inj h, Except.ok.inj h ▸ hle⟩, fun h => h.1 ▸ rfl⟩
      · next hle => exact ⟨nofun, fun h => absurd (h.1 ▸ h.2) hle⟩
  · next hne => exact ⟨nofun, fun h => absurd h.1 (hne n)⟩

/-- Tokens that are accepted as pairs are groups, one for each pair. -/
theorem groups_of_pairs {length : Nat} {found : Array (Nat × Float)} {all : List (Nat × Float)}
    (h : pairs name length found tokens = .ok all) :
    ∃ new, Token.Groups length tokens new ∧ all = found.toList ++ new := by
  -- Induction along the recursion of `pairs`, one group after the other.
  fun_induction pairs name length found tokens with
  | case1 found =>
    obtain rfl := Except.ok.inj h
    exact ⟨[], .nil, (List.append_nil _).symm⟩
  | case2 found i x rest ih =>
    obtain ⟨index, hindex, hrest⟩ := bind_eq_ok_iff.mp h
    obtain ⟨value, hvalue, hpairs⟩ := bind_eq_ok_iff.mp hrest
    obtain ⟨rfl, hlt⟩ := index_eq_ok_iff.mp hindex
    obtain ⟨new, hnew, rfl⟩ := ih index value hpairs
    exact ⟨(index, value) :: new, .cons hlt (number_eq_ok_iff.mp hvalue) hnew, by simp⟩
  | case3 found tokens hne hshape => contradiction

/-- Groups are accepted as their pairs. -/
theorem pairs_of_groups {length : Nat} {new : List (Nat × Float)}
    (h : Token.Groups length tokens new) (found : Array (Nat × Float)) :
    pairs name length found tokens = .ok (found.toList ++ new) := by
  induction h generalizing found with
  | nil => simp [pairs]
  | @cons index token x tokens new hindex hx hrest ih =>
    rw [pairs, index_eq_ok_iff.mpr ⟨rfl, hindex⟩, ok_bind, number_eq_ok_iff.mpr hx, ok_bind, ih]
    simp

/-- A scalar is set by one token that is a number. -/
theorem setting_scalar_eq_ok_iff {s : Setting} :
    setting .scalar name tokens = .ok s ↔
      ∃ token x, tokens = [token] ∧ token.Denotes x ∧ s = .scalar name x := by
  constructor
  · intro h
    match tokens with
    | [token] =>
      obtain ⟨x, hx, hs⟩ := bind_eq_ok_iff.mp h
      exact ⟨token, x, rfl, number_eq_ok_iff.mp hx, (Except.ok.inj hs).symm⟩
    | [] => exact nomatch h
    | _ :: _ :: _ => exact nomatch h
  · intro h
    obtain ⟨token, x, rfl, hx, rfl⟩ := h
    rw [setting, number_eq_ok_iff.mpr hx]
    rfl

/-- An array is set by a length that is not too great and groups with indices below it. -/
theorem setting_array_eq_ok_iff {s : Setting} :
    setting .array name tokens = .ok s ↔
      ∃ (length : Nat) (groups : List Token) (new : List (Nat × Float)),
        tokens = .integer length :: groups ∧ length ≤ greatestLength ∧
          Token.Groups length groups new ∧ s = .array name length new := by
  constructor
  · intro h
    cases tokens with
    | nil => exact nomatch h
    | cons token rest =>
      obtain ⟨n, hn, hrest⟩ := bind_eq_ok_iff.mp h
      obtain ⟨all, hall, hs⟩ := bind_eq_ok_iff.mp hrest
      obtain ⟨rfl, hle⟩ := length_eq_ok_iff.mp hn
      obtain ⟨new, hnew, heq⟩ := groups_of_pairs hall
      obtain rfl : all = new := heq
      exact ⟨n, rest, all, rfl, hle, hnew, (Except.ok.inj hs).symm⟩
  · intro h
    obtain ⟨n, groups, new, rfl, hle, hnew, rfl⟩ := h
    rw [setting, length_eq_ok_iff.mpr ⟨rfl, hle⟩, ok_bind, pairs_of_groups hnew]
    rfl

end Line

/-! ## Cells -/

/-- Writing a cell changes no other one. -/
theorem Cells.get?_set {cells : Cells} {j : Nat} (h : cells.has j) (index : Nat) (x : Float) :
    (cells.set index x).get? j = if j = index then some x else cells.get? j := by
  cases cells with
  | unloaded => contradiction
  | loaded values =>
    show (values.setIfInBounds index x)[j]? = if j = index then some x else values[j]?
    have hsize : j < values.size := of_decide_eq_true h
    by_cases hj : j = index
    · rw [if_pos hj, ← hj, Array.getElem?_setIfInBounds_self_of_lt hsize]
    · rw [if_neg hj, Array.getElem?_setIfInBounds_ne (Ne.symm hj)]

namespace Setting

variable {length : Nat} {pairs : List (Nat × Float)}

/-- Every pair writes the cells that those before it have left. -/
theorem cellsOf_concat (length : Nat) (pairs : List (Nat × Float)) (index : Nat) (x : Float) :
    cellsOf length (pairs ++ [(index, x)]) = (cellsOf length pairs).set index x := by
  rw [cellsOf, List.foldl_append]
  rfl

/-- There is a cell to write at every index below the length. -/
theorem has_cellsOf {index : Nat} : (cellsOf length pairs).has index ↔ index < length := by
  rw [cellsOf, Cells.has, size_foldl_set, Array.size_replicate, decide_eq_true_eq]

/-- A cell has the value of the last pair that is about it, and is zero if there is none. -/
theorem get?_cellsOf {j : Nat} (hj : j < length) :
    (cellsOf length pairs).get? j = some ((pairs.reverse.lookup j).getD 0) := by
  -- Induction from the end of the pairs, where the one that is written last is.
  induction pairs using List.reverseRecOn with
  | nil => simp [cellsOf, Cells.get?, hj]
  | append_singleton pairs pair ih =>
    obtain ⟨index, x⟩ := pair
    rw [cellsOf_concat, Cells.get?_set (has_cellsOf.mpr hj), ih, List.reverse_append,
      List.reverse_singleton, List.singleton_append, List.lookup_cons]
    by_cases h : j = index
    · simp [h]
    · simp [h, beq_eq_false_iff_ne.mpr h]

theorem lookup_reverse_eq_none {j : Nat} (h : ∀ y, (j, y) ∉ pairs) :
    pairs.reverse.lookup j = none := by
  rw [List.lookup_eq_none_iff]
  intro (i, y) hmem
  rw [bne_iff_ne]
  rintro rfl
  exact h y (List.mem_reverse.mp hmem)

/-- A cell that no pair is about is zero. -/
theorem get?_cellsOf_of_not_mem {j : Nat} (hj : j < length) (h : ∀ y, (j, y) ∉ pairs) :
    (cellsOf length pairs).get? j = some 0 := by
  rw [get?_cellsOf hj, lookup_reverse_eq_none h, Option.getD_none]

/-- A cell has the value of a pair that is about it, if no later one is. -/
theorem get?_cellsOf_of_last {j : Nat} {earlier later : List (Nat × Float)} {x : Float}
    (hj : j < length) (hlast : ∀ y, (j, y) ∉ later) :
    (cellsOf length (earlier ++ (j, x) :: later)).get? j = some x := by
  rw [get?_cellsOf hj, List.reverse_append, List.reverse_cons, List.append_assoc,
    List.lookup_append, lookup_reverse_eq_none hlast]
  simp

end Setting

/-! ## The start of a line -/

/-- A character that is blank starts no lexeme. -/
theorem Lexeme.first?_of_isBlank {c : Char} (h : Text.isBlank c) (cs : List Char) :
    first? (c :: cs) = none := by
  have hne : ∀ d, Text.isBlank d = false → c ≠ d := by
    intro d hd hcd
    rw [hcd, hd] at h
    exact nomatch h
  have halpha : c.isAlpha = false :=
    Bool.eq_false_iff.mpr fun hletter => hne c (Entry.isBlank_eq_false_of_isAlpha hletter) rfl
  have hdigit : c.isDigit = false := by
    rw [Bool.eq_false_iff]
    intro hdigit
    have hval : 48 ≤ c.toNat ∧ c.toNat ≤ 57 := by
      simpa [Char.isDigit, UInt32.le_iff_toNat_le] using hdigit
    simp only [Text.isBlank, Text.blankRanges, List.any_cons, List.any_nil, Bool.or_eq_true,
      Bool.and_eq_true, decide_eq_true_eq, Bool.or_false] at h
    omega
  have hnumeral : Numeral.first? (c :: cs) = none := by
    rw [Numeral.first?, List.takeWhile_cons_of_neg (by simp [hdigit]),
      List.dropWhile_cons_of_neg (by simp [hdigit])]
    split
    · next rest heq => exact absurd (List.cons.inj heq).1 (hne '.' (by decide))
    · rfl
  rw [first?, halpha, if_neg Bool.false_ne_true, hnumeral]
  · rfl
  · exact hne '(' (by decide)
  · exact hne ')' (by decide)
  · exact hne ',' (by decide)
  · exact hne '-' (by decide)

namespace Token

variable {found tokens : Array Token}

/-- Blanks at the front of a line are skipped, if the line has tokens at all. -/
theorem scan_go_of_blanks {blanks cs : List Char} (hblanks : ∀ c ∈ blanks, Text.isBlank c)
    (h : scan.go found (blanks ++ cs) = .ok tokens) : scan.go found cs = .ok tokens := by
  induction blanks with
  | nil => exact h
  | cons c blanks ih =>
    obtain ⟨hc, hblanks⟩ := List.forall_mem_cons.mp hblanks
    rw [List.cons_append] at h
    apply ih hblanks
    by_cases hskip : isBlank c
    · rwa [scan_go_blank hskip] at h
    · -- the white space that is not skipped is no token either
      rw [scan.go, if_neg hskip, Lexeme.first?_of_isBlank hc] at h
      contradiction

/-- Scanning adds to the tokens that were found before. -/
theorem exists_append_of_scan_go {cs : List Char} (h : scan.go found cs = .ok tokens) :
    ∃ rest : List Token, tokens = found ++ rest.toArray := by
  fun_induction scan.go found cs with
  | case1 found =>
    obtain rfl := Except.ok.inj h
    exact ⟨[], by simp⟩
  | case2 found c cs hblank ih => exact ih h
  | case3 found c cs hblank hnone => exact nomatch h
  | case4 found c cs hblank lexeme hfirst hnone => exact nomatch h
  | case5 found c cs hblank lexeme hfirst token htoken ih =>
    obtain ⟨rest, rfl⟩ := ih h
    exact ⟨token :: rest, by simp⟩

end Token

namespace Line

variable {kind? : String → Option Kind} {line word : String}

/-- The first word of a line comes after blanks, and before the end of the line or a blank. -/
theorem exists_blanks_of_word? (h : word? line = some word) :
    ∃ blanks rest, line.toList = blanks ++ (word.toList ++ rest) ∧
      (∀ c ∈ blanks, Text.isBlank c) ∧ word.toList ≠ [] ∧ ∀ c ∈ rest.head?, Text.isBlank c := by
  obtain ⟨letters, hletters, rfl⟩ := Option.map_eq_some_iff.mp h
  rw [String.toList_ofList]
  have hword : (line.toList.dropWhile Text.isBlank).takeWhile (!Text.isBlank ·) = letters ∧
      letters ≠ [] := by
    unfold Text.firstWord? at hletters
    split at hletters
    · exact nomatch hletters
    · next hne =>
      obtain rfl := Option.some.inj hletters
      exact ⟨rfl, hne⟩
  refine ⟨line.toList.takeWhile Text.isBlank,
    (line.toList.dropWhile Text.isBlank).dropWhile (!Text.isBlank ·), ?_, ?_, hword.2, ?_⟩
  · rw [← hword.1, List.takeWhile_append_dropWhile, List.takeWhile_append_dropWhile]
  · exact List.all_eq_true.mp List.all_takeWhile
  · intro c hc
    have hhead := List.head?_dropWhile_not (!Text.isBlank ·) (line.toList.dropWhile Text.isBlank)
    rw [Option.mem_def.mp hc] at hhead
    simpa using hhead

/-- A line whose first word is a row of letters starts with the name that the word is. -/
theorem exists_name_of_scan {tokens : Array Token} (hword : word? line = some word)
    (hletters : ∀ c ∈ word.toList, c.isAlpha) (h : Token.scan line = .ok tokens) :
    ∃ rest, tokens.toList = .name word :: rest := by
  obtain ⟨blanks, rest, hline, hblanks, hne, hrest⟩ := exists_blanks_of_word? hword
  rw [Token.scan, hline] at h
  have hscan := Token.scan_go_of_blanks hblanks h
  rw [Token.scan_go_name ⟨word, hne, hletters⟩ fun c hc => ?_] at hscan
  · obtain ⟨rest, rfl⟩ := Token.exists_append_of_scan_go hscan
    exact ⟨rest, by simp⟩
  · -- what ends a word is no letter
    rw [Bool.eq_false_iff]
    intro hletter
    have hblank := hrest c hc
    rw [Entry.isBlank_eq_false_of_isAlpha hletter] at hblank
    contradiction

/-! ## How a line is read -/

/-- A line that is about no symbol is accepted and sets nothing. -/
theorem read_of_unknown (h : ∀ word, word? line = some word → kind? word = none) :
    read kind? line = .ok .blank ∨ ∃ word, read kind? line = .ok (.unknown word) := by
  unfold read
  cases hword : (Text.firstWord? line.toList).map String.ofList with
  | none => exact Or.inl rfl
  | some word =>
    have hkind := h word hword
    exact Or.inr ⟨word, by simp only [hkind]⟩

section

variable {kind : Kind} {tokens : Array Token} (hword : word? line = some word)
  (hkind : kind? word = some kind)
include hword hkind

theorem read_of_scan_error {text : String} (hscan : Token.scan line = .error text) :
    read kind? line = .error (.malformed (.unexpectedText text)) := by
  unfold word? at hword
  unfold read
  rw [hword]
  simp only [hkind, hscan]

theorem read_of_name {rest : List Token} (hscan : Token.scan line = .ok tokens)
    (htokens : tokens.toList = .name word :: rest) :
    read kind? line = Line.sets <$> setting kind word rest := by
  unfold word? at hword
  unfold read
  rw [hword]
  simp only [hkind, hscan, htokens, ↓reduceIte]

theorem read_of_not_name (hscan : Token.scan line = .ok tokens)
    (hne : ∀ rest, tokens.toList ≠ .name word :: rest) :
    read kind? line = .error (.malformed (.wrongStart word)) := by
  unfold word? at hword
  unfold read
  rw [hword]
  simp only [hkind, hscan]
  split
  · next first rest htokens =>
    apply if_neg
    intro hfirst
    exact hne rest (hfirst ▸ htokens)
  · rfl

/-- A line about a symbol is accepted exactly if it starts with the name and the rest sets it. -/
theorem read_eq_ok_iff {line' : Line} :
    read kind? line = .ok line' ↔ ∃ tokens s, Token.scan line = .ok (.name word :: tokens).toArray ∧
      setting kind word tokens = .ok s ∧ line' = .sets s := by
  constructor
  · intro h
    cases hscan : Token.scan line with
    | error text =>
      rw [read_of_scan_error hword hkind hscan] at h
      contradiction
    | ok tokens =>
      by_cases hname : ∃ rest, tokens.toList = .name word :: rest
      · obtain ⟨rest, htokens⟩ := hname
        rw [read_of_name hword hkind hscan htokens] at h
        cases hs : setting kind word rest with
        | error cause =>
          rw [hs] at h
          contradiction
        | ok s =>
          rw [hs] at h
          exact ⟨rest, s, by rw [← htokens], hs, (Except.ok.inj h).symm⟩
      · rw [read_of_not_name hword hkind hscan fun rest htokens => hname ⟨rest, htokens⟩] at h
        contradiction
  · intro h
    obtain ⟨tokens, s, hscan, hs, rfl⟩ := h
    rw [read_of_name hword hkind hscan rfl, hs]
    rfl

end

/-- A line whose first word is a row of letters is not refused for how it starts. -/
theorem read_ne_wrongStart (hword : word? line = some word)
    (hletters : ∀ c ∈ word.toList, c.isAlpha) (word' : String) :
    read kind? line ≠ .error (.malformed (.wrongStart word')) := by
  intro h
  cases hkind : kind? word with
  | none =>
    have hunknown : ∀ first, word? line = some first → kind? first = none := by
      intro first hfirst
      rwa [← Option.some.inj (hword.symm.trans hfirst)]
    have hread := read_of_unknown hunknown
    simp [h] at hread
  | some kind =>
    cases hscan : Token.scan line with
    | error text =>
      rw [read_of_scan_error hword hkind hscan] at h
      simp at h
    | ok tokens =>
      obtain ⟨rest, htokens⟩ := exists_name_of_scan hword hletters hscan
      rw [read_of_name hword hkind hscan htokens] at h
      -- what is wrong with the rest is another cause
      have hcause := isOfSetting_of_setting (map_eq_error_iff.mp h)
      contradiction

end Line

/-! ## Loading one line -/

namespace Loaded

variable {t : Table} {number : Nat} {line : String} {log : Log}

theorem load_of_sets {s : Setting} (h : Line.read t.kind? line = .ok (.sets s)) :
    (load { table := t } number line log).1 = { table := s.applyTo t } := by
  unfold load
  rw [h]
  rfl

theorem load_of_error {cause : Cause} (h : Line.read t.kind? line = .error cause) :
    (load { table := t } number line log).1 =
      { table := t, errors := #[.onLine number cause] } := by
  unfold load
  rw [h]
  rfl

theorem load_of_unknown (h : ∀ word, Line.word? line = some word → t.kind? word = none) :
    (load { table := t } number line log).1 = { table := t } := by
  unfold load
  cases Line.read_of_unknown h with
  | inl hread =>
    rw [hread]
    rfl
  | inr hread =>
    obtain ⟨word, hread⟩ := hread
    rw [hread]
    rfl

/-- A line is accepted exactly if it can be read. -/
theorem errors_load_eq_empty_iff :
    (load { table := t } number line log).1.errors = #[] ↔
      ∃ line', Line.read t.kind? line = .ok line' := by
  rw [load_fst]
  unfold Line.error?
  cases Line.read t.kind? line <;> simp

end Loaded

/-- Whether the tokens of a line give a number to a scalar. -/
def Line.GivesScalar (line word : String) (x : Float) : Prop :=
  ∃ token, Token.scan line = .ok #[.name word, token] ∧ token.Denotes x

/-- Whether the tokens of a line give a length to an array, and pairs of an index below the length
    and a number. -/
def Line.GivesArray (line word : String) (length : Nat) (pairs : List (Nat × Float)) : Prop :=
  ∃ groups, Token.scan line = .ok (.name word :: .integer length :: groups).toArray ∧
    length ≤ greatestLength ∧ Token.Groups length groups pairs

section

variable {kind? : String → Option Kind} {line word : String}

/-- A line about a scalar sets what its tokens give. -/
theorem Line.read_scalar_iff {line' : Line} (hword : word? line = some word)
    (hkind : kind? word = some .scalar) :
    read kind? line = .ok line' ↔
      ∃ x, GivesScalar line word x ∧ line' = .sets (.scalar word x) := by
  rw [read_eq_ok_iff hword hkind]
  constructor
  · intro h
    obtain ⟨tokens, s, hscan, hs, rfl⟩ := h
    obtain ⟨token, x, rfl, hx, rfl⟩ := setting_scalar_eq_ok_iff.mp hs
    exact ⟨x, ⟨token, hscan, hx⟩, rfl⟩
  · intro h
    obtain ⟨x, ⟨token, hscan, hx⟩, rfl⟩ := h
    exact ⟨[token], .scalar word x, hscan,
      setting_scalar_eq_ok_iff.mpr ⟨token, x, rfl, hx, rfl⟩, rfl⟩

/-- A line about an array sets what its tokens give. -/
theorem Line.read_array_iff {line' : Line} (hword : word? line = some word)
    (hkind : kind? word = some .array) :
    read kind? line = .ok line' ↔
      ∃ length pairs, GivesArray line word length pairs ∧
        line' = .sets (.array word length pairs) := by
  rw [read_eq_ok_iff hword hkind]
  constructor
  · intro h
    obtain ⟨tokens, s, hscan, hs, rfl⟩ := h
    obtain ⟨length, groups, pairs, rfl, hle, hgroups, rfl⟩ := setting_array_eq_ok_iff.mp hs
    exact ⟨length, pairs, ⟨groups, hscan, hle, hgroups⟩, rfl⟩
  · intro h
    obtain ⟨length, pairs, ⟨groups, hscan, hle, hgroups⟩, rfl⟩ := h
    exact ⟨_, .array word length pairs, hscan,
      setting_array_eq_ok_iff.mpr ⟨length, groups, pairs, rfl, hle, hgroups, rfl⟩, rfl⟩

end

end Values

/-! ## What a line changes -/

namespace Table

variable {t t' : Table} {name : String}

/-- Whether a table is another one but for the value of a scalar. -/
structure Gives (t t' : Table) (name : String) (x : Float) : Prop where
  arrays : t'.arrays = t.arrays
  names : t'.scalars.names = t.scalars.names
  get? : ∀ n, t'.scalars.get? n = if n = name then some x else t.scalars.get? n

/-- Whether a table is another one but for the cells of an array: they have the length, and each
    of them the value of the last pair that is about it, or zero if there is none. -/
structure GivesCells (t t' : Table) (name : String) (length : Nat) (pairs : List (Nat × Float)) :
    Prop where
  scalars : t'.scalars = t.scalars
  names : t'.arrays.names = t.arrays.names
  get? : ∀ n, n ≠ name → t'.arrays.get? n = t.arrays.get? n
  cells : ∃ cells, t'.arrays.get? name = some cells ∧ cells.length? = some length ∧
    ∀ j < length, cells.get? j = some ((pairs.reverse.lookup j).getD 0)

theorem gives_setScalar (h : t.kind? name = some .scalar) (x : Float) :
    t.Gives (t.setScalar name x) name x where
  arrays := rfl
  names := Bindings.names_update ..
  get? n := by
    obtain ⟨value, hvalue⟩ := exists_scalar_of_kind? h
    rw [setScalar, Bindings.get?_update]
    by_cases hn : n = name
    · rw [if_pos hn, if_pos hn, hn, hvalue, Option.map_some]
    · rw [if_neg hn, if_neg hn]

theorem givesCells_setCells (h : t.kind? name = some .array) (length : Nat)
    (pairs : List (Nat × Float)) :
    t.GivesCells (t.setCells name (Values.Setting.cellsOf length pairs)) name length pairs where
  scalars := rfl
  names := Bindings.names_update ..
  get? n hn := by rw [setCells, Bindings.get?_update, if_neg hn]
  cells := by
    obtain ⟨old, hold⟩ := exists_cells_of_kind? h
    refine ⟨Values.Setting.cellsOf length pairs, ?_, Values.Setting.length?_cellsOf .., ?_⟩
    · rw [setCells, Bindings.get?_update, if_pos rfl, hold, Option.map_some]
    · exact fun j hj => Values.Setting.get?_cellsOf hj

end Table

namespace Values

/-- A line without a word, or whose first word is no symbol, is accepted and changes nothing. A line
    about a scalar is accepted exactly if its tokens are the name and a number, and then gives this
    number to the scalar. A line about an array is accepted exactly if its tokens are the name, a
    length and groups of an index and a number, and then gives this length and these cells to the
    array; every cell that is written is one that the array has. A line that is not accepted changes
    nothing, and if its first word is a row of letters, it is not refused for how it starts. -/
theorem Loaded.load_spec (t : Table) (number : Nat) (line : String) (log : Log) :
    let loaded := (Loaded.load { table := t } number line log).1
    ((∀ word, Line.word? line = some word → t.kind? word = none) → loaded = { table := t }) ∧
    (loaded.errors ≠ #[] → loaded.table = t) ∧
    ∀ word, Line.word? line = some word →
      (t.kind? word = some .scalar →
        (loaded.errors = #[] ↔ ∃ x, Line.GivesScalar line word x) ∧
        ∀ x, Line.GivesScalar line word x → t.Gives loaded.table word x) ∧
      (t.kind? word = some .array →
        (loaded.errors = #[] ↔ ∃ length pairs, Line.GivesArray line word length pairs) ∧
        ∀ length pairs, Line.GivesArray line word length pairs →
          t.GivesCells loaded.table word length pairs ∧
          ∀ earlier index x later, pairs = earlier ++ (index, x) :: later →
            (Setting.cellsOf length earlier).has index) ∧
      ((∀ c ∈ word.toList, c.isAlpha) →
        ∀ word', .onLine number (.malformed (.wrongStart word')) ∉ loaded.errors.toList) := by
  intro loaded
  refine ⟨Loaded.load_of_unknown, ?_, ?_⟩
  · intro herrors
    cases hread : Line.read t.kind? line with
    | ok line' => exact absurd (Loaded.errors_load_eq_empty_iff.mpr ⟨line', hread⟩) herrors
    | error cause =>
      show (Loaded.load { table := t } number line log).1.table = t
      rw [Loaded.load_of_error hread]
  · intro word hword
    refine ⟨?_, ?_, ?_⟩
    · intro hkind
      constructor
      · rw [Loaded.errors_load_eq_empty_iff]
        simp [Line.read_scalar_iff hword hkind]
      · intro x hx
        have hread := (Line.read_scalar_iff hword hkind).mpr ⟨x, hx, rfl⟩
        have hloaded : loaded = { table := t.setScalar word x } := Loaded.load_of_sets hread
        rw [hloaded]
        exact Table.gives_setScalar hkind x
    · intro hkind
      constructor
      · rw [Loaded.errors_load_eq_empty_iff]
        simp [Line.read_array_iff hword hkind]
      · intro length pairs hpairs
        have hread := (Line.read_array_iff hword hkind).mpr ⟨length, pairs, hpairs, rfl⟩
        have hloaded : loaded = { table := t.setCells word (Setting.cellsOf length pairs) } :=
          Loaded.load_of_sets hread
        rw [hloaded]
        refine ⟨Table.givesCells_setCells hkind length pairs, ?_⟩
        intro earlier index x later heq
        obtain ⟨groups, -, -, hgroups⟩ := hpairs
        apply Setting.has_cellsOf.mpr
        exact hgroups.lt_of_mem (heq ▸ List.mem_append_cons_self)
    · intro hletters word' hmem
      cases hread : Line.read t.kind? line with
      | ok line' =>
        have hnone : loaded.errors = #[] := Loaded.errors_load_eq_empty_iff.mpr ⟨line', hread⟩
        rw [hnone] at hmem
        exact nomatch hmem
      | error cause =>
        have hloaded : loaded = { table := t, errors := #[.onLine number cause] } :=
          Loaded.load_of_error hread
        rw [hloaded, List.mem_singleton, LoadError.onLine.injEq] at hmem
        obtain rfl := hmem.2
        exact Line.read_ne_wrongStart hword hletters word' hread

/-- The second number for a cell is the one that it keeps, and what follows a word that is no symbol
    is not looked at. -/
theorem Loaded.load_spec_mixed :
    let t : Table := { scalars := ⟨[("x", 0)]⟩, arrays := ⟨[("A", .unloaded)]⟩ }
    t.Gives (load { table := t } 1 "x -2" #[]).1.table "x" (Binary64.ofInteger (-2)) ∧
      t.GivesCells (load { table := t } 2 "A 2 (1,7) (1,8)" #[]).1.table "A" 2
        [(1, Binary64.ofInteger 7), (1, Binary64.ofInteger 8)] ∧
      (load { table := t } 3 "y ]" #[]).1 = { table := t } := by
  intro t
  refine ⟨?_, ?_, ?_⟩
  · have hscan : Token.scan "x -2" = .ok #[.name "x", .integer (-2)] := by with_unfolding_all rfl
    exact (((load_spec t 1 "x -2" #[]).2.2 "x" (by decide +kernel)).1 rfl).2 _
      ⟨_, hscan, .integer _ (by decide)⟩
  · have hscan : Token.scan "A 2 (1,7) (1,8)" = .ok #[.name "A", .integer (2 : Nat),
        .opening, .integer (1 : Nat), .comma, .integer 7, .closing,
        .opening, .integer (1 : Nat), .comma, .integer 8, .closing] := by with_unfolding_all rfl
    exact ((((load_spec t 2 "A 2 (1,7) (1,8)" #[]).2.2 "A" (by decide +kernel)).2.1 rfl).2 2 _
      ⟨_, hscan, by decide, .cons (by decide) (.integer 7 (by decide))
        (.cons (by decide) (.integer 8 (by decide)) .nil)⟩).1
  · apply (load_spec t 3 "y ]" #[]).1
    intro word hword
    obtain rfl : "y" = word := by
      have hy : Line.word? "y ]" = some "y" := by decide +kernel
      exact Option.some.inj (hy.symm.trans hword)
    decide

end Values

end Reckon
