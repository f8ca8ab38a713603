import Reckon.Proofs.Brackets
import Reckon.Proofs.Splitting

/-!
# Pairs of brackets in a text and among its tokens

A pair of brackets can be searched for in a text, by byte offsets, or among its tokens, by indices.
The two searches take in the same brackets in the same order, since every bracket of a text is a
token of its own and no run hides one. So a search of the text goes through the steps of a search of
the tokens, with each index replaced by the offset of the token (`Search.map`).

## Key results

- `Token.Splits.searchText_eq`: the search of a text is the search of its tokens, renamed
- `Bracket.searchText_add`: where a text starts makes no difference to the search
- `Bracket.pairFrom_iff_pairInText`: pairs among the tokens from an index on, and in the text from
  there on
-/

namespace Reckon

/-! ## Renaming places -/

/-- A pairing with its places renamed. -/
def Pairing.map (f : Nat → Nat) : Pairing → Pairing
  | found first last => found (f first) (f last)
  | absent => absent
  | stray place => stray (f place)
  | unclosed first => unclosed (f first)

namespace Search

/-- A search with the places that it knows renamed. -/
def map (f : Nat → Nat) : Search → Search
  | seeking => seeking
  | inside first depth => inside (f first) depth
  | done pairing => done (pairing.map f)

/-- A step does the same under any names of the places. -/
theorem step_map (f : Nat → Nat) (search : Search) (place : Nat) (side : Option Side) :
    (search.map f).step (f place) side = (search.step place side).map f := by
  cases side with
  | none => simp only [step_none]
  | some side =>
    cases search with
    | seeking => cases side <;> rfl
    | done pairing => simp only [map, step_done]
    | inside first depth =>
      cases side with
      | opening => rfl
      | closing =>
        simp only [map, step]
        split <;> rfl

theorem outcome_map (f : Nat → Nat) (search : Search) :
    (search.map f).outcome = search.outcome.map f := by
  cases search <;> rfl

theorem outcome_eq_found_iff {search : Search} {a b : Nat} :
    search.outcome = .found a b ↔ search = done (.found a b) := by
  cases search <;> simp [outcome]

end Search

namespace Pairing

variable {kind : Bracket} {f g : Nat → Nat} {pairing pairing' : Pairing}

theorem toExcept_eq_ok_iff {a b : Nat} :
    pairing.toExcept kind f = .ok (a, b) ↔ pairing = found a b := by
  cases pairing <;> simp [toExcept]

/-- A pair under other names. -/
theorem map_eq_found {a b : Nat} (h : pairing.map f = found a b) :
    ∃ first last, pairing = found first last ∧ f first = a ∧ f last = b := by
  cases pairing with
  | found first last =>
    obtain ⟨ha, hb⟩ := Pairing.found.inj h
    exact ⟨first, last, rfl, ha, hb⟩
  | absent => exact nomatch h
  | stray place => exact nomatch h
  | unclosed first => exact nomatch h

/-- Two searches that end alike under two namings of the places report the same bracket, at the
    same place. -/
theorem toExcept_eq_error_iff_of_map_eq (hmap : pairing.map f = pairing'.map g) (hzero : f 0 = g 0)
    {fault : Fault} :
    pairing'.toExcept kind g = .error fault ↔
      ∃ side position, pairing.toExcept kind id = .error ⟨position, .unbalanced kind side⟩ ∧
        fault = ⟨f position, .unbalanced kind side⟩ := by
  -- the two end in the same way, since the names do not show how
  cases pairing <;> cases pairing' <;>
    simp only [map, found.injEq, stray.injEq, unclosed.injEq, reduceCtorEq] at hmap <;>
    simp only [toExcept, Except.error.injEq, Fault.mk.injEq, Fault.Cause.unbalanced.injEq,
      reduceCtorEq, id_eq, false_and, exists_false, true_and] <;>
    grind

end Pairing

/-! ## The search of a text -/

namespace Bracket

variable {kind : Bracket} {offset : Nat} {search : Search}

theorem searchText_append (cs ds : List Char) :
    kind.searchText offset search (cs ++ ds) =
      kind.searchText (offset + Text.byteLength cs) (kind.searchText offset search cs) ds := by
  induction cs generalizing offset search with
  | nil => rfl
  | cons c cs ih =>
    rw [List.cons_append, searchText, ih, searchText, Text.byteLength_cons, Nat.add_assoc]

/-- A search passes over characters that are no brackets of its kind. -/
theorem searchText_of_side?_eq_none {cs : List Char} (h : ∀ c ∈ cs, kind.side? c = none) :
    kind.searchText offset search cs = search := by
  induction cs generalizing offset search with
  | nil => rfl
  | cons c cs ih =>
    obtain ⟨hc, hcs⟩ := List.forall_mem_cons.mp h
    rw [searchText, hc, Search.step_none, ih hcs]

/-- Where a text starts makes no difference to the search, except that all places are moved. -/
theorem searchText_add (start : Nat) (cs : List Char) :
    kind.searchText (start + offset) (search.map (start + ·)) cs =
      (kind.searchText offset search cs).map (start + ·) := by
  induction cs generalizing offset search with
  | nil => rfl
  | cons c cs ih =>
    rw [searchText, searchText, ← ih, Nat.add_assoc]
    exact congrArg (kind.searchText _ · cs) (Search.step_map (start + ·) search offset _)

/-- An ordinary character is no bracket. -/
theorem side?_eq_none_of_ordinary {c : Char} (h : Token.Ordinary c) : kind.side? c = none := by
  refine Option.eq_none_iff_forall_ne_some.mpr fun side hside => ?_
  rw [side?_eq_some_iff] at hside
  subst hside
  apply h.2
  cases kind <;> cases side <;> decide

/-- A blank is no bracket. -/
theorem side?_eq_none_of_blank {c : Char} (h : Token.Blank c) : kind.side? c = none := by
  rcases h with rfl | rfl <;> cases kind <;> rfl

/-- A symbol is the bracket that its token is. -/
theorem side?_of_mem_symbols {c : Char} {token : Token} (h : (c, token) ∈ Token.symbols) :
    kind.side? c = token.side? kind := by
  simp only [Token.symbols, List.mem_cons, List.not_mem_nil, or_false, Prod.mk.injEq] at h
  rcases h with ⟨rfl, rfl⟩ | ⟨rfl, rfl⟩ | ⟨rfl, rfl⟩ | ⟨rfl, rfl⟩ | ⟨rfl, rfl⟩ | ⟨rfl, rfl⟩ |
    ⟨rfl, rfl⟩ | ⟨rfl, rfl⟩ <;> cases kind <;> rfl

end Bracket

namespace Token

/-- A run is no bracket. -/
theorem side?_ofRun (kind : Bracket) (run : List Char) : (ofRun run).side? kind = none := by
  unfold ofRun
  split
  · rfl
  · split <;> rfl

/-- The search of a text is that of its tokens, with the offset of each token for its place. -/
theorem Splits.searchText_eq {kind : Bracket} {offset place : Nat} {cs : List Char}
    {ps : List Placed} {search : Search} {f : Nat → Nat} (h : Splits offset cs ps)
    (hf : ∀ i p, ps[i]? = some p → f (place + i) = p.offset) :
    kind.searchText offset (search.map f) cs = (kind.searchRow place search ps).map f := by
  -- Induction on the rules. The search of the tokens goes on by one place whenever a rule gives a
  -- token, and the search of the text takes in all the characters of the rule.
  induction h generalizing place search with
  | nil offset => rfl
  | @blank offset c cs ps hc _ ih =>
    rw [Bracket.searchText, Bracket.side?_eq_none_of_blank hc, Search.step_none,
      hc.utf8Size]
    exact ih hf
  | @symbol offset c token cs ps hc _ ih =>
    have hplace : f place = offset := hf 0 _ rfl
    have hrest : ∀ i p, ps[i]? = some p → f (place + 1 + i) = p.offset := by
      intro i p hp
      rw [Nat.add_assoc, Nat.add_comm 1 i]
      exact hf (i + 1) p hp
    rw [Bracket.searchText, Bracket.side?_of_mem_symbols hc, utf8Size_of_mem_symbols hc,
      ← hplace, Search.step_map, hplace, ih hrest]
    rfl
  | @run offset run token cs ps hne hrun _ hread _ ih =>
    have hrest : ∀ i p, ps[i]? = some p → f (place + 1 + i) = p.offset := by
      intro i p hp
      rw [Nat.add_assoc, Nat.add_comm 1 i]
      exact hf (i + 1) p hp
    have hside : token.side? kind = none := by
      rw [(readsRun_iff hne).mp hread]
      exact side?_ofRun kind run
    rw [Bracket.searchText_append,
      Bracket.searchText_of_side?_eq_none fun c hc => Bracket.side?_eq_none_of_ordinary (hrun c hc),
      ih hrest, Bracket.searchRow, hside, Search.step_none]

/-- What is left of a text at a token has the tokens from this one on. -/
theorem Splits.exists_drop {offset start : Nat} {cs : List Char} {ps : List Placed} {p : Placed}
    (h : Splits offset cs ps) (hp : ps[start]? = some p) :
    ∃ before rest, cs = before ++ rest ∧ p.offset = offset + Text.byteLength before ∧
      Splits p.offset rest (ps.drop start) := by
  -- Induction on the rules. What comes before the token grows by what each rule takes away.
  induction h generalizing start with
  | nil => exact nomatch hp
  | @blank offset c cs ps hc hcs ih =>
    obtain ⟨before, rest, rfl, hoffset, hrest⟩ := ih hp
    refine ⟨c :: before, rest, rfl, ?_, hrest⟩
    rw [hoffset, Text.byteLength_cons, hc.utf8Size, Nat.add_assoc]
  | @symbol offset c token cs ps hc hcs ih =>
    cases start with
    | zero =>
      obtain rfl := Option.some.inj hp
      exact ⟨[], c :: cs, rfl, rfl, .symbol hc hcs⟩
    | succ start =>
      obtain ⟨before, rest, rfl, hoffset, hrest⟩ := ih hp
      refine ⟨c :: before, rest, rfl, ?_, hrest⟩
      rw [hoffset, Text.byteLength_cons, utf8Size_of_mem_symbols hc, Nat.add_assoc]
  | @run offset run token cs ps hne hrun hends hread hcs ih =>
    cases start with
    | zero =>
      obtain rfl := Option.some.inj hp
      exact ⟨[], run ++ cs, rfl, rfl, .run hne hrun hends hread hcs⟩
    | succ start =>
      obtain ⟨before, rest, rfl, hoffset, hrest⟩ := ih hp
      refine ⟨run ++ before, rest, (List.append_assoc ..).symm, ?_, hrest⟩
      rw [hoffset, Text.byteLength_append, Nat.add_assoc]

end Token

/-! ## What is left of a text -/

namespace Text

/-- What is left of a text from a byte offset on. -/
def dropBytes (offset : Nat) : List Char → List Char
  | [] => []
  | c :: cs => if offset = 0 then c :: cs else dropBytes (offset - c.utf8Size) cs

/-- What is left after some characters is what comes after them. -/
theorem dropBytes_append (before rest : List Char) :
    dropBytes (Text.byteLength before) (before ++ rest) = rest := by
  induction before with
  | nil => cases rest <;> rfl
  | cons c before ih =>
    have hpos := c.utf8Size_pos
    rw [List.cons_append, dropBytes, Text.byteLength_cons, if_neg (by omega),
      Nat.add_sub_cancel_left, ih]

/-- The byte offset at which a token of a text starts, and zero after the last token. -/
def offsetAt (text : String) (index : Nat) : Nat :=
  ((Token.scan text)[index]?.map Placed.offset).getD 0

/-- What is left of a text from a token on, and nothing after the last token. -/
def fromToken (text : String) (index : Nat) : String :=
  match (Token.scan text)[index]? with
  | some p => String.ofList (dropBytes p.offset text.toList)
  | none => ""

/-- What is left of a text from a token on has the tokens from this one on. -/
theorem splits_fromToken (text : String) (start : Nat) :
    Token.Splits (offsetAt text start) (fromToken text start).toList
      ((Token.scan text).toList.drop start) := by
  unfold offsetAt fromToken
  cases hp : (Token.scan text)[start]? with
  | none =>
    have hsize : (Token.scan text).toList.length ≤ start := by simpa using hp
    rw [List.drop_eq_nil_of_le hsize]
    exact .nil 0
  | some p =>
    have hp' : (Token.scan text).toList[start]? = some p := by rw [Array.getElem?_toList, hp]
    obtain ⟨before, rest, hsplit, hoffset, hrest⟩ := (Token.splits_scan text).exists_drop hp'
    rw [Nat.zero_add] at hoffset
    simp only [Option.map_some, Option.getD_some, String.toList_ofList]
    rw [hsplit, hoffset, dropBytes_append, ← hoffset]
    exact hrest

/-- Before what is left of a text from a token on there are as many bytes as its offset says. -/
theorem exists_append_fromToken {text : String} {start : Nat}
    (h : start < (Token.scan text).size) :
    ∃ before, before ++ fromToken text start = text ∧
      Text.byteLength before.toList = offsetAt text start := by
  have hp : (Token.scan text)[start]? = some (Token.scan text)[start] := Array.getElem?_eq_getElem h
  have hp' : (Token.scan text).toList[start]? = some (Token.scan text)[start] := by
    rw [Array.getElem?_toList, hp]
  obtain ⟨before, rest, hsplit, hoffset, -⟩ := (Token.splits_scan text).exists_drop hp'
  rw [Nat.zero_add] at hoffset
  refine ⟨String.ofList before, ?_, ?_⟩
  · simp only [fromToken, hp]
    rw [hsplit, hoffset, dropBytes_append, ← String.ofList_append, ← hsplit, String.ofList_toList]
  · simp [offsetAt, hp, hoffset]

end Text

/-! ## Pairs -/

namespace Bracket

variable {kind : Bracket}

/-- A pair that a search finds is in the row that it goes through, the first bracket before the
    last. -/
theorem searchRow_seeking_found {place a b : Nat} {ps : List Placed}
    (h : kind.searchRow place .seeking ps = .done (.found a b)) :
    place ≤ a ∧ a < b ∧ b < place + ps.length := by
  induction ps generalizing place with
  | nil => cases h
  | cons p ps ih =>
    rw [searchRow] at h
    rw [List.length_cons]
    cases hside : p.token.side? kind with
    | none =>
      rw [hside, Search.step_none] at h
      have := ih h
      omega
    | some side =>
      rw [hside] at h
      cases side with
      | opening =>
        obtain ⟨rfl, us, c, vs, rfl, rfl⟩ := searchRow_inside_found h
        simp only [List.length_append, List.length_cons]
        omega
      | closing =>
        simp only [Search.step, searchRow_done] at h
        cases h

/-- A search among the tokens from an index on is a search of the row that is left there. -/
theorem pairFrom_eq (kind : Bracket) (text : String) (start : Nat) :
    kind.pairFrom (Token.scan text) start =
      (kind.searchRow 0 .seeking ((Token.scan text).toList.drop start)).outcome.toExcept kind
        fun place => Text.offsetAt text (start + place) := by
  simp only [pairFrom, pairWithin, searchTokens_eq_searchRow, Nat.add_zero, slice_size]
  congr 1
  funext place
  simp only [Text.offsetAt]
  split
  · next h => rw [Array.getElem?_eq_getElem h]; rfl
  · next h => rw [Array.getElem?_eq_none (by omega)]; rfl

/-- The search of what is left of a text from a token on ends as that among its tokens does, with
    the places renamed. -/
theorem outcome_map_fromToken (kind : Bracket) (text : String) (start : Nat) :
    ((kind.searchText 0 .seeking (Text.fromToken text start).toList).outcome).map
        (Text.offsetAt text start + ·) =
      ((kind.searchRow 0 .seeking ((Token.scan text).toList.drop start)).outcome).map
        fun place => Text.offsetAt text (start + place) := by
  have hplaces : ∀ i p, ((Token.scan text).toList.drop start)[i]? = some p →
      Text.offsetAt text (start + (0 + i)) = p.offset := by
    intro i p hp
    rw [List.getElem?_drop, Array.getElem?_toList] at hp
    rw [Nat.zero_add, Text.offsetAt, hp]
    rfl
  let names := fun place => Text.offsetAt text (start + place)
  -- a search that has not begun knows no places, so it is the same under all names
  have htokens : kind.searchText (Text.offsetAt text start) (Search.map names .seeking)
      (Text.fromToken text start).toList =
      (kind.searchRow 0 .seeking ((Token.scan text).toList.drop start)).map names :=
    (Text.splits_fromToken text start).searchText_eq hplaces
  have hmoved : kind.searchText (Text.offsetAt text start + 0)
      (Search.map (Text.offsetAt text start + ·) .seeking) (Text.fromToken text start).toList =
      (kind.searchText 0 .seeking (Text.fromToken text start).toList).map
        (Text.offsetAt text start + ·) :=
    searchText_add (Text.offsetAt text start) (Text.fromToken text start).toList
  rw [← Search.outcome_map, ← Search.outcome_map, ← htokens, ← hmoved]
  rfl

/-- The brackets that a search of the tokens finds are tokens of the text. -/
theorem getElem?_of_found {text : String} {start i j : Nat}
    (h : (kind.searchRow 0 .seeking ((Token.scan text).toList.drop start)).outcome =
      .found i j) :
    (Token.scan text)[start + i]?.map Placed.offset = some (Text.offsetAt text (start + i)) ∧
      (Token.scan text)[start + j]?.map Placed.offset = some (Text.offsetAt text (start + j)) := by
  have hrange := searchRow_seeking_found (Search.outcome_eq_found_iff.mp h)
  rw [List.length_drop, Array.length_toList] at hrange
  have hoffset : ∀ index, index < (Token.scan text).size →
      (Token.scan text)[index]?.map Placed.offset = some (Text.offsetAt text index) := by
    intro index hindex
    rw [Text.offsetAt, Array.getElem?_eq_getElem hindex]
    rfl
  exact ⟨hoffset _ (by omega), hoffset _ (by omega)⟩

/-- No two tokens of a text start at the same offset. -/
theorem index_unique {text : String} {i j offset : Nat}
    (hi : (Token.scan text)[i]?.map Placed.offset = some offset)
    (hj : (Token.scan text)[j]?.map Placed.offset = some offset) : i = j := by
  obtain ⟨p, hp, rfl⟩ := Option.map_eq_some_iff.mp hi
  obtain ⟨q, hq, hoffset⟩ := Option.map_eq_some_iff.mp hj
  obtain ⟨hi', rfl⟩ := Array.getElem?_eq_some_iff.mp hp
  obtain ⟨hj', rfl⟩ := Array.getElem?_eq_some_iff.mp hq
  have hincrease := List.pairwise_iff_getElem.mp (Token.splits_scan text).offsets.2
  rcases Nat.lt_trichotomy i j with hlt | heq | hgt
  · have : (Token.scan text)[i].offset < (Token.scan text)[j].offset := hincrease i j hi' hj' hlt
    omega
  · exact heq
  · have : (Token.scan text)[j].offset < (Token.scan text)[i].offset := hincrease j i hj' hi' hgt
    omega

/-- The first pair of brackets among the tokens of a text from an index on is the first pair in what
    is left of the text there, found at the offsets of these tokens. If there is no such pair, both
    searches blame the same bracket, at the same place of the text. -/
theorem pairFrom_iff_pairInText (text : String) (kind : Bracket) (start : Nat) :
    let tokens := Token.scan text
    let o := Text.offsetAt text start
    let s := Text.fromToken text start
    (start < tokens.size → ∃ before, before ++ s = text ∧ Text.byteLength before.toList = o) ∧
    (tokens.size ≤ start → s = "" ∧ o = 0) ∧
    (∀ i j, kind.pairFrom tokens start = .ok (i, j) ↔
      ∃ p q, kind.pairInText s = .ok (p, q) ∧
        tokens[start + i]?.map Placed.offset = some (o + p) ∧
        tokens[start + j]?.map Placed.offset = some (o + q)) ∧
    (∀ fault, kind.pairFrom tokens start = .error fault ↔
      ∃ side position, kind.pairInText s = .error ⟨position, .unbalanced kind side⟩ ∧
        fault = ⟨o + position, .unbalanced kind side⟩) := by
  intro tokens o s
  have hmap := outcome_map_fromToken kind text start
  refine ⟨Text.exists_append_fromToken, fun hsize => ?_, fun i j => ?_, fun fault => ?_⟩
  · have hnone : (Token.scan text)[start]? = none := Array.getElem?_eq_none hsize
    simp [s, o, Text.fromToken, Text.offsetAt, hnone]
  · rw [pairFrom_eq, Pairing.toExcept_eq_ok_iff]
    constructor
    · intro hfound
      obtain ⟨hi, hj⟩ := getElem?_of_found hfound
      rw [hfound] at hmap
      obtain ⟨p, q, hpair, hp, hq⟩ := Pairing.map_eq_found hmap
      exact ⟨p, q, Pairing.toExcept_eq_ok_iff.mpr hpair, hi.trans (congrArg some hp.symm),
        hj.trans (congrArg some hq.symm)⟩
    · rintro ⟨p, q, hpair, hp, hq⟩
      rw [Pairing.toExcept_eq_ok_iff.mp hpair] at hmap
      obtain ⟨a, b, hfound, ha, hb⟩ := Pairing.map_eq_found hmap.symm
      obtain ⟨hi, hj⟩ := getElem?_of_found hfound
      -- the tokens at these offsets are the ones that the search of the tokens finds
      have hia : start + a = start + i := index_unique (hi.trans (congrArg some ha)) hp
      have hjb : start + b = start + j := index_unique (hj.trans (congrArg some hb)) hq
      rw [hfound, Nat.add_left_cancel hia, Nat.add_left_cancel hjb]
  · rw [pairFrom_eq]
    exact Pairing.toExcept_eq_error_iff_of_map_eq hmap rfl

/-- In `é*(aé+b)`, the tokens from the star on have the pair that the text `*(aé+b)` has two bytes
    later. There are two more bytes than tokens before the last bracket of it. -/
theorem pairFrom_iff_pairInText_star :
    (∃ before, before ++ "*(aé+b)" = "é*(aé+b)" ∧ Text.byteLength before.toList = 2) ∧
      round.pairInText "*(aé+b)" = .ok (1, 7) ∧
      round.pairFrom (Token.scan "é*(aé+b)") 1 = .ok (1, 5) := by
  have hsuffix : Text.fromToken "é*(aé+b)" 1 = "*(aé+b)" := by decide +kernel
  have hoffset : Text.offsetAt "é*(aé+b)" 1 = 2 := by decide +kernel
  have hpair : round.pairInText "*(aé+b)" = .ok (1, 7) :=
    Pairing.toExcept_eq_ok_iff.mpr (by decide +kernel)
  obtain ⟨hsplit, -, hok, -⟩ := pairFrom_iff_pairInText "é*(aé+b)" round 1
  rw [hsuffix, hoffset] at hsplit hok
  exact ⟨hsplit (by decide +kernel), hpair,
    (hok 1 5).mpr ⟨1, 7, hpair, by decide +kernel, by decide +kernel⟩⟩

end Bracket

end Reckon
