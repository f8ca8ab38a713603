import Reckon.Proofs.Faults
import Reckon.Proofs.Limits
import Reckon.Proofs.Scanning

/-!
# Where brackets are nested too deep

Brackets of both kinds are nested together, and how deep a token is shows in how many more of them
have been opened than closed before it. An evaluation blames the first bracket that opens when as
many are open as may be. It finds no earlier one to blame, because what it has evaluated before is
derivable with the levels that were left, and it finds that one, unless the subscript of a cell
that comes before it is out of range.

## Key results

- `Derives.shallow`: in what the grammar derives, brackets are nested as deep as the tree is
- `Evaluation.Reaches.level`: how many brackets are open at the points that an evaluation reaches
- `Evaluation.Raises.of_depth_or_subscript`: what is blamed is in the row of the tokens, or is the
  first bracket that is too deep, or a subscript before it
- `evaluate_depth_spec`: what the limit does to the result of an evaluation
-/

namespace Reckon

/-! ## Open brackets -/

/-- How many brackets are opened, of both kinds together. -/
def opened (ps : List Placed) : Nat :=
  (brackets ps).countP (·.2 = .opening)

/-- How many brackets are closed, of both kinds together. -/
def closed (ps : List Placed) : Nat :=
  (brackets ps).countP (·.2 = .closing)

/-- Whether the token at an index is an opening bracket, with a number of brackets open before
    it. -/
def DeepAt (limit : Nat) (ps : List Placed) (i : Nat) : Prop :=
  (∃ kind offset, ps[i]? = some ⟨.bracket kind .opening, offset⟩) ∧
    opened (ps.take i) = closed (ps.take i) + limit

/-- Whether the first opening bracket with a number of brackets open before it is at an index. -/
structure FirstDeep (limit : Nat) (ps : List Placed) (i : Nat) : Prop where
  deep : DeepAt limit ps i
  first : ∀ j < i, ¬ DeepAt limit ps j

/-- Whether all brackets are opened with less than a number of them open. -/
def Shallow (room : Nat) (ps : List Placed) : Prop :=
  ∀ i kind offset, ps[i]? = some ⟨.bracket kind .opening, offset⟩ →
    opened (ps.take i) < closed (ps.take i) + room

section

variable {ps qs : List Placed} {p : Placed} {room room' limit i : Nat}

@[simp] theorem opened_append (ps qs : List Placed) :
    opened (ps ++ qs) = opened ps + opened qs := by
  rw [opened, brackets_append, List.countP_append]
  rfl

@[simp] theorem closed_append (ps qs : List Placed) :
    closed (ps ++ qs) = closed ps + closed qs := by
  rw [closed, brackets_append, List.countP_append]
  rfl

@[simp] theorem opened_opening (kind : Bracket) (o : Nat) :
    opened [⟨.bracket kind .opening, o⟩] = 1 := rfl

@[simp] theorem closed_opening (kind : Bracket) (o : Nat) :
    closed [⟨.bracket kind .opening, o⟩] = 0 := rfl

/-- As many brackets are closed as are opened where they are properly nested. -/
theorem Nested.opened_eq (h : Nested ps) : opened ps = closed ps := by
  unfold Nested at h
  unfold opened closed
  generalize brackets ps = w at h
  induction h with
  | nil => rfl
  | pair kind _ _ ihu ihv =>
    simp only [List.cons_append, List.countP_cons, List.countP_append, ihu, ihv]
    simp only [decide_true, reduceCtorEq, decide_false, Bool.false_eq_true, ↓reduceIte]
    omega

/-- If any bracket is too deep, there is a first one. -/
theorem exists_firstDeep (h : DeepAt limit ps i) : ∃ j, FirstDeep limit ps j := by
  induction i using Nat.strongRecOn with
  | ind i ih =>
    by_cases hbefore : ∃ j < i, DeepAt limit ps j
    · obtain ⟨j, hlt, hj⟩ := hbefore
      exact ih j hlt hj
    · exact ⟨i, h, fun j hlt hj => hbefore ⟨j, hlt, hj⟩⟩

/-! ## Shallow tokens -/

namespace Shallow

theorem nil : Shallow room [] := nofun

/-- Tokens without brackets open none. -/
theorem of_brackets_eq_nil (h : brackets ps = []) : Shallow room ps := by
  intro i kind offset hi
  have hmem : (kind, Side.opening) ∈ brackets ps :=
    List.mem_filterMap.mpr ⟨_, List.mem_of_getElem? hi, rfl⟩
  rw [h] at hmem
  exact nomatch hmem

theorem singleton (h : p.token.bracket? = none) : Shallow room [p] :=
  of_brackets_eq_nil (by simp [brackets, h])

/-- A bracket can be opened where there is room for it. -/
theorem opening (h : 0 < room) (kind : Bracket) (o : Nat) :
    Shallow room [⟨.bracket kind .opening, o⟩] := by
  intro i kind' offset hi
  cases i with
  | zero => exact Nat.lt_of_lt_of_le h (Nat.le_add_left ..)
  | succ i => exact nomatch hi

/-- A bracket can always be closed. -/
theorem closing (kind : Bracket) (o : Nat) : Shallow room [⟨.bracket kind .closing, o⟩] := by
  intro i kind' offset hi
  cases i with
  | zero => exact nomatch hi
  | succ i => exact nomatch hi

theorem mono (h : Shallow room ps) (hle : room ≤ room') : Shallow room' ps := by
  intro i kind offset hi
  have hlt := h i kind offset hi
  omega

/-- Tokens come after others with the room that these leave. -/
theorem append (hp : Shallow room ps) (hq : Shallow room' qs)
    (hroom : opened ps + room' ≤ closed ps + room) : Shallow room (ps ++ qs) := by
  intro i kind offset hi
  by_cases hlt : i < ps.length
  · rw [List.getElem?_append_left hlt] at hi
    rw [List.take_append_of_le_length (Nat.le_of_lt hlt)]
    exact hp i kind offset hi
  · have hle := Nat.not_lt.mp hlt
    rw [List.getElem?_append_right hle] at hi
    have hafter := hq (i - ps.length) kind offset hi
    rw [List.take_append, List.take_of_length_le hle, opened_append, closed_append]
    omega

/-- What is inside brackets is one level deeper. -/
theorem enclose (h : Shallow room ps) (hnested : Nested ps) (kind : Bracket) (o c : Nat) :
    Shallow (room + 1) (⟨.bracket kind .opening, o⟩ :: ps ++ [⟨.bracket kind .closing, c⟩]) := by
  have hinside : Shallow (room + 1) ([⟨.bracket kind .opening, o⟩] ++ ps) := by
    apply (opening (Nat.succ_pos room) kind o).append h
    rw [opened_opening, closed_opening]
    omega
  have hclosing : Shallow 0 [⟨.bracket kind .closing, c⟩] := closing kind c
  apply hinside.append hclosing
  rw [opened_append, closed_append, opened_opening, closed_opening, hnested.opened_eq]
  omega

/-- Tokens come after properly nested ones with the same room. -/
theorem append_of_nested (hp : Shallow room ps) (hnested : Nested ps) (hq : Shallow room qs) :
    Shallow room (ps ++ qs) := by
  apply hp.append hq
  exact Nat.add_le_add_right (Nat.le_of_eq hnested.opened_eq) room

end Shallow

/-- In what the grammar derives, brackets are nested as deep as the tree is. -/
theorem Derives.shallow {phrase : Phrase} {t : Tree} (h : Derives phrase ps t) :
    Shallow t.depth ps := by
  induction h with
  | number v o => exact .singleton rfl
  | scalar name o => exact .singleton rfl
  | @cell ts t name o o' c ht ih =>
    have hname : Shallow (t.depth + 1) [⟨.name name, o⟩] := .singleton rfl
    exact hname.append_of_nested (.singleton rfl) (ih.enclose ht.nested .square o' c)
  | group o c ht ih => exact ih.enclose ht.nested .round o c
  | @binary phrase ls rs l r op o hop hl hr ihl ihr =>
    have hleft : Shallow (Tree.binary op l r).depth ls := ihl.mono (Nat.le_max_left ..)
    have hop : Shallow (Tree.binary op l r).depth [⟨.operator op, o⟩] := .singleton rfl
    have hright : Shallow (Tree.binary op l r).depth rs := ihr.mono (Nat.le_max_right ..)
    exact hleft.append_of_nested hl.nested (hop.append_of_nested (.singleton rfl) hright)
  | single _ _ ih => exact ih

/-- No bracket is too deep among tokens that open all of them with less than a number open. -/
theorem Shallow.not_deepAt {n : Nat} (h : Shallow limit (ps.take n)) (hi : i < n) :
    ¬ DeepAt limit ps i := by
  intro hdeep
  obtain ⟨⟨kind, offset, htok⟩, heq⟩ := hdeep
  have hlt := h i kind offset (by rw [List.getElem?_take_of_lt hi, htok])
  rw [List.take_take, Nat.min_eq_left (Nat.le_of_lt hi)] at hlt
  omega

/-! ## Deep tokens -/

/-- A bracket is as deep if there are more tokens after it. -/
theorem DeepAt.append_right (h : DeepAt limit ps i) (qs : List Placed) :
    DeepAt limit (ps ++ qs) i := by
  obtain ⟨⟨kind, offset, htok⟩, heq⟩ := h
  have hlt := (List.getElem?_eq_some_iff.mp htok).1
  rw [DeepAt, List.getElem?_append_left hlt, List.take_append_of_le_length (Nat.le_of_lt hlt)]
  exact ⟨⟨kind, offset, htok⟩, heq⟩

/-- A bracket is deeper by the number of brackets that are open before the tokens. -/
theorem DeepAt.append_left (h : DeepAt limit qs i) (hopen : opened ps + limit = closed ps + room) :
    DeepAt room (ps ++ qs) (ps.length + i) := by
  obtain ⟨htok, heq⟩ := h
  rw [DeepAt, List.getElem?_append_right (Nat.le_add_right ..), List.take_length_add_append,
    Nat.add_sub_cancel_left, opened_append, closed_append]
  exact ⟨htok, by omega⟩

private theorem exists_deepAt_enclose {depth : Nat}
    (h : ∀ limit < depth, ∃ i, DeepAt limit ps i) (hlimit : limit < depth + 1) (kind : Bracket)
    (o c : Nat) :
    ∃ i, DeepAt limit (⟨.bracket kind .opening, o⟩ :: ps ++ [⟨.bracket kind .closing, c⟩]) i := by
  cases limit with
  | zero => exact ⟨0, ⟨kind, o, rfl⟩, rfl⟩
  | succ limit =>
    obtain ⟨i, hi⟩ := h limit (Nat.lt_of_succ_lt_succ hlimit)
    have hinside : DeepAt (limit + 1) ([⟨.bracket kind .opening, o⟩] ++
        (ps ++ [⟨.bracket kind .closing, c⟩])) (1 + i) := by
      apply (hi.append_right _).append_left
      rw [opened_opening, closed_opening]
      omega
    exact ⟨_, hinside⟩

/-- What the grammar derives has a bracket at each level of the tree. -/
theorem Derives.exists_deepAt {phrase : Phrase} {t : Tree} (h : Derives phrase ps t)
    (hlimit : limit < t.depth) : ∃ i, DeepAt limit ps i := by
  induction h generalizing limit with
  | number v o => exact absurd hlimit (Nat.not_lt_zero limit)
  | scalar name o => exact absurd hlimit (Nat.not_lt_zero limit)
  | cell name o o' c ht ih =>
    obtain ⟨i, hi⟩ := exists_deepAt_enclose (fun _ => ih) hlimit .square o' c
    have hafter : DeepAt limit ([⟨.name name, o⟩] ++ _) (1 + i) := hi.append_left rfl
    exact ⟨_, hafter⟩
  | group o c ht ih => exact exists_deepAt_enclose (fun _ => ih) hlimit .round o c
  | @binary phrase ls rs l r op o hop hl hr ihl ihr =>
    by_cases hleft : limit < l.depth
    · obtain ⟨i, hi⟩ := ihl hleft
      exact ⟨i, hi.append_right _⟩
    · have hright : limit < r.depth := by
        have hmax : limit < max l.depth r.depth := hlimit
        omega
      obtain ⟨i, hi⟩ := ihr hright
      have hafter : DeepAt limit ([⟨.operator op, o⟩] ++ rs) (1 + i) := hi.append_left rfl
      exact ⟨_, hafter.append_left (by rw [hl.nested.opened_eq])⟩
  | single _ _ ih => exact ih hlimit

end

namespace Evaluation

variable {e : Evaluation} {room start stop index bracket : Nat} {pending : Stacks} {kind : Bracket}

/-! ## Open brackets at the points of an evaluation -/

/-- What holds of the brackets before a point that an evaluation reaches. -/
structure Level (e : Evaluation) (room start index : Nat) : Prop where
  /-- The levels that are left and the brackets that are open make up the limit. -/
  opened_eq : opened (slice e.tokens 0 start) + room = closed (slice e.tokens 0 start) + e.limit
  room_le : room ≤ e.limit
  /-- No bracket before the point is too deep. -/
  shallow : Shallow e.limit (slice e.tokens 0 index)

/-- What is before the bracket that opens at an operand is no bracket. -/
theorem Opens.brackets_eq_nil (h : e.Opens stop index kind bracket) :
    brackets (slice e.tokens index bracket) = [] := by
  cases h with
  | group hlt htok =>
    rw [slice_of_le (Nat.le_refl _)]
    rfl
  | subscript hstop hlt htok hopens => simp [slice_succ hlt, brackets, htok, Token.bracket?]

namespace Level

/-- After properly nested tokens, as many levels are left as before. -/
theorem opened_of_nested (h : e.Level room start index)
    (hnested : Nested (slice e.tokens start bracket)) (hle : start ≤ bracket) :
    opened (slice e.tokens 0 bracket) + room = closed (slice e.tokens 0 bracket) + e.limit := by
  have hstart := h.opened_eq
  have heq := hnested.opened_eq
  rw [← slice_append (Nat.zero_le start) hle, opened_append, closed_append]
  omega

/-- What holds of the brackets before the one that opens at an operand. -/
theorem opens (h : e.Level room start index) (hpoint : e.Point start stop index pending)
    (hopens : e.Opens stop index kind bracket) (hle : index ≤ bracket) :
    opened (slice e.tokens 0 bracket) + room = closed (slice e.tokens 0 bracket) + e.limit ∧
      Shallow e.limit (slice e.tokens 0 bracket) := by
  have hnone := hopens.brackets_eq_nil
  have hstart := hpoint.start_le
  have hnested : Nested (slice e.tokens start bracket) := by
    rw [← slice_append hstart hle]
    apply hpoint.nested.append
    rw [Nested, hnone]
    exact .nil
  constructor
  · exact h.opened_of_nested hnested (by omega)
  · have hindex := h.opened_of_nested hpoint.nested hstart
    have hbetween : Shallow room (slice e.tokens index bracket) := .of_brackets_eq_nil hnone
    rw [← slice_append (Nat.zero_le index) hle]
    exact h.shallow.append hbetween (Nat.le_of_eq hindex)

end Level

/-- How many brackets are open at the points that an evaluation reaches. -/
theorem Reaches.level (h : e.Reaches room start stop index pending) :
    e.Level room start index := by
  -- Induction on how the point is reached. An operand that has been evaluated is derivable with the
  -- levels that were left, so it has no bracket that is too deep.
  induction h with
  | all =>
    have hnil : slice e.tokens 0 0 = [] := slice_of_le (Nat.le_refl 0)
    refine ⟨?_, Nat.le_refl _, ?_⟩
    · rw [hnil]
      rfl
    · rw [hnil]
      exact .nil
  | @next room start stop index pending pending' operand op hstop hlt hnext hreach hoperand htok
      hreduce ih =>
    have hpoint := hreach.point
    obtain ⟨hle, t, ht, hd⟩ :=
      spans_of_operand_ok (innerOf_appends room) (innerOf_parses room) hoperand
    have hindex := ih.opened_of_nested hpoint.nested hpoint.start_le
    have hop : Shallow room [e.tokens[index + 1 + operand.more]] := .singleton (by rw [htok]; rfl)
    have hrest := (ht.shallow.mono hd).append_of_nested ht.nested hop
    refine ⟨ih.opened_eq, ih.room_le, ?_⟩
    rw [← slice_succ (by omega), slice_append (by omega) (by omega)] at hrest
    rw [← slice_append (Nat.zero_le index) (by omega)]
    exact ih.shallow.append hrest (Nat.le_of_eq hindex)
  | @inside room start stop index bracket first last pending kind hstop hlt hreach hopens hpair
      ih =>
    obtain ⟨hle, hb, hsize, hopen⟩ := hopens.opening hstop hlt
    obtain ⟨heq, hshallow⟩ := ih.opens hreach.point hopens hle
    have hbracket : slice e.tokens bracket (bracket + 1) =
        [⟨.bracket kind .opening, e.tokens[bracket].offset⟩] := by
      rw [slice_succ hsize, ← hopen]
    have hroom := ih.room_le
    refine ⟨?_, by omega, ?_⟩
    · rw [← slice_append (Nat.zero_le bracket) (Nat.le_succ bracket), hbracket, opened_append,
        closed_append, opened_opening, closed_opening]
      omega
    · rw [← slice_append (Nat.zero_le bracket) (Nat.le_succ bracket), hbracket]
      apply hshallow.append (.opening (Nat.succ_pos room) kind _)
      exact Nat.le_of_eq heq

end Evaluation

/-! ## The fault that is met -/

namespace Fault

/-- Whether a cause is in the row of the tokens, whatever their values are and however many levels
    of brackets there may be. -/
def Cause.isSyntactic : Cause → Bool
  | .unbalanced .. | .emptyExpression | .missingOperand | .unexpectedToken _ => true
  | _ => false

/-- Whether a fault is that of the first bracket that is too deep. -/
def OfDepth (limit : Nat) (ps : List Placed) (fault : Fault) : Prop :=
  ∃ i kind, FirstDeep limit ps i ∧ ps[i]? = some ⟨.bracket kind .opening, fault.offset⟩ ∧
    fault.cause = .nestingTooDeep limit

/-- Whether a fault is that of a subscript whose closing bracket is at an index. -/
def OfSubscript (tokens : Array Placed) (close : Nat) (fault : Fault) : Prop :=
  ∃ i name, tokens[i]? = some ⟨.name name, fault.offset⟩ ∧
    Bracket.square.Partners tokens (i + 1) close ∧
    ((∃ v, fault.cause = .invalidIndex name v) ∨
      ∃ index length, fault.cause = .indexOutOfRange name index length)

end Fault

/-- The only faults of a tree are those of its subscripts. -/
theorem Tree.isSyntactic_of_eval {table : Table} {t : Tree} {fault : Fault}
    (h : t.eval table = .error fault) : fault.cause.isSyntactic = false := by
  induction t with
  | number v => exact nomatch h
  | scalar name => exact nomatch h
  | cell name offset subscript ih =>
    cases bind_eq_error_iff.mp h with
    | inl hsubscript => exact ih hsubscript
    | inr hread =>
      obtain ⟨v, -, hread⟩ := hread
      rcases (Table.read_eq_error hread).2 with hcause | ⟨index, length, hcause⟩ <;> rw [hcause] <;>
        rfl
  | group inner ih => exact ih h
  | binary op left right ihl ihr =>
    cases bind_eq_error_iff.mp h with
    | inl hleft => exact ihl hleft
    | inr hrest =>
      obtain ⟨l, -, hrest⟩ := hrest
      cases bind_eq_error_iff.mp hrest with
      | inl hright => exact ihr hright
      | inr hvalue =>
        obtain ⟨r, -, hvalue⟩ := hvalue
        exact nomatch hvalue

/-- Brackets with properly nested tokens between them are partners. -/
theorem Bracket.Partners.of_slice {kind : Bracket} {tokens : Array Placed} {i j o c : Nat}
    {ts : List Placed} (hj : j < tokens.size) (hts : Nested ts)
    (h : slice tokens i (j + 1) =
      ⟨.bracket kind .opening, o⟩ :: (ts ++ [⟨.bracket kind .closing, c⟩])) :
    kind.Partners tokens i j := by
  obtain ⟨hlt, hopen, hrest⟩ := getElem_of_slice_eq_cons h hj
  obtain ⟨hbetween, hlast, hend⟩ := slice_of_append hrest hj hlt
  obtain ⟨hlast', hclose, -⟩ := getElem_of_slice_eq_cons hlast hj
  obtain rfl : i + 1 + ts.length = j := by simpa using hend
  refine ⟨by omega, ?_, ?_, ?_⟩
  · rw [Array.getElem?_eq_getElem (by omega), Option.map_some, hopen]
  · rw [Array.getElem?_eq_getElem (by omega), Option.map_some, hclose]
  · rwa [hbetween]

namespace Evaluation

variable {e : Evaluation} {room start stop index bracket last : Nat} {pending : Stacks}
  {kind : Bracket}

/-- Brackets that open where no level is left are the first that are too deep. -/
theorem Reaches.firstDeep (hreach : e.Reaches 0 start stop index pending)
    (hopens : e.Opens stop index kind bracket) (hle : index ≤ bracket)
    (hsize : bracket < e.tokens.size) (hopen : e.tokens[bracket].token = .bracket kind .opening) :
    FirstDeep e.limit e.tokens.toList bracket := by
  obtain ⟨heq, hshallow⟩ := hreach.level.opens hreach.point hopens hle
  rw [slice_zero] at heq hshallow
  exact ⟨⟨⟨kind, _, getElem?_of_token hsize hopen⟩, heq⟩, fun j hj => hshallow.not_deepAt hj⟩

/-- No bracket up to the end of a subscript that has a value is too deep. -/
theorem Reaches.shallow_of_group_ok {v : Float} (hreach : e.Reaches room start stop index pending)
    (h : stop ≤ e.tokens.size) (hlt : index < stop) (hopens : e.Opens stop index kind bracket)
    (hok : (e.group (e.innerOf room) kind bracket stop h).result = .ok (v, last)) :
    bracket + last < stop ∧ kind.Partners e.tokens bracket (bracket + last) ∧
      Shallow e.limit (e.tokens.toList.take (bracket + last + 1)) := by
  obtain ⟨hle, hb, hsize, hopen⟩ := hopens.opening h hlt
  obtain ⟨heq, hshallow⟩ := hreach.level.opens hreach.point hopens hle
  obtain ⟨hend, ts, t, o, c, ht, hd, hslice⟩ :=
    tree_of_group_ok (innerOf_appends room) (innerOf_parses room) hb hsize hopen hok
  refine ⟨hend, .of_slice (by omega) ht.nested hslice, ?_⟩
  have hgroup : Shallow room (slice e.tokens bracket (bracket + last + 1)) := by
    rw [hslice]
    exact (ht.shallow.enclose ht.nested kind o c).mono hd
  rw [← slice_zero, ← slice_append (Nat.zero_le bracket) (by omega)]
  exact hshallow.append hgroup (Nat.le_of_eq heq)

/-- A fault that an evaluation meets is in the row of the tokens, or is that of the first bracket
    that is too deep, or that of a subscript before any bracket that is too deep. -/
theorem Raises.of_depth_or_subscript {fault : Fault} (h : e.Raises fault) :
    fault.cause.isSyntactic ∨ fault.OfDepth e.limit e.tokens.toList ∨
      ∃ close, fault.OfSubscript e.tokens close ∧
        Shallow e.limit (e.tokens.toList.take (close + 1)) := by
  cases h with
  | empty | unfinished | operator => exact Or.inl rfl
  | @misplaced _ _ index =>
    cases misplaced_eq e.tokens[index] with
    | inl hclosing =>
      obtain ⟨kind, -, hfault⟩ := hclosing
      rw [hfault]
      exact Or.inl rfl
    | inr hother =>
      rw [hother.2]
      exact Or.inl rfl
  | unclosed hstop hsearch hpair =>
    obtain ⟨-, hlt, -, hsize, hopen⟩ := hsearch.opening
    rw [Bracket.pairWithin_error_of_opening hlt hsize hopen hpair]
    exact Or.inl rfl
  | @tooDeep start stop index bracket pending kind hsize hreach hlt hopens hopen =>
    obtain ⟨hstop, -⟩ := hreach.point.enters.closed
    obtain ⟨hle, -⟩ := hopens.opening hstop hlt
    have hfirst := hreach.firstDeep hopens hle hsize hopen
    exact Or.inr (Or.inl ⟨bracket, kind, hfirst, getElem?_of_token hsize hopen, rfl⟩)
  | @subscript room start stop index last pending name v fault hstop hlt hsize hreach hopens htok
      hgroup hread =>
    obtain ⟨hend, hpartners, hshallow⟩ := hreach.shallow_of_group_ok hstop hlt hopens hgroup
    obtain ⟨hoffset, hcause⟩ := Table.read_eq_error hread
    refine Or.inr (Or.inr ⟨_, ⟨index, name, ?_, hpartners, ?_⟩, hshallow⟩)
    · rw [Array.getElem?_eq_getElem hsize, hoffset, ← htok]
    · exact hcause.imp_left fun hcause => ⟨v, hcause⟩

end Evaluation

/-! ## The limit of an evaluation -/

section

variable {text : String} {table : Table}

/-- The bracket that is blamed is the first that is too deep. -/
theorem firstDeep_of_evaluate {offset limit : Nat}
    (h : evaluate text table = .error ⟨offset, .nestingTooDeep limit⟩) :
    limit = 256 ∧ ∃ i kind, FirstDeep 256 (Token.scan text).toList i ∧
      (Token.scan text).toList[i]? = some ⟨.bracket kind .opening, offset⟩ := by
  rcases (Formula.eval_raises h).of_depth_or_subscript with
    hsyntactic | hdeep | ⟨close, hsubscript, -⟩
  · exact nomatch hsyntactic
  · obtain ⟨i, kind, hfirst, htok, hcause⟩ := hdeep
    exact ⟨Fault.Cause.nestingTooDeep.inj hcause, i, kind, hfirst, htok⟩
  · obtain ⟨i, name, -, -, hcause⟩ := hsubscript
    rcases hcause with ⟨v, hcause⟩ | ⟨index, length, hcause⟩ <;> exact nomatch hcause

/-- An expression ends with no fault but those of its subscripts and of the limit. -/
theorem isSyntactic_of_evaluate {t : Tree} {fault : Fault}
    (ht : Derives .sum (Token.scan text).toList t) (h : evaluate text table = .error fault) :
    fault.cause.isSyntactic = false := by
  let e : Evaluation := { Formula.ofText text with table }
  let limit := max e.limit t.depth
  -- with a limit that the expression keeps to, the result is that of its tree
  have htree : ((e.within limit).evalSpan limit 0 e.tokens.size).result = t.eval table := by
    apply Evaluation.evalSpan_result_of_derives (Nat.le_refl _) _ (Nat.le_max_right ..)
    rwa [slice_zero_size]
  have hcuts : Cuts e.limit (e.evalSpan e.limit 0 e.tokens.size).result
      ((e.within limit).evalSpan limit 0 e.tokens.size).result :=
    Evaluation.evalSpan_cuts (Nat.le_max_left ..) 0 e.tokens.size
  rw [htree] at hcuts
  have hfault : (e.evalSpan e.limit 0 e.tokens.size).result = .error fault := h
  rw [hfault] at hcuts
  cases hcuts with
  | inl heq => exact Tree.isSyntactic_of_eval heq.symm
  | inr hcut =>
    obtain ⟨offset, heq⟩ := hcut
    rw [Except.error.inj heq]
    rfl

/-- An expression with a bracket that is too deep ends with the fault of the first one, or with that
    of a subscript before it. -/
theorem evaluate_of_deepAt {t : Tree} {k : Nat} (ht : Derives .sum (Token.scan text).toList t)
    (hdeep : DeepAt 256 (Token.scan text).toList k) :
    ∃ i fault, FirstDeep 256 (Token.scan text).toList i ∧ evaluate text table = .error fault ∧
      (fault.OfDepth 256 (Token.scan text).toList ∨
        ∃ close < i, fault.OfSubscript (Token.scan text) close) := by
  obtain ⟨i, hfirst⟩ := exists_firstDeep hdeep
  cases hresult : evaluate text table with
  | ok v =>
    -- a value has a tree that keeps to the limit
    obtain ⟨u, hu, hd⟩ := Evaluation.spans_of_evalSpan_ok
      (e := { Formula.ofText text with table }) (Nat.le_refl _) hresult
    rw [slice_zero_size] at hu
    have hshallow := (hu.shallow.mono hd) i
    obtain ⟨⟨kind, offset, htok⟩, heq⟩ := hfirst.deep
    have hlt := hshallow kind offset htok
    exact absurd heq (Nat.ne_of_lt hlt)
  | error fault =>
    refine ⟨i, fault, hfirst, rfl, ?_⟩
    rcases (Formula.eval_raises hresult).of_depth_or_subscript with
      hsyntactic | hdepth | ⟨close, hsubscript, hshallow⟩
    · rw [isSyntactic_of_evaluate ht hresult] at hsyntactic
      exact nomatch hsyntactic
    · exact Or.inl hdepth
    · refine Or.inr ⟨close, ?_, hsubscript⟩
      apply Nat.lt_of_not_le
      intro hle
      exact hshallow.not_deepAt (Nat.lt_succ_of_le hle) hfirst.deep

end

/-- With a lower limit, an evaluation has the same result, or ends where the limit is exceeded, and
    no more brackets are open where it goes than the limit. With the limit of the language, the
    bracket that is blamed is the first that opens when `256` are open. In an expression that has
    such a bracket, the first one is blamed, unless the subscript of a cell that ends before it is
    wrong. -/
theorem evaluate_depth_spec :
    (∀ (f : Formula) (table : Table) (limit limit' : Nat), limit ≤ limit' →
      let e : Evaluation := { f with table, limit }
      (∀ start stop, Cuts limit (e.evalSpan limit start stop).result
        ((e.within limit').evalSpan limit' start stop).result) ∧
      ∀ room start stop index pending, e.Reaches room start stop index pending →
        room ≤ limit ∧ opened (f.tokens.toList.take start) + room =
          closed (f.tokens.toList.take start) + limit) ∧
    ∀ (text : String) (table : Table),
      let ps := (Token.scan text).toList
      (∀ offset limit, evaluate text table = .error ⟨offset, .nestingTooDeep limit⟩ →
        limit = 256 ∧
          ∃ i kind, FirstDeep 256 ps i ∧ ps[i]? = some ⟨.bracket kind .opening, offset⟩) ∧
      ∀ t k, Derives .sum ps t → DeepAt 256 ps k →
        ∃ i fault, FirstDeep 256 ps i ∧ evaluate text table = .error fault ∧
          (fault.OfDepth 256 ps ∨ ∃ close < i, fault.OfSubscript (Token.scan text) close) := by
  constructor
  · intro f table limit limit' hle e
    constructor
    · exact fun start stop => Evaluation.evalSpan_cuts hle start stop
    · intro room start stop index pending hreach
      have hlevel := hreach.level
      rw [← slice_zero]
      exact ⟨hlevel.room_le, hlevel.opened_eq⟩
  · intro text table ps
    constructor
    · exact fun offset limit => firstDeep_of_evaluate
    · exact fun t k => evaluate_of_deepAt

/-- In `x-(x-(…))` with 257 pairs of brackets, one bracket is too deep. -/
theorem evaluate_depth_spec_nested :
    let x : Identifier := ⟨"x", by simp, by simp⟩
    let e : Expr := Nat.repeat (Expr.binary .sub (.scalar x)) 258 (.scalar x)
    let text := String.ofList (Piece.spread (fun _ => []) 0 e.pieces)
    ∃ i fault, FirstDeep 256 (Token.scan text).toList i ∧ evaluate text {} = .error fault ∧
      (fault.OfDepth 256 (Token.scan text).toList ∨
        ∃ close < i, fault.OfSubscript (Token.scan text) close) := by
  intro x e text
  have hscan : (Token.scan text).toList =
      Piece.placed (Piece.offsetIn (fun _ => []) e.pieces) 0 e.pieces :=
    Piece.scan_spread (by simp) e.isChain_pieces
  have ht : Derives .sum (Token.scan text).toList
      (e.tree (Piece.offsetIn (fun _ => []) e.pieces) 0) := by
    rw [hscan]
    exact .of_precedence_le (Phrase.sum_le _) (e.derives_pieces _ 0)
  have hdepth : 256 < (e.tree (Piece.offsetIn (fun _ => []) e.pieces) 0).depth := by
    decide +kernel
  obtain ⟨k, hdeep⟩ := ht.exists_deepAt hdepth
  exact (evaluate_depth_spec.2 text {}).2 _ k ht hdeep

end Reckon
