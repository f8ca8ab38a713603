import Reckon.Proofs.Faults
import Reckon.Proofs.Splitting

/-!
# What a fault points at

The offset of a fault is that of the token which is to blame, or the end of the text where a token
is missing. `Fault.Blames` says for each cause which tokens these can be, by their neighbours in the
whole row of tokens. The evaluator knows a span and an index in it, so it has to be shown for each
place at which it fails that the neighbours are in the span, or are the brackets around it.

## Key results

- `Text.hasAt_of_bracket`: at the offset of a bracket there is its character
- `evaluate_blames`: every fault of an evaluation points at what is to blame
-/

namespace Reckon

/-! ## Blame -/

/-- Whether a character of a text starts at a byte offset. -/
def Text.HasAt (text : String) (offset : Nat) (c : Char) : Prop :=
  ∃ before after, text.toList = before ++ c :: after ∧ Text.byteLength before = offset

/-- Whether an operand has to come after a token: it is an operator or an opening bracket. -/
def Token.Leads (token : Token) : Prop :=
  (∃ op, token = operator op) ∨ ∃ kind, token = bracket kind .opening

/-- Whether a fault points at what is to blame in a text. -/
def Fault.Blames (text : String) (fault : Fault) : Prop :=
  let ps := (Token.scan text).toList
  match fault with
  | ⟨p, .unbalanced kind side⟩ => Text.HasAt text p (kind.char side)
  | ⟨p, .indexOutOfRange name _ _⟩ | ⟨p, .invalidIndex name _⟩ =>
    ∃ o, [⟨.name name, p⟩, ⟨.bracket .square .opening, o⟩] <:+: ps
  | ⟨p, .nestingTooDeep _⟩ => ∃ kind, ⟨.bracket kind .opening, p⟩ ∈ ps
  | ⟨p, .unexpectedToken shown⟩ => ∃ token, ⟨token, p⟩ ∈ ps ∧ token.operator? = none ∧
    (∀ kind, token ≠ .bracket kind .closing) ∧ token.text = shown
  | ⟨p, .emptyExpression⟩ => ps = [] ∧ p = text.utf8ByteSize ∨
    ∃ kind o, [⟨.bracket kind .opening, o⟩, ⟨.bracket kind .closing, p⟩] <:+: ps
  | ⟨p, .missingOperand⟩ => (∃ op, [⟨.operator op, p⟩] <+: ps) ∨
    (∃ before op, before.token.Leads ∧ [before, ⟨.operator op, p⟩] <:+: ps) ∨
    (∃ op o kind, [⟨.operator op, o⟩, ⟨.bracket kind .closing, p⟩] <:+: ps) ∨
    p = text.utf8ByteSize ∧ ∃ op o, [⟨.operator op, o⟩] <:+ ps
  | ⟨_, .kindConflict _⟩ => False

/-! ## Brackets in a text -/

/-- At the offset of a bracket there is its character. -/
theorem Text.hasAt_of_bracket {text : String} {kind : Bracket} {side : Side} {offset : Nat}
    (h : ⟨.bracket kind side, offset⟩ ∈ (Token.scan text).toList) :
    HasAt text offset (kind.char side) := by
  obtain ⟨before, lexeme, after, hsplit, hspells, hoffset⟩ :=
    (Token.splits_scan text).exists_lexeme h
  obtain rfl := hspells.of_bracket
  exact ⟨before, after, by simpa using hsplit, by simpa using hoffset.symm⟩

/-! ## The blame of each fault -/

namespace Evaluation

/-- Before a point at which an operand is expected, there is an operator or an opening bracket, or
    nothing. -/
theorem Point.leads {e : Evaluation} {start stop index : Nat} {pending : Stacks}
    (h : e.Point start stop index pending) :
    index = 0 ∨ ∃ before, index = before + 1 ∧
      ∃ hlt : before < e.tokens.size, e.tokens[before].token.Leads := by
  rcases h.expects with rfl | ⟨before, op, rfl, -, hbefore, htok⟩
  · rcases h.enters.enclosed with ⟨rfl, -⟩ | ⟨before, kind, rfl, hbefore, -, hopen, -⟩
    · exact Or.inl rfl
    · exact Or.inr ⟨before, rfl, hbefore, Or.inr ⟨kind, hopen⟩⟩
  · exact Or.inr ⟨before, rfl, hbefore, Or.inl ⟨op, htok⟩⟩

/-- The evaluation of a text with the values of a table. -/
abbrev ofText (text : String) (table : Table) : Evaluation :=
  { Formula.ofText text with table }

variable {text : String} {table : Table} {start stop index : Nat} {pending : Stacks}

/-- A span without tokens is a text without tokens, or is between two brackets of one kind. -/
private theorem blames_empty (h : (ofText text table).Enters start start) :
    Fault.Blames text ⟨(ofText text table).offsetAt start, .emptyExpression⟩ := by
  rcases h.enclosed with ⟨rfl, hend⟩ | ⟨index, kind, rfl, hindex, hstart, hopen, hclose⟩
  · have hempty : (Token.scan text).toList = [] := List.eq_nil_of_length_eq_zero hend.symm
    exact Or.inl ⟨hempty, hend ▸ offsetAt_size⟩
  · rw [offsetAt_of_lt hstart]
    exact Or.inr ⟨kind, _, pair_infix hstart hopen hclose⟩

/-- A span that ends where an operand is expected ends with an operator, which is the last token or
    is before a closing bracket. -/
private theorem blames_unfinished (h : (ofText text table).Point start stop stop pending)
    (hlt : start < stop) :
    Fault.Blames text ⟨(ofText text table).offsetAt stop, .missingOperand⟩ := by
  rcases h.expects with rfl | ⟨before, op, rfl, -, hbefore, htok⟩
  · exact absurd hlt (Nat.lt_irrefl _)
  · rcases h.enters.enclosed with ⟨-, hend⟩ | ⟨-, kind, -, -, hstop, -, hclose⟩
    · exact Or.inr (Or.inr (Or.inr ⟨hend ▸ offsetAt_size, op, _, singleton_suffix hend.symm htok⟩))
    · rw [offsetAt_of_lt hstop]
      exact Or.inr (Or.inr (Or.inl ⟨op, _, kind, pair_infix hstop htok hclose⟩))

/-- An operator where an operand is expected is the first token, or comes after an operator or an
    opening bracket. -/
private theorem blames_operator {op : Operator} (hlt : index < (ofText text table).tokens.size)
    (h : (ofText text table).Point start stop index pending)
    (htok : (ofText text table).tokens[index].token = .operator op) :
    Fault.Blames text ⟨(ofText text table).tokens[index].offset, .missingOperand⟩ := by
  rcases h.leads with rfl | ⟨before, rfl, hbefore, hleads⟩
  · exact Or.inl ⟨op, singleton_prefix hlt htok⟩
  · exact Or.inr (Or.inl ⟨_, op, hleads, pair_infix hlt rfl htok⟩)

/-- A fault that an evaluation meets points at what is to blame. -/
theorem Raises.blames {fault : Fault} (h : (ofText text table).Raises fault) :
    fault.Blames text := by
  cases h with
  | empty hent => exact blames_empty hent
  | unfinished hpoint hlt => exact blames_unfinished hpoint hlt
  | operator hlt hpoint _ htok => exact blames_operator hlt hpoint htok
  | @misplaced _ _ index hlt _ _ _ _ hop =>
    rcases misplaced_eq (ofText text table).tokens[index] with ⟨kind, htok, hfault⟩ | ⟨hne, hfault⟩
    · rw [hfault]
      exact Text.hasAt_of_bracket (mem_of_token hlt htok)
    · rw [hfault]
      exact ⟨_, mem_of_token hlt rfl, hop, hne, rfl⟩
  | tooDeep hlt _ _ _ htok => exact ⟨_, mem_of_token hlt htok⟩
  | unclosed hstop hsearch hpair =>
    obtain ⟨-, hlt, -, hsize, hopen⟩ := hsearch.opening
    rw [Bracket.pairWithin_error_of_opening hlt hsize hopen hpair]
    exact Text.hasAt_of_bracket (mem_of_token hsize hopen)
  | subscript hstop hlt _ _ hopens htok _ hread =>
    obtain ⟨-, -, hsize, hopen⟩ := hopens.opening hstop hlt
    -- the two causes are blamed on the same tokens
    obtain ⟨hoffset, hcause⟩ := Table.read_eq_error hread
    obtain ⟨offset, cause⟩ := fault
    dsimp only at hoffset hcause
    subst hoffset
    rcases hcause with rfl | ⟨value, length, rfl⟩ <;> exact ⟨_, pair_infix hsize htok hopen⟩

end Evaluation

/-- Every fault of an evaluation points at what is to blame: at the bracket that has no partner, at
    the array of the subscript, at the bracket that is one too many, at the token that cannot stand
    where it does, or where something is missing. -/
theorem evaluate_blames {text : String} {table : Table} {fault : Fault}
    (h : evaluate text table = .error fault) : fault.Blames text :=
  (Formula.eval_raises h).blames

/-- In `(b+)`, an operand is missing before the last bracket. -/
theorem evaluate_blames_parenthesis :
    evaluate "(b+)" {} = .error ⟨3, .missingOperand⟩ ∧
      Fault.Blames "(b+)" ⟨3, .missingOperand⟩ := by
  have hfault : evaluate "(b+)" {} = .error ⟨3, .missingOperand⟩ := by with_unfolding_all rfl
  exact ⟨hfault, evaluate_blames hfault⟩

end Reckon
