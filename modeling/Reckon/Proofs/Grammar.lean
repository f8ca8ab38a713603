import Reckon.Proofs.Brackets
import Reckon.Proofs.Tree

/-!
# The grammar of expressions

An expression is a sum of products of factors, and operators of one precedence associate to the
left. `Derives` is the grammar, as a relation between a list of tokens and a parse tree; each
constructor is one of its rules.

## Key results

- `Derives.unique`: the grammar is unambiguous
- `Derives.passes`: in what the grammar derives, brackets of either kind are balanced
- `Alternation.spans`: factors with operators between them make an expression
-/

namespace Reckon

/-- The levels of the grammar, the most comprehensive first. -/
inductive Phrase where
  /-- Products, with `+` and `-` between them. -/
  | sum
  /-- Factors, with `*` and `/` between them. -/
  | product
  /-- A number, a name, a subscripted name, or an expression in round brackets. -/
  | factor
deriving DecidableEq

namespace Phrase

/-- The phrase of an operand on the right of an operator. -/
def operand : Phrase → Phrase
  | sum => product
  | product | factor => factor

/-- How tightly the operators of a phrase bind. A factor has none. -/
def precedence : Phrase → Nat
  | sum => 1
  | product => 2
  | factor => 3

theorem precedence_le_operand (phrase : Phrase) :
    phrase.precedence ≤ phrase.operand.precedence := by
  cases phrase <;> decide

theorem precedence_lt_operand {phrase : Phrase} (h : phrase ≠ factor) :
    phrase.precedence < phrase.operand.precedence := by
  cases phrase with
  | factor => exact absurd rfl h
  | _ => decide

end Phrase

/-- The phrase at which an operator stands between its operands. -/
def Operator.phrase : Operator → Phrase
  | add | sub => .sum
  | mul | div => .product

@[simp] theorem Operator.precedence_phrase (op : Operator) :
    op.phrase.precedence = op.precedence := by
  cases op <;> rfl

theorem Operator.phrase_ne_factor (op : Operator) : op.phrase ≠ .factor := by
  cases op <;> exact nofun

/-- The grammar: which tokens have which parse tree at which phrase. -/
inductive Derives : Phrase → List Placed → Tree → Prop
  | number (v : Float) (o : Nat) : Derives .factor [⟨.number v, o⟩] (.number v)
  | scalar (name : String) (o : Nat) : Derives .factor [⟨.name name, o⟩] (.scalar name)
  | cell {ts : List Placed} {t : Tree} (name : String) (o o' c : Nat) : Derives .sum ts t →
      Derives .factor (⟨.name name, o⟩ :: (⟨.bracket .square .opening, o'⟩ :: ts ++
        [⟨.bracket .square .closing, c⟩])) (.cell name o t)
  | group {ts : List Placed} {t : Tree} (o c : Nat) : Derives .sum ts t →
      Derives .factor (⟨.bracket .round .opening, o⟩ :: ts ++ [⟨.bracket .round .closing, c⟩])
        (.group t)
  | binary {phrase : Phrase} {ls rs : List Placed} {l r : Tree} (op : Operator) (o : Nat)
      (h : op.phrase = phrase) : Derives phrase ls l → Derives phrase.operand rs r →
      Derives phrase (ls ++ ⟨.operator op, o⟩ :: rs) (.binary op l r)
  | single {phrase : Phrase} {ts : List Placed} {t : Tree} (h : phrase ≠ .factor) :
      Derives phrase.operand ts t → Derives phrase ts t

namespace Derives

variable {phrase : Phrase} {ts : List Placed} {t : Tree}

theorem ne_nil (h : Derives phrase ts t) : ts ≠ [] := by
  induction h with
  | single _ _ ih => exact ih
  | _ => simp

/-- In what the grammar derives, brackets of either kind are balanced. -/
theorem passes (h : Derives phrase ts t) (kind : Bracket) : kind.Passes ts := by
  induction h with
  | number v o => exact Bracket.passes_singleton rfl
  | scalar name o => exact Bracket.passes_singleton rfl
  | cell name o o' c _ ih =>
    exact (Bracket.passes_singleton rfl).append (ih.enclose o' c)
  | group o c _ ih => exact ih.enclose o c
  | binary op o _ _ _ ihl ihr =>
    exact ihl.append ((Bracket.passes_singleton rfl).append ihr)
  | single _ _ ih => exact ih

/-! ## The grammar is unambiguous -/

end Derives

/-- Whether tokens can stand before what a phrase derives: the last of them is an opening bracket or
    an operator that binds less tightly than those of the phrase. -/
def Phrase.Follows (phrase : Phrase) (ps : List Placed) : Prop :=
  ∀ p ∈ ps.getLast?, (∃ kind, p.token = .bracket kind .opening) ∨
    ∃ op, p.token = .operator op ∧ op.precedence < phrase.precedence

namespace Phrase

variable {phrase : Phrase} {ps : List Placed}

theorem follows_nil (phrase : Phrase) : phrase.Follows [] := nofun

theorem Follows.operand (h : phrase.Follows ps) : phrase.operand.Follows ps := by
  intro p hp
  refine (h p hp).imp_right ?_
  rintro ⟨op, hop, hlt⟩
  exact ⟨op, hop, Nat.lt_of_lt_of_le hlt phrase.precedence_le_operand⟩

theorem follows_opening (phrase : Phrase) (ps : List Placed) (kind : Bracket) (o : Nat) :
    phrase.Follows (ps ++ [⟨.bracket kind .opening, o⟩]) := by
  intro p hp
  simp only [List.getLast?_append, List.getLast?_singleton, Option.some_or, Option.mem_def,
    Option.some.injEq] at hp
  exact Or.inl ⟨kind, by rw [← hp]⟩

theorem follows_operator (ps : List Placed) {op : Operator} (o : Nat) (h : op.phrase = phrase) :
    phrase.operand.Follows (ps ++ [⟨.operator op, o⟩]) := by
  intro p hp
  simp only [List.getLast?_append, List.getLast?_singleton, Option.some_or, Option.mem_def,
    Option.some.injEq] at hp
  refine Or.inr ⟨op, by rw [← hp], ?_⟩
  have hlt := precedence_lt_operand op.phrase_ne_factor
  rwa [op.precedence_phrase, h] at hlt

theorem not_follows_operator (ps : List Placed) {op : Operator} (o : Nat) (h : op.phrase = phrase) :
    ¬ phrase.Follows (ps ++ [⟨.operator op, o⟩]) := by
  intro hf
  rcases hf ⟨.operator op, o⟩ (by simp) with ⟨kind, hk⟩ | ⟨op', hop, hlt⟩
  · exact nomatch hk
  · obtain rfl : op = op' := by simpa using hop
    rw [← h, op.precedence_phrase] at hlt
    exact Nat.lt_irrefl _ hlt

end Phrase

/-- Two lists that end in one element each agree before it and in it. -/
private theorem snoc_inj {ps qs : List Placed} {p q : Placed} (h : ps ++ [p] = qs ++ [q]) :
    ps = qs ∧ p = q := by
  obtain ⟨hpq, hlast⟩ := List.append_inj' h rfl
  exact ⟨hpq, List.head_eq_of_cons_eq hlast⟩

namespace Derives

/-- What a phrase derives at the end of a list of tokens is determined by the list, provided that
    what is before it can stand before the phrase. The induction is from the right, because that is
    where an operator that associates to the left has its shorter operand. -/
theorem unique_suffix {phrase : Phrase} {ts ts' ps ps' : List Placed} {t t' : Tree}
    (h : Derives phrase ts t) (h' : Derives phrase ts' t') (hp : phrase.Follows ps)
    (hp' : phrase.Follows ps') (heq : ps ++ ts = ps' ++ ts') : ts = ts' ∧ t = t' := by
  -- Induction on the first derivation, with a case for each rule that the other can end with. What
  -- comes before the tokens changes on the way, as the tokens left of an operand are added to it.
  induction h generalizing ts' t' ps ps' with
  | number v o =>
    -- the last token tells which kind of factor it is
    have hlast := congrArg List.getLast? heq
    cases h' with
    | number v' o' =>
      obtain ⟨-, hv⟩ := snoc_inj heq
      obtain ⟨rfl, rfl⟩ : v = v' ∧ o = o' := by simpa using hv
      exact ⟨rfl, rfl⟩
    | binary op _ hop => exact absurd hop op.phrase_ne_factor
    | single hne => exact absurd rfl hne
    | _ => simp [List.getLast?_cons] at hlast
  | scalar name o =>
    have hlast := congrArg List.getLast? heq
    cases h' with
    | scalar name' o' =>
      obtain ⟨-, hv⟩ := snoc_inj heq
      obtain ⟨rfl, rfl⟩ : name = name' ∧ o = o' := by simpa using hv
      exact ⟨rfl, rfl⟩
    | binary op _ hop => exact absurd hop op.phrase_ne_factor
    | single hne => exact absurd rfl hne
    | _ => simp [List.getLast?_cons] at hlast
  | @cell us u name o o' c hu ih =>
    have hlast := congrArg List.getLast? heq
    cases h' with
    | @cell us' u' name' x x' c' hu' =>
      -- take away the closing brackets, the subscripts, the opening brackets, and the names
      have hcut : (ps ++ [⟨.name name, o⟩] ++ [⟨.bracket .square .opening, o'⟩] ++ us) ++
            [⟨.bracket .square .closing, c⟩] =
          (ps' ++ [⟨.name name', x⟩] ++ [⟨.bracket .square .opening, x'⟩] ++ us') ++
            [⟨.bracket .square .closing, c'⟩] := by
        simpa using heq
      obtain ⟨hbefore, hclose⟩ := snoc_inj hcut
      obtain ⟨rfl, rfl⟩ := ih hu' (Phrase.follows_opening _ _ _ _)
        (Phrase.follows_opening _ _ _ _) hbefore
      obtain ⟨hname, hopen⟩ := snoc_inj (List.append_cancel_right hbefore)
      obtain ⟨-, hname⟩ := snoc_inj hname
      simp_all
    | binary op _ hop => exact absurd hop op.phrase_ne_factor
    | single hne => exact absurd rfl hne
    | _ => simp [List.getLast?_cons] at hlast
  | @group us u o c hu ih =>
    have hlast := congrArg List.getLast? heq
    cases h' with
    | @group us' u' o' c' hu' =>
      -- take away the closing brackets, then what is inside, then the opening brackets
      have hcut : (ps ++ [⟨.bracket .round .opening, o⟩] ++ us) ++
            [⟨.bracket .round .closing, c⟩] =
          (ps' ++ [⟨.bracket .round .opening, o'⟩] ++ us') ++ [⟨.bracket .round .closing, c'⟩] := by
        simpa using heq
      obtain ⟨hbefore, hclose⟩ := snoc_inj hcut
      obtain ⟨rfl, rfl⟩ := ih hu' (Phrase.follows_opening _ _ _ _)
        (Phrase.follows_opening _ _ _ _) hbefore
      obtain ⟨-, hopen⟩ := snoc_inj (List.append_cancel_right hbefore)
      simp_all
    | binary op _ hop => exact absurd hop op.phrase_ne_factor
    | single hne => exact absurd rfl hne
    | _ => simp [List.getLast?_cons] at hlast
  | @binary phrase ls rs l r op o hop hl hr ihl ihr =>
    cases h' with
    | @binary _ ls' rs' l' r' op' o' hop' hl' hr' =>
      -- take away the right operands, then the operators, and compare the left operands
      have hcut : (ps ++ ls ++ [⟨.operator op, o⟩]) ++ rs =
          (ps' ++ ls' ++ [⟨.operator op', o'⟩]) ++ rs' := by simpa using heq
      obtain ⟨rfl, rfl⟩ := ihr hr' (Phrase.follows_operator _ o hop)
        (Phrase.follows_operator _ o' hop') hcut
      obtain ⟨hleft, hopeq⟩ := snoc_inj (List.append_cancel_right hcut)
      obtain ⟨rfl, rfl⟩ := ihl hl' hp hp' hleft
      simp_all
    | single hne hts' =>
      -- the right operand would be all of the other phrase, with its operator before that
      have hcut : (ps ++ ls ++ [⟨.operator op, o⟩]) ++ rs = ps' ++ ts' := by simpa using heq
      obtain ⟨rfl, rfl⟩ := ihr hts' (Phrase.follows_operator _ o hop) hp'.operand hcut
      rw [← List.append_cancel_right hcut] at hp'
      exact absurd hp' (Phrase.not_follows_operator _ o hop)
    | _ => exact absurd hop op.phrase_ne_factor
  | @single phrase us u hne hts ih =>
    cases h' with
    | @binary _ ls' rs' l' r' op' o' hop' hl' hr' =>
      -- the other way round: all of these tokens would be the right operand of an operator
      have hcut : ps ++ us = (ps' ++ ls' ++ [⟨.operator op', o'⟩]) ++ rs' := by simpa using heq
      obtain ⟨rfl, rfl⟩ := ih hr' hp.operand (Phrase.follows_operator _ o' hop') hcut
      rw [List.append_cancel_right hcut] at hp
      exact absurd hp (Phrase.not_follows_operator _ o' hop')
    | single _ hts' => exact ih hts' hp.operand hp'.operand heq
    | _ => exact absurd rfl hne

/-- The grammar is unambiguous: a list of tokens has at most one parse tree. -/
theorem unique {phrase : Phrase} {ts : List Placed} {t t' : Tree} (h : Derives phrase ts t)
    (h' : Derives phrase ts t') : t = t' :=
  (h.unique_suffix h' (Phrase.follows_nil _) (Phrase.follows_nil _) rfl).2

end Derives

/-! ## Factors with operators between them

An evaluator without a tree knows no products and sums, only factors with operators between them.
Whatever the operators are, these make a sum: a product is finished as soon as the next operator
does not belong to it, and joins the sum before it. -/

/-- Whether tokens have a parse tree in which brackets are nested at most `room` deep. -/
def Spans (room : Nat) (phrase : Phrase) (ts : List Placed) : Prop :=
  ∃ t, Derives phrase ts t ∧ t.depth ≤ room

namespace Spans

variable {room : Nat} {ts us : List Placed}

theorem product_of_factor (h : Spans room .factor ts) : Spans room .product ts := by
  obtain ⟨t, ht, hd⟩ := h
  exact ⟨t, .single nofun ht, hd⟩

theorem sum_of_product (h : Spans room .product ts) : Spans room .sum ts := by
  obtain ⟨t, ht, hd⟩ := h
  exact ⟨t, .single nofun ht, hd⟩

theorem binary {phrase : Phrase} {op : Operator} (o : Nat) (hop : op.phrase = phrase)
    (hl : Spans room phrase ts) (hr : Spans room phrase.operand us) :
    Spans room phrase (ts ++ ⟨.operator op, o⟩ :: us) := by
  obtain ⟨l, hl, hdl⟩ := hl
  obtain ⟨r, hr, hdr⟩ := hr
  exact ⟨.binary op l r, .binary op o hop hl hr, Nat.max_le.mpr ⟨hdl, hdr⟩⟩

end Spans

/-- Factors with operators between them, in which brackets are nested at most `room` deep. -/
inductive Alternation (room : Nat) : List Placed → Prop
  | last {ts : List Placed} : Spans room .factor ts → Alternation room ts
  | cons {ts us : List Placed} (op : Operator) (o : Nat) : Spans room .factor ts →
      Alternation room us → Alternation room (ts ++ ⟨.operator op, o⟩ :: us)

/-- What is before a factor in an alternation: a sum that lacks its last product, and the
    beginning of that product, which lacks its last factor. -/
private theorem Alternation.spans_append {room : Nat} {us : List Placed}
    (h : Alternation room us) {ss ps : List Placed}
    (hsum : ∀ ts, Spans room .product ts → Spans room .sum (ss ++ ts))
    (hproduct : ∀ ts, Spans room .factor ts → Spans room .product (ps ++ ts)) :
    Spans room .sum (ss ++ (ps ++ us)) := by
  -- Induction on the alternation. The invariant is what `hsum` and `hproduct` say: the tokens so
  -- far become a sum with any product after them, and the last of them a product with any factor.
  induction h generalizing ss ps with
  | last hts => exact hsum _ (hproduct _ hts)
  | @cons ts us op o hts _ ih =>
    cases hop : op.phrase with
    | factor => exact absurd hop op.phrase_ne_factor
    | product =>
      -- the factor joins the product
      have hbegun : ∀ vs, Spans room .factor vs →
          Spans room .product (ps ++ ts ++ [⟨.operator op, o⟩] ++ vs) := by
        intro vs hvs
        simpa using (hproduct ts hts).binary o hop hvs
      simpa using ih hsum hbegun
    | sum =>
      -- the product is finished and joins the sum, and another one begins
      have hbegun : ∀ vs, Spans room .product vs →
          Spans room .sum (ss ++ ps ++ ts ++ [⟨.operator op, o⟩] ++ vs) := by
        intro vs hvs
        simpa using (hsum _ (hproduct ts hts)).binary o hop hvs
      have hrest : Spans room .sum (ss ++ ps ++ ts ++ [⟨.operator op, o⟩] ++ ([] ++ us)) :=
        ih hbegun fun _ => Spans.product_of_factor
      simpa using hrest

/-- Factors with operators between them make an expression. -/
theorem Alternation.spans {room : Nat} {ts : List Placed} (h : Alternation room ts) :
    Spans room .sum ts := by
  have hspans : Spans room .sum ([] ++ ([] ++ ts)) :=
    h.spans_append (fun _ => Spans.sum_of_product) (fun _ => Spans.product_of_factor)
  exact hspans

end Reckon
