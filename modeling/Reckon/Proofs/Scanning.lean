import Mathlib.Data.List.Chain
import Reckon.Proofs.Printing
import Reckon.Proofs.Rules

/-!
# Scanning printed expressions

Pieces are spread out into a text with spaces and tabs before, between and after them. `Token.scan`
finds them again, because a number or a name is never printed directly before another.

## Key results

- `Piece.scan_spread`: the tokens of a text in which pieces are spread out
-/

namespace Reckon

/-! ## Spreading pieces out -/

namespace Piece

/-- Whether a piece is a run of characters of its own: a number or a name. -/
def isRun : Piece → Bool
  | literal _ | name _ => true
  | _ => false

/-- Whether two pieces can stand next to each other without anything between them. -/
def Separate (p q : Piece) : Prop :=
  ¬(p.isRun ∧ q.isRun)

/-- The text in which pieces are spread out, with a gap before each piece and after the last. -/
def spread (gap : Nat → List Char) (index : Nat) : List Piece → List Char
  | [] => gap index
  | p :: ps => gap index ++ (p.text ++ spread gap (index + 1) ps)

/-- The byte offset at which a piece starts in the text: what is before it are the pieces of lower
    index, with gaps before each of them and after the last. -/
def offsetIn (gap : Nat → List Char) (ps : List Piece) (index : Nat) : Nat :=
  Text.byteLength (spread gap 0 (ps.take index))

/-- A number or a name is a run of characters that is read as this token. -/
theorem run_text {p : Piece} (h : p.isRun) :
    p.text ≠ [] ∧ (∀ c ∈ p.text, Token.Ordinary c) ∧ Token.ofRun p.text = p.token := by
  cases p with
  | literal l =>
    have hn := l.plain
    refine ⟨hn.text_ne_nil, fun c hc => Token.ordinary_of ?_, Token.ofRun_numeral hn⟩
    exact (hn.of_mem_text hc).imp_right Or.inr
  | name n =>
    refine ⟨n.ne_nil, fun c hc => Token.ordinary_of (Or.inr (Or.inl (n.isAlpha c hc))), ?_⟩
    rw [text, Token.ofRun_letters n.ne_nil n.isAlpha, String.ofList_toList]
    rfl
  | operator _ => exact nomatch h
  | bracket _ _ => exact nomatch h

/-- An operator or a bracket is a symbol. -/
theorem symbol_text {p : Piece} (h : p.isRun = false) :
    ∃ c, p.text = [c] ∧ (c, p.token) ∈ Token.symbols := by
  cases p with
  | literal _ => exact nomatch h
  | name _ => exact nomatch h
  | operator op => exact ⟨_, rfl, by cases op <;> simp [Token.symbols, token, Operator.symbol]⟩
  | bracket kind side =>
    exact ⟨_, rfl, by cases kind <;> cases side <;> simp [Token.symbols, token, Bracket.char]⟩

/-- After a number or a name comes a blank or a symbol, if anything. -/
theorem not_ordinary_of_mem_head? {gap : Nat → List Char} (hgap : ∀ i, ∀ c ∈ gap i, Token.Blank c)
    {ps : List Piece} {index : Nat} (hps : ∀ p ∈ ps.head?, p.isRun = false) :
    ∀ c ∈ (spread gap index ps).head?, ¬ Token.Ordinary c := by
  intro c hc
  -- the next character is the first one of the gap, or of the next piece if the gap is empty
  cases hg : gap index with
  | cons d blanks =>
    have hd : Token.Blank d := hgap index d (hg ▸ List.mem_cons_self)
    have hcd : d = c := by cases ps <;> simpa [spread, hg] using hc
    exact fun hord => hord.1 (hcd ▸ hd)
  | nil =>
    cases ps with
    | nil => simp [spread, hg] at hc
    | cons p ps =>
      obtain ⟨d, htext, hd⟩ := symbol_text (hps p rfl)
      have hcd : d = c := by simpa [spread, hg, htext] using hc
      exact hcd ▸ Token.not_ordinary_of_mem_symbols hd

theorem placed_congr {f g : Nat → Nat} {index : Nat} (ps : List Piece)
    (h : ∀ i, index ≤ i → f i = g i) : placed f index ps = placed g index ps := by
  induction ps generalizing index with
  | nil => rfl
  | cons p ps ih =>
    rw [placed, placed, h index (Nat.le_refl _), ih fun i hi => h i (by omega)]

/-- The pieces that are spread out in the rest of a text are its tokens. -/
theorem scanFrom_spread {gap : Nat → List Char} (hgap : ∀ i, ∀ c ∈ gap i, Token.Blank c)
    {ps : List Piece} (hps : ps.IsChain Separate) (offset index : Nat) :
    Token.scanFrom offset (spread gap index ps) =
      placed (fun i => offset + Text.byteLength (spread gap index (ps.take (i - index)))) index
        ps := by
  -- Induction on the pieces. The offset of each of them is counted from where the text goes on.
  induction ps generalizing offset index with
  | nil =>
    have hblanks := Token.scanFrom_blanks (hgap index) offset []
    rw [List.append_nil, Token.scanFrom_nil] at hblanks
    rw [spread, hblanks, placed]
  | cons p ps ih =>
    rw [List.isChain_cons] at hps
    -- the gap is lost and the piece is found, as a run or as a symbol
    have hfirst : Token.scanFrom offset (spread gap index (p :: ps)) =
        ⟨p.token, offset + Text.byteLength (gap index)⟩ ::
          Token.scanFrom (offset + Text.byteLength (gap index) + Text.byteLength p.text)
            (spread gap (index + 1) ps) := by
      rw [spread, Token.scanFrom_blanks (hgap index)]
      cases hrun : p.isRun with
      | true =>
        obtain ⟨hne, hchars, htoken⟩ := run_text hrun
        have hnext : ∀ q ∈ ps.head?, q.isRun = false := fun q hq => by
          simpa [Separate, hrun] using hps.1 q hq
        rw [Token.scanFrom_run hne hchars (not_ordinary_of_mem_head? hgap hnext), htoken]
      | false =>
        obtain ⟨c, htext, hc⟩ := symbol_text hrun
        rw [htext, List.singleton_append, Token.scanFrom_symbol hc, Text.byteLength_cons,
          Token.utf8Size_of_mem_symbols hc]
        rfl
    -- the offsets of the other pieces, counted from after the first one or from before the gap
    have hoffset : ∀ i, index + 1 ≤ i →
        offset + Text.byteLength (gap index) + Text.byteLength p.text +
            Text.byteLength (spread gap (index + 1) (ps.take (i - (index + 1)))) =
          offset + Text.byteLength (spread gap index ((p :: ps).take (i - index))) := by
      intro i hi
      have hsucc : i - index = (i - (index + 1)) + 1 := by omega
      rw [hsucc, List.take_succ_cons, spread, Text.byteLength_append, Text.byteLength_append]
      omega
    rw [hfirst, ih hps.2, placed, placed_congr ps hoffset]
    simp [spread]

/-- The tokens of a text in which pieces are spread out are those pieces. -/
theorem scan_spread {gap : Nat → List Char} (hgap : ∀ i, ∀ c ∈ gap i, Token.Blank c)
    {ps : List Piece} (hps : ps.IsChain Separate) :
    (Token.scan (String.ofList (spread gap 0 ps))).toList = placed (offsetIn gap ps) 0 ps := by
  rw [Token.toList_scan, String.toList_ofList, scanFrom_spread hgap hps]
  simp
  rfl

/-- Pieces with a delimiter between them are separate. -/
theorem isChain_append_cons {ps qs : List Piece} {d : Piece} (hd : d.isRun = false)
    (hps : ps.IsChain Separate) (hqs : qs.IsChain Separate) :
    (ps ++ d :: qs).IsChain Separate := by
  refine List.isChain_append.mpr ⟨hps, List.isChain_cons.mpr ⟨fun q _ => ?_, hqs⟩, ?_⟩
  · simp [Separate, hd]
  · rintro p - q hq
    obtain rfl : d = q := by simpa using hq
    simp [Separate, hd]

theorem isChain_enclose {ps : List Piece} (brackets : Bool) (hps : ps.IsChain Separate) :
    (enclose brackets ps).IsChain Separate := by
  cases brackets with
  | false => exact hps
  | true =>
    have hclose : (ps ++ [bracket .round .closing]).IsChain Separate :=
      isChain_append_cons rfl hps .nil
    have hopen : ([] ++ bracket .round .opening :: (ps ++ [bracket .round .closing])).IsChain
        Separate := isChain_append_cons rfl .nil hclose
    exact hopen

end Piece

/-- In what is printed for an expression, no number and no name is directly before another. -/
theorem Expr.isChain_pieces (e : Expr) : e.pieces.IsChain Piece.Separate := by
  -- Induction on the expression: its parts have operators and brackets between them.
  induction e with
  | literal l => exact .singleton _
  | scalar name => exact .singleton _
  | cell name subscript ih =>
    have hclose : (subscript.pieces ++ [Piece.bracket .square .closing]).IsChain Piece.Separate :=
      Piece.isChain_append_cons rfl ih .nil
    have hopen : ([Piece.name name] ++ Piece.bracket .square .opening ::
        (subscript.pieces ++ [Piece.bracket .square .closing])).IsChain Piece.Separate :=
      Piece.isChain_append_cons rfl (.singleton _) hclose
    exact hopen
  | binary op left right ihl ihr =>
    exact Piece.isChain_append_cons rfl (Piece.isChain_enclose _ ihl)
      (Piece.isChain_enclose _ ihr)

end Reckon
