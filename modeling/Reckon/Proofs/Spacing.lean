import Mathlib.Logic.Relation
import Reckon.Proofs.Relocation
import Reckon.Proofs.Splitting

/-!
# Spaces in an expression

Spaces and tabs separate tokens and have no other meaning. A text is cut into the same tokens if
runs of them are replaced by other runs, or if some are put in where no token is: only a run of
ordinary characters can be longer than one character, so that is anywhere but inside such a run. As
the tokens are the same, so are the symbols and the value, and a fault is at the same token.

## Key results

- `Token.tokensOf_append`: the tokens of two parts of a text, if no token is in both
- `Token.Respaces.tokensOf_eq`: blanks between tokens do not matter to the tokens
- `evaluate_of_respaced`: nor to the symbols, the value and the fault of a text
-/

namespace Reckon

namespace Token

/-- Whether no run of ordinary characters goes on from one part of a text to the next, so that no
    token is in both. -/
def Parted (cs ds : List Char) : Prop :=
  ∀ c ∈ cs.getLast?, ∀ d ∈ ds.head?, ¬ (Ordinary c ∧ Ordinary d)

/-- The changes of a text that leave its tokens alone. -/
inductive Respaces : List Char → List Char → Prop
  /-- Blanks are replaced by other blanks. -/
  | replace (before after : List Char) {blanks blanks' : List Char} : blanks ≠ [] → blanks' ≠ [] →
      (∀ c ∈ blanks, Blank c) → (∀ c ∈ blanks', Blank c) →
      Respaces (before ++ (blanks ++ after)) (before ++ (blanks' ++ after))
  /-- Blanks are put in before, after or between tokens. -/
  | insert {before after blanks : List Char} : Parted before after → (∀ c ∈ blanks, Blank c) →
      Respaces (before ++ after) (before ++ (blanks ++ after))

/-! ## Parts of a text -/

variable {cs ds : List Char}

theorem Blank.not_ordinary {c : Char} (h : Blank c) : ¬ Ordinary c :=
  fun hc => hc.1 h

/-- Nothing goes on where blanks begin. -/
theorem parted_of_head (h : ∀ d ∈ ds.head?, Blank d) : Parted cs ds :=
  fun _ _ d hd hboth => (h d hd).not_ordinary hboth.2

/-- Nothing goes on where blanks have ended. -/
theorem parted_of_getLast (h : ∀ c ∈ cs.getLast?, Blank c) : Parted cs ds :=
  fun c hc _ _ hboth => (h c hc).not_ordinary hboth.1

/-- What goes on from the end of a text does so from the end of its last part. -/
theorem Parted.of_append (bs : List Char) (h : Parted (bs ++ cs) ds) : Parted cs ds := by
  intro c hc d hd
  apply h c _ d hd
  rw [Option.mem_def, List.getLast?_append, Option.mem_def.mp hc, Option.some_or]

/-- The tokens of two parts of a text make up those of the text, if no token is in both. -/
theorem Splits.append {offset : Nat} {ps qs : List Placed} (h : Splits offset cs ps)
    (hparted : Parted cs ds) (hds : Splits (offset + Text.byteLength cs) ds qs) :
    Splits offset (cs ++ ds) (ps ++ qs) := by
  -- Induction on the rules for the first part. Only a run at its end could go on.
  induction h with
  | nil offset => simpa [Text.byteLength] using hds
  | @blank offset c cs ps hc _ ih =>
    rw [Text.byteLength_cons, hc.utf8Size, ← Nat.add_assoc] at hds
    exact .blank hc (ih (hparted.of_append [c]) hds)
  | @symbol offset c token cs ps hc _ ih =>
    rw [Text.byteLength_cons, utf8Size_of_mem_symbols hc, ← Nat.add_assoc] at hds
    exact .symbol hc (ih (hparted.of_append [c]) hds)
  | @run offset run token cs ps hne hrun hcs hread _ ih =>
    rw [Text.byteLength_append, ← Nat.add_assoc] at hds
    rw [List.append_assoc]
    apply Splits.run hne hrun _ hread (ih (hparted.of_append run) hds)
    cases cs with
    | cons c cs => simpa using hcs
    | nil =>
      -- the run is at the end of the first part, and the second part does not go on with it
      intro d hd hordinary
      have hlast : run.getLast hne ∈ run := List.getLast_mem hne
      refine hparted (run.getLast hne) ?_ d hd ⟨hrun _ hlast, hordinary⟩
      rw [List.append_nil, Option.mem_def, List.getLast?_eq_some_getLast hne]

/-- The tokens of a text are the same wherever the text starts. -/
theorem Splits.exists_of_offset {offset : Nat} {ps : List Placed} (h : Splits offset cs ps)
    (offset' : Nat) :
    ∃ qs, Splits offset' cs qs ∧ qs.map Placed.token = ps.map Placed.token := by
  induction h generalizing offset' with
  | nil => exact ⟨[], .nil offset', rfl⟩
  | blank hc _ ih =>
    obtain ⟨qs, hqs, htokens⟩ := ih (offset' + 1)
    exact ⟨qs, .blank hc hqs, htokens⟩
  | symbol hc _ ih =>
    obtain ⟨qs, hqs, htokens⟩ := ih (offset' + 1)
    exact ⟨_, .symbol hc hqs, congrArg (_ :: ·) htokens⟩
  | @run _ run _ _ _ hne hrun hcs hread _ ih =>
    obtain ⟨qs, hqs, htokens⟩ := ih (offset' + Text.byteLength run)
    exact ⟨_, .run hne hrun hcs hread hqs, congrArg (_ :: ·) htokens⟩

/-- Blanks have no tokens. -/
theorem splits_blanks {blanks : List Char} (h : ∀ c ∈ blanks, Blank c) (offset : Nat) :
    Splits offset blanks [] := by
  induction blanks generalizing offset with
  | nil => exact .nil offset
  | cons c blanks ih =>
    obtain ⟨hc, hblanks⟩ := List.forall_mem_cons.mp h
    exact .blank hc (ih hblanks (offset + 1))

/-! ## Tokens without their places -/

/-- The tokens of a text. -/
def tokensOf (cs : List Char) : List Token :=
  (scan (String.ofList cs)).toList.map Placed.token

theorem Splits.tokensOf_eq {ps : List Placed} (h : Splits 0 cs ps) :
    tokensOf cs = ps.map Placed.token := by
  rw [← String.toList_ofList (l := cs), splits_iff_scan] at h
  rw [tokensOf, h]

/-- The tokens of two parts of a text make up those of the text, if no token is in both. -/
theorem tokensOf_append (h : Parted cs ds) : tokensOf (cs ++ ds) = tokensOf cs ++ tokensOf ds := by
  obtain ⟨ps, hps⟩ := exists_splits 0 cs
  obtain ⟨qs, hqs⟩ := exists_splits 0 ds
  obtain ⟨rs, hrs, htokens⟩ := hqs.exists_of_offset (0 + Text.byteLength cs)
  rw [(hps.append h hrs).tokensOf_eq, hps.tokensOf_eq, hqs.tokensOf_eq, List.map_append, htokens]

theorem tokensOf_blanks {blanks : List Char} (h : ∀ c ∈ blanks, Blank c) : tokensOf blanks = [] :=
  (splits_blanks h 0).tokensOf_eq

/-- Blanks between two parts of a text have no tokens and end those before them. -/
theorem tokensOf_append_blanks {blanks : List Char} (hne : blanks ≠ [])
    (h : ∀ c ∈ blanks, Blank c) :
    tokensOf (cs ++ (blanks ++ ds)) = tokensOf cs ++ tokensOf ds := by
  have hhead : ∀ d ∈ (blanks ++ ds).head?, Blank d := by
    intro d hd
    rw [List.head?_append_of_ne_nil _ hne] at hd
    exact h d (List.mem_of_mem_head? hd)
  have hlast : ∀ c ∈ blanks.getLast?, Blank c := fun c hc => h c (List.mem_of_mem_getLast? hc)
  rw [tokensOf_append (parted_of_head hhead), tokensOf_append (parted_of_getLast hlast),
    tokensOf_blanks h, List.nil_append]

/-- Blanks between tokens do not matter to the tokens. -/
theorem Respaces.tokensOf_eq (h : Respaces cs ds) : tokensOf ds = tokensOf cs := by
  cases h with
  | replace before after hne hne' hblanks hblanks' =>
    rw [tokensOf_append_blanks hne hblanks, tokensOf_append_blanks hne' hblanks']
  | @insert before after blanks hparted hblanks =>
    by_cases hne : blanks = []
    · rw [hne, List.nil_append]
    · rw [tokensOf_append_blanks hne hblanks, tokensOf_append hparted]

theorem tokensOf_eq_of_respaced (h : Relation.ReflTransGen Respaces cs ds) :
    tokensOf ds = tokensOf cs := by
  induction h with
  | refl => rfl
  | tail _ hstep ih => rw [hstep.tokensOf_eq, ih]

end Token

/-- A text in which blanks between tokens are replaced by others, or put in, has the same tokens in
    the same order. With any table it has the same value, or the same fault, which shows at the same
    token or at the end of the text, and so it is with its symbols. -/
theorem evaluate_of_respaced {text text' : String}
    (h : Relation.ReflTransGen Token.Respaces text.toList text'.toList) :
    let f := Formula.ofText text
    let f' := Formula.ofText text'
    f'.tokens.toList.map Placed.token = f.tokens.toList.map Placed.token ∧
      (∀ table, f.Relocates f' (evaluate text table) (evaluate text' table)) ∧
      f.Relocates f' (Table.ofText text) (Table.ofText text') := by
  intro f f'
  have htokens : f'.tokens.toList.map Placed.token = f.tokens.toList.map Placed.token := by
    have heq := Token.tokensOf_eq_of_respaced h
    simp only [Token.tokensOf, String.ofList_toList] at heq
    exact heq
  have hsame : f.SameTokens f' := htokens.symm
  exact ⟨htokens, hsame.eval_relocates, hsame.ofTokens_relocates⟩

/-- The tab before a subscript leaves the name in front of it that of an array, and the operand that
    is missing at a bracket is missing there after it has moved. -/
theorem evaluate_of_respaced_subscript :
    let f := Formula.ofText "A [b+]"
    let f' := Formula.ofText "A\t[b+ ]"
    f'.tokens.toList.map Placed.token = f.tokens.toList.map Placed.token ∧
      f.Relocates f' (evaluate "A [b+]" {}) (evaluate "A\t[b+ ]" {}) ∧
      evaluate "A [b+]" {} = .error ⟨5, .missingOperand⟩ ∧
      evaluate "A\t[b+ ]" {} = .error ⟨6, .missingOperand⟩ ∧
      f.Relocates f' (Table.ofText "A [b+]") (Table.ofText "A\t[b+ ]") := by
  have hreplace : Token.Respaces "A [b+]".toList "A\t[b+]".toList :=
    @Token.Respaces.replace ['A'] "[b+]".toList [' '] ['\t'] (by decide) (by decide)
      (List.forall_mem_singleton.mpr (Or.inl rfl)) (List.forall_mem_singleton.mpr (Or.inr rfl))
  have hparted : Token.Parted "A\t[b+".toList [']'] := by
    rintro _ - d hd ⟨-, hordinary⟩
    obtain rfl : ']' = d := by simpa using hd
    exact hordinary.2 (by decide)
  have hinsert : Token.Respaces "A\t[b+]".toList "A\t[b+ ]".toList :=
    @Token.Respaces.insert "A\t[b+".toList [']'] [' '] hparted
      (List.forall_mem_singleton.mpr (Or.inl rfl))
  obtain ⟨htokens, hvalue, hsymbols⟩ :=
    evaluate_of_respaced ((Relation.ReflTransGen.single hreplace).tail hinsert)
  exact ⟨htokens, hvalue {}, by with_unfolding_all rfl, by with_unfolding_all rfl, hsymbols⟩

end Reckon
