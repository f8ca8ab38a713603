import Mathlib.Data.Finset.Card
import Reckon.Proofs.Acceptance
import Reckon.Proofs.Conflicts

/-!
# Arrays that are allocated and written

An array is allocated as a row of zeros, and its cells are written one at a time. A values line that
is accepted does so, too, and the length that it may declare is far below what can be allocated.

## Key results

- `Cells.isEmpty_iff`: an array is empty if it has no cell at all, which one never loaded is not
- `Loaded.load_array_eq`: a line about an array allocates it, and writes its pairs in their order
- `Table.size_ofText`: the table of a text has as many symbols as the text has different names
-/

namespace Reckon

/-! ## Cells -/

namespace Cells

/-- A row of a length that a line may declare can be allocated. -/
theorem allocate?_of_le {length : Nat} (h : length ≤ Values.greatestLength) :
    allocate? length = some (.loaded (Array.replicate length 0)) := by
  have hsize : length * 8 ≤ greatestSize := by
    simp only [Values.greatestLength, greatestSize] at *
    omega
  rw [allocate?, if_pos hsize]

/-- An array is empty exactly if it has no cell at any index. -/
theorem isEmpty_iff {cells : Cells} : cells.isEmpty ↔ ∀ index, cells.get? index = none := by
  cases cells with
  | unloaded => simp [isEmpty, length?, get?]
  | loaded values =>
    simp only [isEmpty, length?, get?, decide_eq_true_eq, Option.some.injEq,
      Array.getElem?_eq_none_iff]
    constructor
    · intro h index
      omega
    · intro h
      have := h 0
      omega

end Cells

/-! ## Writing cells -/

/-- Changing what a name is bound to twice is changing it once by both. -/
theorem Bindings.update_update {α : Type} (b : Bindings α) (name : String) (f g : α → α) :
    (b.update name f).update name g = b.update name (g ∘ f) := by
  simp only [update_eq_mapValues, mapValues_mapValues]
  congr 1
  funext n a
  by_cases h : n = name <;> simp [h]

/-- Writing a cell of an array that has been set is setting it with the cell written. -/
theorem Table.setCell_setCells (t : Table) (name : String) (cells : Cells) (index : Nat)
    (x : Float) :
    (t.setCells name cells).setCell name index x = t.setCells name (cells.set index x) := by
  simp only [setCell, setCells, Bindings.update_update]
  rfl

namespace Values

/-- To set an array is to allocate it and to write its pairs in their order. -/
theorem Setting.applyTo_array (t : Table) (name : String) {length : Nat}
    (h : length ≤ greatestLength) (pairs : List (Nat × Float)) :
    ∃ cells, Cells.allocate? length = some cells ∧
      (Setting.array name length pairs).applyTo t =
        pairs.foldl (fun t (index, x) => t.setCell name index x) (t.setCells name cells) := by
  refine ⟨_, Cells.allocate?_of_le h, ?_⟩
  -- Induction from the end of the pairs, where the one that is written last is.
  induction pairs using List.reverseRecOn with
  | nil => rfl
  | append_singleton pairs pair ih =>
    obtain ⟨index, x⟩ := pair
    rw [List.foldl_append, ← ih]
    simp only [applyTo, List.foldl_cons, List.foldl_nil, Table.setCell_setCells, cellsOf_concat]

/-- A line about an array that is accepted allocates the array, which cannot fail, and writes its
    pairs in their order. -/
theorem Loaded.load_array_eq {loaded : Loaded} {line name : String} {length : Nat}
    {pairs : List (Nat × Float)}
    (h : Line.read loaded.table.kind? line = .ok (.sets (.array name length pairs)))
    (number : Nat) (log : Log) :
    ∃ cells, Cells.allocate? length = some cells ∧
      (loaded.load number line log).1.table =
        pairs.foldl (fun t (index, x) => t.setCell name index x)
          (loaded.table.setCells name cells) := by
  obtain ⟨kind, word, tokens, -, -, hsetting⟩ := Line.exists_setting_of_read h
  obtain ⟨cells, hcells, heq⟩ :=
    Setting.applyTo_array loaded.table name (Line.length_le_of_setting hsetting) pairs
  refine ⟨cells, hcells, ?_⟩
  rw [← heq, load]
  simp only [h]
  rfl

end Values

/-! ## How many symbols there are -/

namespace Table

/-- There are as many symbols as names. -/
theorem size_eq (t : Table) : t.size = t.names.length := by
  simp [size, Bindings.size, names, Bindings.names]

/-- A table has no symbols exactly if it is empty. -/
theorem isEmpty_iff (t : Table) : t.isEmpty ↔ t.size = 0 := by
  simp [isEmpty, size, Bindings.size]

/-- The table of a text has as many symbols as the text has different names. -/
theorem size_ofText {text : String} {t : Table} (h : ofText text = .ok t) :
    t.size = ((uses (Token.scan text).toList).map Prod.fst).toFinset.card := by
  have hmem : ∀ name, name ∈ t.names ↔
      name ∈ (uses (Token.scan text).toList).map Prod.fst := by
    intro name
    have hkinds : name ∈ t.names ↔ ∃ kind, name ∈ t.namesOf kind := by
      rw [names, List.mem_append]
      constructor
      · rintro (h | h)
        · exact ⟨.scalar, h⟩
        · exact ⟨.array, h⟩
      · rintro ⟨kind, h⟩
        cases kind with
        | scalar => exact Or.inl h
        | array => exact Or.inr h
    simp [hkinds, ofTokens_namesOf h, usedAs]
  rw [size_eq, ← List.toFinset_card_of_nodup (WellFormed.ofText h).nodup]
  congr 1
  ext name
  rw [List.mem_toFinset, List.mem_toFinset, hmem]

end Table

end Reckon
