import Reckon.Proofs.Except
import Reckon.Proofs.Lines
import Reckon.Values.Load

/-!
# What loading values leaves

A load goes through the lines of its source and applies those that set a symbol. Which ones these
are depends on the kinds of the names only, and no line changes a name or its kind, so the whole
load can be described at once: each symbol takes on what the last line sets that names it and is
accepted, and keeps what it has if there is no such line.

## Key results

- `Loaded.loadLines_fst`: the table and the errors after a row of lines
- `Source.load_table`: the table after a source, as far as it can be read
- `load_ofText_eq_last`: loading a text, loading it twice, and loading its lines in another order
-/

namespace Reckon

/-! ## Changing what names are bound to -/

namespace Bindings

variable {α : Type}

/-- Changes what each name is bound to. -/
def mapValues (b : Bindings α) (f : String → α → α) : Bindings α :=
  ⟨go [] b.entries⟩
where
  /-- Changes those entries that are the first of their name, given the names before them. -/
  go (seen : List String) : List (String × α) → List (String × α)
    | [] => []
    | (n, a) :: entries => (n, if n ∈ seen then a else f n a) :: go (n :: seen) entries

@[simp] theorem names_mapValues (b : Bindings α) (f : String → α → α) :
    (b.mapValues f).names = b.names := by
  have hgo : ∀ (l : List (String × α)) (seen : List String),
      (mapValues.go f seen l).map Prod.fst = l.map Prod.fst := by
    intro l
    induction l with
    | nil => exact fun seen => rfl
    | cons x l ih =>
      intro seen
      rw [mapValues.go, List.map_cons, ih, List.map_cons]
  exact hgo b.entries []

@[simp] theorem get?_mapValues (b : Bindings α) (f : String → α → α) (name : String) :
    (b.mapValues f).get? name = (b.get? name).map (f name) := by
  -- Induction on the entries, since a name is looked up from the first one on.
  have hgo : ∀ (l : List (String × α)) (seen : List String), name ∉ seen →
      get? ⟨mapValues.go f seen l⟩ name = (get? ⟨l⟩ name).map (f name) := by
    intro l
    induction l with
    | nil => exact fun seen h => rfl
    | cons x l ih =>
      intro seen hseen
      obtain ⟨n, a⟩ := x
      rw [mapValues.go, get?_cons, get?_cons]
      by_cases h : name = n
      · rw [← h, if_pos rfl, if_pos rfl, if_neg hseen, Option.map_some]
      · rw [if_neg h, if_neg h, ih (n :: seen) (by simp [h, hseen])]
  exact hgo b.entries [] List.not_mem_nil

/-- Each entry is one from before, and stays as it is or is changed. -/
theorem exists_of_mem_mapValues {b : Bindings α} {f : String → α → α} {name : String} {a : α}
    (h : (name, a) ∈ (b.mapValues f).entries) :
    ∃ old, (name, old) ∈ b.entries ∧ (a = old ∨ a = f name old) := by
  have hgo : ∀ (l : List (String × α)) (seen : List String),
      (name, a) ∈ mapValues.go f seen l → ∃ old, (name, old) ∈ l ∧ (a = old ∨ a = f name old) := by
    intro l
    induction l with
    | nil => exact fun seen h => nomatch h
    | cons x l ih =>
      intro seen hmem
      obtain ⟨n, old⟩ := x
      rw [mapValues.go, List.mem_cons] at hmem
      cases hmem with
      | inl heq =>
        obtain ⟨rfl, ha⟩ := Prod.mk.inj heq
        refine ⟨old, List.mem_cons_self, ?_⟩
        rw [ha]
        split
        · exact Or.inl rfl
        · exact Or.inr rfl
      | inr hmem =>
        obtain ⟨old', hold, ha⟩ := ih _ hmem
        exact ⟨old', List.mem_cons_of_mem _ hold, ha⟩
  exact hgo b.entries [] h

/-- Nothing changes if what each name is bound to stays as it is. -/
theorem mapValues_id (b : Bindings α) : (b.mapValues fun _ a => a) = b := by
  have hgo : ∀ (l : List (String × α)) (seen : List String),
      mapValues.go (fun _ a => a) seen l = l := by
    intro l
    induction l with
    | nil => exact fun seen => rfl
    | cons x l ih =>
      intro seen
      rw [mapValues.go, ih, ite_self]
  exact congrArg Bindings.mk (hgo b.entries [])

theorem mapValues_mapValues (b : Bindings α) (f g : String → α → α) :
    (b.mapValues f).mapValues g = b.mapValues fun name a => g name (f name a) := by
  have hgo : ∀ (l : List (String × α)) (seen : List String),
      mapValues.go g seen (mapValues.go f seen l) =
        mapValues.go (fun name a => g name (f name a)) seen l := by
    intro l
    induction l with
    | nil => exact fun seen => rfl
    | cons x l ih =>
      intro seen
      obtain ⟨n, a⟩ := x
      rw [mapValues.go, mapValues.go, mapValues.go, ih]
      by_cases h : n ∈ seen <;> simp only [h, ↓reduceIte]
  exact congrArg Bindings.mk (hgo b.entries [])

/-- Entries that are not the first of a name are none of its changes. -/
theorem mapValues_go_of_mem {name : String} (f : α → α) (l : List (String × α))
    {seen : List String} (h : name ∈ seen) :
    mapValues.go (fun n a => if n = name then f a else a) seen l = l := by
  induction l generalizing seen with
  | nil => rfl
  | cons x l ih =>
    obtain ⟨n, a⟩ := x
    rw [mapValues.go, ih (List.mem_cons_of_mem n h)]
    by_cases hn : n = name
    · rw [if_pos (hn ▸ h)]
    · rw [if_neg hn, ite_self]

/-- To change one name is to leave all other names as they are. -/
theorem update_eq_mapValues (b : Bindings α) (name : String) (f : α → α) :
    b.update name f = b.mapValues fun n a => if n = name then f a else a := by
  have hgo : ∀ (l : List (String × α)) (seen : List String), name ∉ seen →
      update.go name f l = mapValues.go (fun n a => if n = name then f a else a) seen l := by
    intro l
    induction l with
    | nil => exact fun seen h => rfl
    | cons x l ih =>
      intro seen hseen
      obtain ⟨n, a⟩ := x
      rw [update.go, mapValues.go]
      by_cases hn : n = name
      · rw [if_pos hn, if_pos hn, if_neg (hn ▸ hseen), mapValues_go_of_mem f l (by simp [hn])]
      · have hnot : name ∉ n :: seen := by simp [hseen, Ne.symm hn]
        rw [if_neg hn, if_neg hn, ite_self, ih (n :: seen) hnot]
  exact congrArg Bindings.mk (hgo b.entries [] List.not_mem_nil)

end Bindings

namespace Table

/-- What a name is depends on the names of a table only. -/
theorem kind?_eq_of_names {t t' : Table} (hs : t'.scalars.names = t.scalars.names)
    (ha : t'.arrays.names = t.arrays.names) : t'.kind? = t.kind? := by
  funext name
  simp only [kind?, Bindings.contains_iff_mem_names, hs, ha]

end Table

namespace Values

/-! ## What a line sets -/

namespace Setting

/-- The kind of the symbol that is set. -/
def kind : Setting → Kind
  | scalar .. => .scalar
  | array .. => .array

/-- The value that a scalar is set to. -/
def value? : Setting → Option Float
  | scalar _ value => some value
  | array .. => none

/-- The cells that an array is set to. -/
def cells? : Setting → Option Cells
  | scalar .. => none
  | array _ length pairs => some (cellsOf length pairs)

theorem size_foldl_set (pairs : List (Nat × Float)) (values : Array Float) :
    (pairs.foldl (fun values (index, value) => values.setIfInBounds index value) values).size =
      values.size := by
  induction pairs generalizing values with
  | nil => rfl
  | cons pair pairs ih => rw [List.foldl_cons, ih, Array.size_setIfInBounds]

/-- An array that is set is loaded, with the length that the line gives to it. -/
theorem length?_cellsOf (length : Nat) (pairs : List (Nat × Float)) :
    (cellsOf length pairs).length? = some length := by
  rw [cellsOf, Cells.length?, size_foldl_set, Array.size_replicate]

end Setting

namespace Line

/-- The first word of a line. -/
def word? (line : String) : Option String :=
  (Text.firstWord? line.toList).map String.ofList

/-- What a line sets a symbol to, provided that it names it and is accepted. -/
def settingOf? (kind? : String → Option Kind) (name line : String) : Option Setting :=
  if word? line = some name then
    match read kind? line with
    | .ok (.sets setting) => some setting
    | _ => none
  else none

/-- The error of a line with a number, if it has one. -/
def error? (kind? : String → Option Kind) (number : Nat) (line : String) : Option LoadError :=
  match read kind? line with
  | .ok _ => none
  | .error cause => some (.onLine number cause)

/-- The errors of lines, the first of which has a given number. -/
def errors (kind? : String → Option Kind) (number : Nat) (lines : List String) : List LoadError :=
  (lines.zipIdx number).filterMap fun (line, n) => error? kind? n line

theorem errors_cons (kind? : String → Option Kind) (number : Nat) (line : String)
    (lines : List String) :
    errors kind? number (line :: lines) =
      (error? kind? number line).toList ++ errors kind? (number + 1) lines := by
  simp only [errors, List.zipIdx_cons, List.filterMap_cons]
  cases error? kind? number line <;> rfl

/-- Lines that are all accepted have no errors. -/
theorem errors_eq_nil {kind? : String → Option Kind} {number : Nat} {lines : List String}
    (h : ∀ line ∈ lines, ∃ line', read kind? line = .ok line') :
    errors kind? number lines = [] := by
  induction lines generalizing number with
  | nil => rfl
  | cons line lines ih =>
    obtain ⟨line', hread⟩ := h line List.mem_cons_self
    rw [errors_cons, ih fun l hl => h l (List.mem_cons_of_mem _ hl), error?, hread]
    rfl

theorem of_setting_eq_ok {kind : Kind} {name : String} {tokens : List Token} {s : Setting}
    (h : setting kind name tokens = .ok s) : s.name = name ∧ s.kind = kind := by
  unfold setting at h
  split at h
  · obtain ⟨v, -, hv⟩ := bind_eq_ok_iff.mp h
    obtain rfl := Except.ok.inj hv
    exact ⟨rfl, rfl⟩
  · exact nomatch h
  · exact nomatch h
  · obtain ⟨length, -, h⟩ := bind_eq_ok_iff.mp h
    obtain ⟨pairs, -, hpairs⟩ := bind_eq_ok_iff.mp h
    obtain rfl := Except.ok.inj hpairs
    exact ⟨rfl, rfl⟩

/-- An array is given a length that an array may have. -/
theorem length_le_of_setting {kind : Kind} {name n : String} {tokens : List Token} {l : Nat}
    {ps : List (Nat × Float)} (h : setting kind name tokens = .ok (.array n l ps)) :
    l ≤ greatestLength := by
  unfold setting at h
  split at h
  · obtain ⟨v, -, hv⟩ := bind_eq_ok_iff.mp h
    exact nomatch hv
  · exact nomatch h
  · exact nomatch h
  · obtain ⟨l', hlength, h⟩ := bind_eq_ok_iff.mp h
    obtain ⟨pairs, -, hpairs⟩ := bind_eq_ok_iff.mp h
    obtain ⟨-, rfl, -⟩ := Setting.array.inj (Except.ok.inj hpairs)
    unfold length at hlength
    split at hlength
    · split at hlength
      · exact nomatch hlength
      · split at hlength
        · next hle =>
          obtain rfl := Except.ok.inj hlength
          exact hle
        · exact nomatch hlength
    · exact nomatch hlength

/-- A line that sets anything starts with a symbol, and what is set is read from the rest. -/
theorem exists_setting_of_read {kind? : String → Option Kind} {line : String} {s : Setting}
    (h : read kind? line = .ok (.sets s)) : ∃ kind word tokens, word? line = some word ∧
      kind? word = some kind ∧ setting kind word tokens = .ok s := by
  unfold read at h
  split at h
  · simp at h
  · next word hword =>
    split at h
    · simp at h
    · next kind hkind =>
      split at h
      · exact nomatch h
      · next tokens _ =>
        split at h
        · next first rest _ =>
          split at h
          · -- only here the line sets anything: its first word is a symbol, and its tokens start
            -- with it
            cases hs : setting kind word rest with
            | error cause =>
              rw [hs] at h
              exact nomatch h
            | ok s' =>
              rw [hs] at h
              obtain rfl : s' = s := by simpa [Functor.map, Except.map] using h
              exact ⟨kind, word, rest, hword, hkind, hs⟩
          · exact nomatch h
        · exact nomatch h

/-- A line sets the symbol that it names, as the kind that this name has. -/
theorem of_read_eq_sets {kind? : String → Option Kind} {line : String} {s : Setting}
    (h : read kind? line = .ok (.sets s)) :
    word? line = some s.name ∧ kind? s.name = some s.kind := by
  obtain ⟨kind, word, tokens, hword, hkind, hs⟩ := exists_setting_of_read h
  obtain ⟨rfl, rfl⟩ := of_setting_eq_ok hs
  exact ⟨hword, hkind⟩

variable {kind? : String → Option Kind} {name line : String} {s : Setting}

/-- A line that is accepted sets the symbol that it names, and no other. -/
theorem settingOf?_of_sets (h : read kind? line = .ok (.sets s)) :
    settingOf? kind? name line = if name = s.name then some s else none := by
  simp [settingOf?, h, (of_read_eq_sets h).1, eq_comm]

/-- A line that is blank, names no symbol or fails sets nothing. -/
theorem settingOf?_of_not_sets (h : ∀ s, read kind? line ≠ .ok (.sets s)) :
    settingOf? kind? name line = none := by
  unfold settingOf?
  split
  · split
    · next s hread => exact absurd hread (h s)
    · rfl
  · rfl

/-- What a line sets a symbol to is what it sets, if it names it. -/
theorem read_of_settingOf? (h : settingOf? kind? name line = some s) :
    read kind? line = .ok (.sets s) ∧ name = s.name := by
  by_cases hsets : ∃ s', read kind? line = .ok (.sets s')
  · obtain ⟨s', hread⟩ := hsets
    rw [settingOf?_of_sets hread] at h
    split at h
    · next hname =>
      obtain rfl : s' = s := Option.some.inj h
      exact ⟨hread, hname⟩
    · exact nomatch h
  · rw [settingOf?_of_not_sets fun s' hread => hsets ⟨s', hread⟩] at h
    exact nomatch h

/-- What a line sets a symbol to is of the kind that its name has. -/
theorem kind_of_settingOf? (h : settingOf? kind? name line = some s) :
    kind? name = some s.kind := by
  obtain ⟨hread, rfl⟩ := read_of_settingOf? h
  exact (of_read_eq_sets hread).2

end Line

end Values

/-! ## Setting several symbols at once -/

namespace Table

open Values

/-- The table in which each symbol is set to what is given for its name, if anything is. -/
def overwrite (t : Table) (given : String → Option Setting) : Table where
  scalars := t.scalars.mapValues fun name value => ((given name).bind Setting.value?).getD value
  arrays := t.arrays.mapValues fun name cells => ((given name).bind Setting.cells?).getD cells

@[simp] theorem kind?_overwrite (t : Table) (given : String → Option Setting) :
    (t.overwrite given).kind? = t.kind? :=
  kind?_eq_of_names (by simp [overwrite]) (by simp [overwrite])

@[simp] theorem overwrite_none (t : Table) : (t.overwrite fun _ => none) = t := by
  simp [overwrite, Bindings.mapValues_id]

/-- The value of a scalar is set to what is given, if anything is. -/
theorem scalarValue_overwrite {t : Table} {name : String} (h : t.kind? name = some .scalar)
    (given : String → Option Setting) :
    (t.overwrite given).scalarValue name =
      ((given name).bind Setting.value?).getD (t.scalarValue name) := by
  obtain ⟨v, hv⟩ := exists_scalar_of_kind? h
  simp [scalarValue, overwrite, hv]

/-- The cells of an array are set to what is given, if anything is. -/
theorem cells_overwrite {t : Table} {name : String} (h : t.kind? name = some .array)
    (given : String → Option Setting) :
    (t.overwrite given).cells name =
      ((given name).bind Setting.cells?).getD (t.cells name) := by
  obtain ⟨c, hc⟩ := exists_cells_of_kind? h
  simp [cells, overwrite, hc]

/-- What is set later goes before what is set earlier, provided that both are of one kind. -/
theorem overwrite_overwrite (t : Table) {earlier later : String → Option Setting}
    (h : ∀ name s s', earlier name = some s → later name = some s' → s.kind = s'.kind) :
    (t.overwrite earlier).overwrite later =
      t.overwrite fun name => (later name).or (earlier name) := by
  have hor : ∀ name, (((later name).or (earlier name)).bind Setting.value? =
        ((later name).bind Setting.value?).or ((earlier name).bind Setting.value?)) ∧
      (((later name).or (earlier name)).bind Setting.cells? =
        ((later name).bind Setting.cells?).or ((earlier name).bind Setting.cells?)) := by
    intro name
    cases hl : later name with
    | none => simp
    | some s' =>
      cases he : earlier name with
      | none => simp
      | some s =>
        -- both set the value of a scalar, or both set the cells of an array
        have hkind := h name s s' he hl
        cases s <;> cases s' <;> simp_all [Setting.kind, Setting.value?, Setting.cells?]
  simp only [overwrite, Bindings.mapValues_mapValues, (hor _).1, (hor _).2]
  congr 2 <;> (funext name a; cases later name <;> simp [Option.getD_or])

end Table

namespace Values

theorem Setting.applyTo_eq_overwrite (s : Setting) (t : Table) :
    s.applyTo t = t.overwrite fun name => if name = s.name then some s else none := by
  cases s with
  | scalar n v =>
    show t.setScalar n v = t.overwrite fun name => if name = n then some (scalar n v) else none
    have hcells : ∀ name, (if name = n then some (scalar n v) else none).bind cells? = none := by
      intro name
      split <;> rfl
    simp only [Table.setScalar, Bindings.update_eq_mapValues, Table.overwrite, hcells,
      Option.getD_none, Bindings.mapValues_id]
    congr 2
    funext name a
    by_cases h : name = n <;> simp [h, value?]
  | array n l ps =>
    show t.setCells n (cellsOf l ps) =
      t.overwrite fun name => if name = n then some (array n l ps) else none
    have hvalue : ∀ name, (if name = n then some (array n l ps) else none).bind value? = none := by
      intro name
      split <;> rfl
    simp only [Table.setCells, Bindings.update_eq_mapValues, Table.overwrite, hvalue,
      Option.getD_none, Bindings.mapValues_id]
    congr 2
    funext name a
    by_cases h : name = n <;> simp [h, cells?]

/-! ## Loading -/

namespace Line

variable {kind? : String → Option Kind} {lines : List String} {name : String} {s : Setting}

/-- What the last of some lines sets that names a symbol and is accepted. -/
def last? (kind? : String → Option Kind) (lines : List String) (name : String) : Option Setting :=
  lines.reverse.findSome? (settingOf? kind? name)

theorem last?_cons (line : String) :
    last? kind? (line :: lines) name =
      (last? kind? lines name).or (settingOf? kind? name line) := by
  rw [last?, List.reverse_cons, List.findSome?_append]
  simp [last?]

theorem kind_of_last? (h : last? kind? lines name = some s) : kind? name = some s.kind := by
  obtain ⟨line, -, hline⟩ := List.exists_of_findSome?_eq_some h
  exact kind_of_settingOf? hline

/-- What lines set an array to has a length that an array may have. -/
theorem length?_le_of_last? {cells : Cells} {length : Nat}
    (h : (last? kind? lines name).bind Setting.cells? = some cells)
    (hlength : cells.length? = some length) : length ≤ greatestLength := by
  obtain ⟨s, hs, hcells⟩ := Option.bind_eq_some_iff.mp h
  obtain ⟨line, -, hline⟩ := List.exists_of_findSome?_eq_some hs
  obtain ⟨hread, -⟩ := read_of_settingOf? hline
  obtain ⟨kind, word, tokens, -, -, hsetting⟩ := exists_setting_of_read hread
  cases s with
  | scalar n v => exact nomatch hcells
  | array n l ps =>
    obtain rfl : Setting.cellsOf l ps = cells := Option.some.inj hcells
    obtain rfl : l = length := by simpa [Setting.length?_cellsOf] using hlength
    exact length_le_of_setting hsetting

/-- Only the lines that name a symbol matter to it. -/
theorem last?_filter (kind? : String → Option Kind) (lines : List String) (name : String) :
    last? kind? (lines.filter (word? · = some name)) name = last? kind? lines name := by
  induction lines with
  | nil => rfl
  | cons line lines ih =>
    rw [last?_cons, List.filter_cons]
    split
    · rw [last?_cons, ih]
    · next hword =>
      -- a line that names another symbol sets nothing for this one
      have hnone : settingOf? kind? name line = none := by
        unfold settingOf?
        rw [if_neg (by simpa using hword)]
      rw [ih, hnone, Option.or_none]

/-- What lines set depends only on the order of those that name the same symbol. -/
theorem last?_congr {lines' : List String}
    (h : ∀ name, kind? name ≠ none →
      lines'.filter (word? · = some name) = lines.filter (word? · = some name)) :
    last? kind? lines' = last? kind? lines := by
  funext name
  by_cases hkind : kind? name = none
  · -- no line sets a name that is no symbol
    have hnone : ∀ ls, last? kind? ls name = none := by
      intro ls
      refine Option.eq_none_iff_forall_ne_some.mpr fun s hs => ?_
      rw [kind_of_last? hs] at hkind
      exact nomatch hkind
    rw [hnone, hnone]
  · rw [← last?_filter, h name hkind, last?_filter]

end Line

namespace Loaded

/-- One line sets the symbol that it names, if it is accepted, and else it is an error. -/
theorem load_fst (loaded : Loaded) (number : Nat) (line : String) (log : Log) :
    (loaded.load number line log).1 =
      { table := loaded.table.overwrite (Line.settingOf? loaded.table.kind? · line)
        errors := loaded.errors ++ (Line.error? loaded.table.kind? number line).toArray } := by
  -- a line that sets nothing leaves the table alone, for whichever reason
  have hnone : (∀ s, Line.read loaded.table.kind? line ≠ .ok (.sets s)) →
      (Line.settingOf? loaded.table.kind? · line) = fun _ => none :=
    fun hne => funext fun _ => Line.settingOf?_of_not_sets hne
  unfold load Line.error?
  cases hread : Line.read loaded.table.kind? line with
  | error cause =>
    rw [hnone (by simp [hread]), Table.overwrite_none]
    simp
    rfl
  | ok line' =>
    cases line' with
    | blank =>
      rw [hnone (by simp [hread]), Table.overwrite_none]
      simp
      rfl
    | unknown word =>
      rw [hnone (by simp [hread]), Table.overwrite_none]
      simp
      rfl
    | sets s =>
      have hset : (Line.settingOf? loaded.table.kind? · line) =
          fun name => if name = s.name then some s else none :=
        funext fun _ => Line.settingOf?_of_sets hread
      rw [hset, ← s.applyTo_eq_overwrite]
      simp
      rfl

/-- Each line is loaded on what those before it have left, with the next number. -/
theorem loadLines_cons (loaded : Loaded) (number : Nat) (line : String) (lines : List String)
    (log : Log) :
    loaded.loadLines number (line :: lines) log =
      (loaded.load number line log).1.loadLines (number + 1) lines
        (loaded.load number line log).2 := rfl

/-- Some lines set each symbol to what the last of them does that names it and is accepted. The
    kinds of the names are the same before every line, as no line changes them. -/
theorem loadLines_fst (loaded : Loaded) (number : Nat) (lines : List String) (log : Log) :
    (loaded.loadLines number lines log).1 =
      { table := loaded.table.overwrite (Line.last? loaded.table.kind? lines)
        errors := loaded.errors ++ (Line.errors loaded.table.kind? number lines).toArray } := by
  -- Induction on the lines. The kinds of the names are the invariant: with them, what the rest of
  -- the lines sets can be said before any line has been loaded.
  induction lines generalizing loaded number log with
  | nil =>
    have hlast : Line.last? loaded.table.kind? [] = fun _ => none := rfl
    rw [hlast, Table.overwrite_none]
    simp [loadLines, Line.errors]
    rfl
  | cons line lines ih =>
    rw [loadLines_cons, ih, load_fst]
    simp only [Table.kind?_overwrite]
    -- what the rest of the lines sets goes before what this line sets
    rw [Table.overwrite_overwrite _ fun name s s' h h' =>
      Option.some.inj ((Line.kind_of_settingOf? h).symm.trans (Line.kind_of_last? h'))]
    simp only [← Line.last?_cons, Loaded.mk.injEq, Line.errors_cons]
    cases Line.error? loaded.table.kind? number line <;> simp

end Loaded

/-- Loading a source leaves each symbol with what the last line sets that names it and is accepted,
    as far as the source can be read. -/
theorem Source.load_table (source : Source) (t : Table) (log : Log) :
    (source.load t log).1.table = t.overwrite (Line.last? t.kind? source.read.lines) := by
  have hload : (source.load t log).1.table =
      (Loaded.loadLines { table := t } 1 source.read.lines log).1.table := by
    unfold load Reading.load
    cases source.read.fault <;> rfl
  rw [hload, Loaded.loadLines_fst]

/-- Loading a text loads all of its lines. -/
theorem Source.load_ofText (text : String) (t : Table) (log : Log) :
    (Source.ofText text).load t log =
      Loaded.loadLines { table := t } 1 (Text.lines text) log := by
  unfold load Reading.load
  rw [read_ofText]
  rfl

/-- Loading a text leaves each symbol with what the last line sets that names it and is accepted,
    and reports the lines that are not. -/
theorem Source.load_ofText_fst (t : Table) (text : String) (log : Log) :
    ((Source.ofText text).load t log).1 =
      { table := t.overwrite (Line.last? t.kind? (Text.lines text))
        errors := (Line.errors t.kind? 1 (Text.lines text)).toArray } := by
  rw [load_ofText, Loaded.loadLines_fst]
  simp

/-- Loading a text leaves the symbols of a table as they are, and gives each of them what the last
    line sets that names it and is accepted. Which lines are accepted depends on the names and the
    kinds of the symbols only, so loading the text again changes nothing, and neither does any
    change of the order of its lines that keeps the order of those about the same symbol. -/
theorem load_ofText_eq_last (t : Table) (text : String) (log : Log) :
    let lines := Text.lines text
    let loaded := ((Source.ofText text).load t log).1
    (loaded.table.scalars.names = t.scalars.names ∧
      loaded.table.arrays.names = t.arrays.names) ∧
    (∀ name, loaded.table.scalars.get? name = (t.scalars.get? name).map fun value =>
      ((Line.last? t.kind? lines name).bind Setting.value?).getD value) ∧
    (∀ name, loaded.table.arrays.get? name = (t.arrays.get? name).map fun cells =>
      ((Line.last? t.kind? lines name).bind Setting.cells?).getD cells) ∧
    loaded.errors.toList = Line.errors t.kind? 1 lines ∧
    (∀ t' : Table, t'.scalars.names = t.scalars.names → t'.arrays.names = t.arrays.names →
      ∀ log', ((Source.ofText text).load t' log').1.errors = loaded.errors) ∧
    (∀ log', ((Source.ofText text).load loaded.table log').1.table = loaded.table) ∧
    (∀ text', (∀ name, t.kind? name ≠ none → (Text.lines text').filter (Line.word? · = some name) =
        lines.filter (Line.word? · = some name)) →
      ∀ log', ((Source.ofText text').load t log').1.table = loaded.table) := by
  intro lines loaded
  have hloaded : loaded = { table := t.overwrite (Line.last? t.kind? lines), errors := _ } :=
    Source.load_ofText_fst t text log
  rw [hloaded]
  refine ⟨⟨?_, ?_⟩, ?_, ?_, ?_, ?_, ?_, ?_⟩
  · exact Bindings.names_mapValues _ _
  · exact Bindings.names_mapValues _ _
  · exact Bindings.get?_mapValues _ _
  · exact Bindings.get?_mapValues _ _
  · rfl
  · intro t' hs ha log'
    rw [Source.load_ofText_fst, Table.kind?_eq_of_names hs ha]
  · -- the kinds are the same, so the same settings are made once more
    intro log'
    rw [Source.load_ofText_fst, Table.kind?_overwrite]
    rw [Table.overwrite_overwrite _ fun name s s' h h' =>
      congrArg Setting.kind (Option.some.inj (h.symm.trans h'))]
    simp only [Option.or_self]
  · intro text' hfilter log'
    rw [Source.load_ofText_fst]
    rw [Line.last?_congr hfilter]

/-- Other values do not change which lines fail, and lines about different symbols can change
    places, here around one that fails. -/
theorem load_ofText_eq_last_swapped :
    let t : Table := { scalars := ⟨[("x", 0)]⟩, arrays := ⟨[("A", .unloaded)]⟩ }
    let t' : Table := { scalars := ⟨[("x", 3)]⟩, arrays := ⟨[("A", .loaded #[1])]⟩ }
    let loaded := ((Source.ofText "x y\nx 5\nA 2 (1,7)").load t #[]).1
    loaded.table = { scalars := ⟨[("x", 5)]⟩, arrays := ⟨[("A", .loaded #[0, 7])]⟩ } ∧
      loaded.errors.map LoadError.message =
        #["Error on line 1: Malformed value line: expected a number but found 'y'."] ∧
      ((Source.ofText "x y\nx 5\nA 2 (1,7)").load t' #[]).1.errors = loaded.errors ∧
      ((Source.ofText "A 2 (1,7)\nx y\nx 5\n").load t #[]).1.table = loaded.table := by
  intro t t' loaded
  obtain ⟨-, -, -, -, hvalues, -, horder⟩ :=
    load_ofText_eq_last t "x y\nx 5\nA 2 (1,7)" #[]
  refine ⟨by decide +kernel, by decide +kernel, hvalues t' rfl rfl #[],
    horder _ (fun name hkind => ?_) #[]⟩
  have hname : name = "x" ∨ name = "A" := by
    refine Decidable.byContradiction fun hne => hkind ?_
    rw [not_or] at hne
    simp [t, Table.kind?, Bindings.contains, hne]
  rcases hname with rfl | rfl <;> decide +kernel

end Values

end Reckon
