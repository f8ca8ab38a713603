/-!
# Bindings of names

Names with what they are bound to, in the order of their insertion. A name that is inserted again
keeps its place and what it is bound to. The view is `get?`, and each operation has a lemma about
it; `names` gives the order.
-/

namespace Reckon

/-- Names and what each of them is bound to, in the order of their insertion. -/
structure Bindings (α : Type) where
  entries : List (String × α) := []
deriving BEq, DecidableEq

namespace Bindings

variable {α : Type}

/-- The names, in the order of their insertion. -/
def names (b : Bindings α) : List String :=
  b.entries.map Prod.fst

/-- The number of names. -/
def size (b : Bindings α) : Nat :=
  b.entries.length

/-- What a name is bound to. -/
def get? (b : Bindings α) (name : String) : Option α :=
  b.entries.lookup name

/-- Whether a name is bound. -/
def contains (b : Bindings α) (name : String) : Bool :=
  (b.get? name).isSome

/-- Binds a name that is not bound yet, after all others. -/
def insertNew (b : Bindings α) (name : String) (a : α) : Bindings α :=
  if b.contains name then b else ⟨b.entries ++ [(name, a)]⟩

/-- Changes what a name is bound to, if it is bound. -/
def update (b : Bindings α) (name : String) (f : α → α) : Bindings α :=
  ⟨go b.entries⟩
where
  /-- Changes the first of some entries that is that of the name. -/
  go : List (String × α) → List (String × α)
    | [] => []
    | (n, a) :: entries => if n = name then (n, f a) :: entries else (n, a) :: go entries

/-! ## The view -/

@[simp] theorem get?_empty (name : String) : (⟨[]⟩ : Bindings α).get? name = none := rfl

@[simp] theorem get?_cons (n : String) (a : α) (l : List (String × α)) (name : String) :
    (⟨(n, a) :: l⟩ : Bindings α).get? name = if name = n then some a else get? ⟨l⟩ name := by
  by_cases h : name = n
  · simp [get?, h]
  · have h' : (name == n) = false := by simpa using h
    simp [get?, List.lookup_cons, h, h']

/-- A name is bound exactly if it is one of the names. -/
theorem contains_iff_mem_names {b : Bindings α} {name : String} :
    b.contains name ↔ name ∈ b.names := by
  obtain ⟨l⟩ := b
  induction l with
  | nil => simp [contains, names]
  | cons x l ih =>
    obtain ⟨n, a⟩ := x
    by_cases h : name = n <;> simp_all [contains, names]

/-- A new name is bound last, so it is found only if nothing before it is. -/
private theorem get?_append (l : List (String × α)) (name n : String) (a : α) :
    get? ⟨l ++ [(name, a)]⟩ n = (get? ⟨l⟩ n).or (if n = name then some a else none) := by
  induction l with
  | nil => simp
  | cons x l ih =>
    obtain ⟨m, b⟩ := x
    by_cases h : n = m <;> simp [h, ih]

/-- Inserting a name binds it if it was not bound, and leaves all other names alone. -/
theorem get?_insertNew (b : Bindings α) (name n : String) (a : α) :
    (b.insertNew name a).get? n = if n = name then some ((b.get? n).getD a) else b.get? n := by
  unfold insertNew
  split
  · next h =>
    obtain ⟨v, hv⟩ := Option.isSome_iff_exists.1 h
    split
    · next h' => simp [h', hv]
    · rfl
  · next h =>
    rw [get?_append]
    split
    · next h' =>
      have hn : b.get? name = none := by simpa [contains] using h
      simp [h', hn]
    · simp

/-- Updating a name leaves all other names alone. -/
theorem get?_update (b : Bindings α) (name n : String) (f : α → α) :
    (b.update name f).get? n = if n = name then (b.get? n).map f else b.get? n := by
  obtain ⟨l⟩ := b
  induction l with
  | nil => simp [update, update.go]
  | cons x l ih =>
    obtain ⟨m, a⟩ := x
    simp only [update, update.go] at ih ⊢
    by_cases h : m = name <;> grind [get?_cons]

/-- Updating keeps the names and their order. -/
@[simp] theorem names_update (b : Bindings α) (name : String) (f : α → α) :
    (b.update name f).names = b.names := by
  obtain ⟨l⟩ := b
  induction l with
  | nil => rfl
  | cons x l ih =>
    obtain ⟨m, a⟩ := x
    simp only [names, update, update.go] at ih ⊢
    split
    · rfl
    · rw [List.map_cons, ih, List.map_cons]

end Bindings

end Reckon
