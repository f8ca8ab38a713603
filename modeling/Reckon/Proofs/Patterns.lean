import Mathlib.Computability.Language
import Reckon.Pattern

/-!
# Languages of patterns

The texts that a pattern matches are a language. The derivative of a pattern has the texts that may
follow a character, so taking derivatives along a text finds the longest one at its front that the
pattern matches.

## Key results

- `Pattern.mem_language_derivative_iff`: the language of a derivative
- `Pattern.longest?_eq_some`, `Pattern.longest?_eq_none_iff`: the longest match of a pattern
-/

namespace Reckon

open Computability

/-! ## Languages of words -/

/-- The language of the characters of a class. -/
def oneOf (p : Char → Bool) : Language Char :=
  {w | ∃ c : Char, p c ∧ w = [c]}

theorem mem_oneOf_iff {p : Char → Bool} {w : List Char} : w ∈ oneOf p ↔ ∃ c, p c ∧ w = [c] :=
  Iff.rfl

theorem mem_kstar_oneOf_iff {p : Char → Bool} {w : List Char} :
    w ∈ (oneOf p)∗ ↔ ∀ c ∈ w, p c := by
  rw [Language.mem_kstar]
  constructor
  · rintro ⟨ws, rfl, hws⟩ c hc
    obtain ⟨w, hw, hcw⟩ := List.mem_flatten.mp hc
    obtain ⟨d, hd, rfl⟩ := hws w hw
    rwa [List.mem_singleton.mp hcw]
  · intro h
    refine ⟨w.map fun c => [c], by simp [← List.flatMap_def], fun y hy => ?_⟩
    obtain ⟨c, hc, rfl⟩ := List.mem_map.mp hy
    exact ⟨c, h c hc, rfl⟩

/-- At least one character of a class. -/
theorem mem_oneOf_mul_kstar_iff {p : Char → Bool} {w : List Char} :
    w ∈ oneOf p * (oneOf p)∗ ↔ w ≠ [] ∧ ∀ c ∈ w, p c := by
  rw [Language.mem_mul]
  constructor
  · rintro ⟨_, ⟨c, hc, rfl⟩, ds, hds, rfl⟩
    have hall : ∀ d ∈ c :: ds, p d := List.forall_mem_cons.mpr ⟨hc, mem_kstar_oneOf_iff.mp hds⟩
    exact ⟨List.cons_ne_nil _ _, hall⟩
  · rintro ⟨hne, hall⟩
    cases w with
    | nil => exact absurd rfl hne
    | cons c ds =>
      obtain ⟨hc, hds⟩ := List.forall_mem_cons.mp hall
      exact ⟨[c], ⟨c, hc, rfl⟩, ds, mem_kstar_oneOf_iff.mpr hds, rfl⟩

/-- A character, and after it what a language has. -/
theorem mem_singleton_mul_iff {c : Char} {l : Language Char} {w : List Char} :
    w ∈ ({[c]} : Language Char) * l ↔ ∃ cs ∈ l, w = c :: cs := by
  rw [Language.mem_mul]
  constructor
  · rintro ⟨_, rfl, cs, hcs, rfl⟩
    exact ⟨cs, hcs, rfl⟩
  · rintro ⟨cs, hcs, rfl⟩
    exact ⟨[c], rfl, cs, hcs, rfl⟩

/-- A text that is repeated starts with one that is not empty, or is empty itself. -/
theorem cons_mem_kstar_iff {l : Language Char} {c : Char} {w : List Char} :
    c :: w ∈ l∗ ↔ ∃ u v, c :: u ∈ l ∧ v ∈ l∗ ∧ u ++ v = w := by
  constructor
  · intro h
    obtain ⟨ws, hws, hne⟩ := Language.mem_kstar_iff_exists_nonempty.mp h
    cases ws with
    | nil => exact nomatch hws
    | cons u ws =>
      obtain ⟨hu, hune⟩ := hne u List.mem_cons_self
      obtain ⟨d, u, rfl⟩ := List.exists_cons_of_ne_nil hune
      obtain ⟨rfl, rfl⟩ := List.cons.inj hws
      have hrest : ws.flatten ∈ l∗ :=
        Language.join_mem_kstar fun y hy => (hne y (List.mem_cons_of_mem _ hy)).1
      exact ⟨u, _, hu, hrest, rfl⟩
  · rintro ⟨u, v, hu, hv, rfl⟩
    obtain ⟨ws, rfl, hws⟩ := Language.mem_kstar.mp hv
    exact Language.mem_kstar.mpr ⟨(c :: u) :: ws, rfl, List.forall_mem_cons.mpr ⟨hu, hws⟩⟩

/-- Whether a text is the longest one at the front of another that a language has. -/
structure Longest (l : Language Char) (cs w : List Char) : Prop where
  mem : w ∈ l
  isPrefix : w <+: cs
  length_le : ∀ u ∈ l, u <+: cs → u.length ≤ w.length

namespace Pattern

/-! ## The language of a pattern -/

/-- The texts that a pattern matches. -/
def language : Pattern → Language Char
  | nothing => 0
  | empty => 1
  | one p => oneOf p
  | alt p q => p.language + q.language
  | seq p q => p.language * q.language
  | star p => p.language∗

theorem mem_language_char_iff {c : Char} {w : List Char} : w ∈ (char c).language ↔ w = [c] := by
  constructor
  · rintro ⟨d, hd, rfl⟩
    rw [of_decide_eq_true hd]
  · intro h
    exact ⟨c, decide_eq_true rfl, h⟩

theorem nullable_iff {p : Pattern} : p.nullable ↔ [] ∈ p.language := by
  induction p with
  | nothing => simp [nullable, language]
  | empty => simp [nullable, language]
  | one p => simp [nullable, language, mem_oneOf_iff]
  | alt p q ihp ihq =>
    rw [nullable, Bool.or_eq_true, ihp, ihq, language, Language.mem_add]
  | seq p q ihp ihq =>
    rw [nullable, Bool.and_eq_true, ihp, ihq, language, Language.mem_mul]
    constructor
    · rintro ⟨hp, hq⟩
      exact ⟨[], hp, [], hq, rfl⟩
    · rintro ⟨u, hu, v, hv, huv⟩
      obtain ⟨rfl, rfl⟩ := List.append_eq_nil_iff.mp huv
      exact ⟨hu, hv⟩
  | star p _ => simp [nullable, language, Language.nil_mem_kstar]

/-! ## Derivatives -/

@[simp] theorem language_or (p q : Pattern) : (p.or q).language = p.language + q.language := by
  unfold or
  split <;> simp [language]

@[simp] theorem language_andThen (p q : Pattern) :
    (p.andThen q).language = p.language * q.language := by
  unfold andThen
  split <;> simp [language]

/-- The derivative of a sequence goes on with the first part, or with the second one after a first
    part that is empty. -/
theorem cons_mem_mul_iff {l m : Language Char} {c : Char} {w : List Char} :
    c :: w ∈ l * m ↔ (∃ u v, c :: u ∈ l ∧ v ∈ m ∧ u ++ v = w) ∨ [] ∈ l ∧ c :: w ∈ m := by
  rw [Language.mem_mul]
  constructor
  · rintro ⟨u, hu, v, hv, huv⟩
    cases u with
    | nil => exact Or.inr ⟨hu, huv ▸ hv⟩
    | cons d u =>
      obtain ⟨rfl, rfl⟩ := List.cons.inj huv
      exact Or.inl ⟨u, v, hu, hv, rfl⟩
  · rintro (⟨u, v, hu, hv, rfl⟩ | ⟨hl, hm⟩)
    · exact ⟨c :: u, hu, v, hv, rfl⟩
    · exact ⟨[], hl, c :: w, hm, rfl⟩

/-- The derivative of a pattern matches what may follow the character. -/
theorem mem_language_derivative_iff {p : Pattern} {c : Char} {w : List Char} :
    w ∈ (p.derivative c).language ↔ c :: w ∈ p.language := by
  induction p generalizing w with
  | nothing => simp [derivative, language]
  | empty => simp [derivative, language]
  | one p =>
    have hcons : c :: w ∈ oneOf p ↔ p c ∧ w = [] := by simp [mem_oneOf_iff]
    rw [derivative, language, hcons]
    split
    · next h => simp [language, h]
    · next h => simp [language, h]
  | alt p q ihp ihq =>
    rw [derivative, language_or, language, Language.mem_add, Language.mem_add, ihp, ihq]
  | seq p q ihp ihq =>
    have hfirst : w ∈ (p.derivative c).language * q.language ↔
        ∃ u v, c :: u ∈ p.language ∧ v ∈ q.language ∧ u ++ v = w := by
      simp only [Language.mem_mul, ihp]
      constructor
      · rintro ⟨u, hu, v, hv, rfl⟩
        exact ⟨u, v, hu, hv, rfl⟩
      · rintro ⟨u, v, hu, hv, rfl⟩
        exact ⟨u, hu, v, hv, rfl⟩
    rw [language, cons_mem_mul_iff, ← hfirst, ← nullable_iff, derivative]
    split
    · next h => rw [language_or, language_andThen, Language.mem_add, ihq, and_iff_right h]
    · next h =>
      rw [language_andThen]
      simp [h]
  | star p ih =>
    rw [derivative, language_andThen, language, cons_mem_kstar_iff, Language.mem_mul]
    simp only [ih]
    constructor
    · rintro ⟨u, hu, v, hv, rfl⟩
      exact ⟨u, v, hu, hv, rfl⟩
    · rintro ⟨u, v, hu, hv, rfl⟩
      exact ⟨u, hu, v, hv, rfl⟩

/-! ## The longest match -/

theorem longest?_nil (p : Pattern) : p.longest? [] = if p.nullable then some 0 else none := by
  cases p <;> rfl

theorem longest?_cons (p : Pattern) (c : Char) (cs : List Char) :
    p.longest? (c :: cs) =
      match (p.derivative c).longest? cs with
      | some length => some (length + 1)
      | none => if p.nullable then some 0 else none := by
  have hnothing : nothing.longest? cs = none := by cases cs <;> rfl
  cases p with
  | nothing => rw [longest?, derivative, hnothing, nullable, if_neg Bool.false_ne_true]
  | _ => rfl

/-- A pattern has no match at the front of a text exactly if it matches no prefix of it. -/
theorem longest?_eq_none_iff {p : Pattern} {cs : List Char} :
    p.longest? cs = none ↔ ∀ w, w <+: cs → w ∉ p.language := by
  induction cs generalizing p with
  | nil => simp [longest?_nil, ← nullable_iff]
  | cons c cs ih =>
    have hfront : (∀ w, w <+: c :: cs → w ∉ p.language) ↔
        (∀ w, w <+: cs → w ∉ (p.derivative c).language) ∧ ¬ p.nullable := by
      simp only [mem_language_derivative_iff, nullable_iff]
      constructor
      · intro h
        exact ⟨fun w hw => h _ (List.cons_prefix_cons.mpr ⟨rfl, hw⟩), h [] List.nil_prefix⟩
      · rintro ⟨hcons, hnil⟩ w hw
        cases w with
        | nil => exact hnil
        | cons d w =>
          obtain ⟨rfl, hrest⟩ := List.cons_prefix_cons.mp hw
          exact hcons w hrest
    rw [hfront, ← ih, longest?_cons]
    cases (p.derivative c).longest? cs <;> simp

/-- The length that is found is that of the longest prefix which the pattern matches. -/
theorem longest?_eq_some {p : Pattern} {cs : List Char} {n : Nat} (h : p.longest? cs = some n) :
    Longest p.language cs (cs.take n) ∧ n ≤ cs.length := by
  induction cs generalizing p n with
  | nil =>
    rw [longest?_nil] at h
    split at h
    · next hnull =>
      obtain rfl := Option.some.inj h
      refine ⟨⟨nullable_iff.mp hnull, List.nil_prefix, fun u _ hu => ?_⟩, Nat.le_refl _⟩
      rw [List.prefix_nil.mp hu]
      exact Nat.zero_le _
    · exact nomatch h
  | cons c cs ih =>
    rw [longest?_cons] at h
    split at h
    · next length hlength =>
      -- what follows the character is the longest match of the derivative
      obtain rfl := Option.some.inj h
      obtain ⟨hlongest, hlen⟩ := ih hlength
      have hmem := mem_language_derivative_iff.mp hlongest.mem
      refine ⟨⟨hmem, List.take_prefix .., fun u humem hu => ?_⟩, Nat.succ_le_succ hlen⟩
      cases u with
      | nil => exact Nat.zero_le _
      | cons d u =>
        obtain ⟨rfl, hrest⟩ := List.cons_prefix_cons.mp hu
        exact Nat.succ_le_succ
          (hlongest.length_le u (mem_language_derivative_iff.mpr humem) hrest)
    · next hnone =>
      -- no match goes on with the character, so only the empty text is left
      split at h
      · next hnull =>
        obtain rfl := Option.some.inj h
        refine ⟨⟨nullable_iff.mp hnull, List.nil_prefix, fun u humem hu => ?_⟩, Nat.zero_le _⟩
        cases u with
        | nil => exact Nat.le_refl _
        | cons d u =>
          obtain ⟨rfl, hrest⟩ := List.cons_prefix_cons.mp hu
          exact absurd (mem_language_derivative_iff.mpr humem)
            (longest?_eq_none_iff.mp hnone u hrest)
      · exact nomatch h

end Pattern

end Reckon
