import Reckon.Proofs.Patterns
import Reckon.Rule

/-!
# The rule that is taken

Of the rules that match something at the front of a text, the one with the longest match is taken,
and of several with that match one of the highest priority. `Rule.Wins` says this by the languages
of the patterns, and knows nothing of how the matches are looked for.

## Key results

- `Rule.wins_of_winner?`, `Rule.winner?_eq_none_iff`: the match that is taken wins
- `Rule.slices_append`: what is cut off a text is what wins at its front
-/

namespace Reckon

namespace Rule

variable {α : Type} {rules : List (Rule α)} {cs : List Char}

/-- Whether a rule can be taken at the front of a text with a match: no rule has a longer match
    there, and none that has the same match is of a higher priority. -/
structure Wins (rules : List (Rule α)) (cs : List Char) (rule : Rule α) (w : List Char) :
    Prop where
  mem : rule ∈ rules
  ne_nil : w ≠ []
  isPrefix : w <+: cs
  mem_language : w ∈ rule.pattern.language
  length_le : ∀ r ∈ rules, ∀ u, u <+: cs → u ∈ r.pattern.language → u.length ≤ w.length
  priority_le : ∀ r ∈ rules, w ∈ r.pattern.language → r.priority ≤ rule.priority

/-! ## The best of some matches -/

theorem Match.not_beats_iff {m n : Match α} :
    m.beats n = false ↔ m.length < n.length ∨
      m.length = n.length ∧ m.rule.priority ≤ n.rule.priority := by
  rw [beats, Bool.or_eq_false_iff, Bool.and_eq_false_iff]
  simp only [decide_eq_false_iff_not]
  omega

theorem best?_eq_none_iff {ms : List (Match α)} : best? ms = none ↔ ms = [] := by
  cases ms with
  | nil => simp [best?]
  | cons m ms =>
    rw [best?]
    split
    · simp
    · split <;> simp

/-- The best of some matches is one of them, and none of them beats it. -/
theorem best?_eq_some {ms : List (Match α)} {m : Match α} (h : best? ms = some m) :
    m ∈ ms ∧ ∀ n ∈ ms, n.beats m = false := by
  induction ms generalizing m with
  | nil => exact nomatch h
  | cons k ms ih =>
    rw [best?] at h
    split at h
    · next hnone =>
      obtain rfl := Option.some.inj h
      obtain rfl := best?_eq_none_iff.mp hnone
      simp [Match.not_beats_iff]
    · next n hbest =>
      obtain ⟨hmem, hle⟩ := ih hbest
      split at h
      · next hbeats =>
        -- the best of the others beats the first one
        obtain rfl := Option.some.inj h
        refine ⟨List.mem_cons_of_mem _ hmem, List.forall_mem_cons.mpr ⟨?_, hle⟩⟩
        rw [Match.beats, Bool.or_eq_true, Bool.and_eq_true] at hbeats
        simp only [decide_eq_true_eq] at hbeats
        rw [Match.not_beats_iff]
        omega
      · next hbeats =>
        -- what does not beat the best of the others does not beat the first one either
        obtain rfl := Option.some.inj h
        rw [Bool.not_eq_true, Match.not_beats_iff] at hbeats
        refine ⟨List.mem_cons_self, List.forall_mem_cons.mpr ⟨?_, fun x hx => ?_⟩⟩
        · simp [Match.not_beats_iff]
        · have := Match.not_beats_iff.mp (hle x hx)
          rw [Match.not_beats_iff]
          omega

/-! ## The winner -/

/-- The match of a rule is its longest one, and is not empty. -/
theorem match?_eq_some {rule : Rule α} {m : Match α} (h : match? cs rule = some m) :
    m.rule = rule ∧ Longest rule.pattern.language cs (cs.take m.length) ∧
      m.length ≤ cs.length := by
  unfold match? at h
  split at h
  · exact nomatch h
  · next length hlength =>
    split at h
    · obtain rfl := Option.some.inj h
      obtain ⟨hlongest, hle⟩ := Pattern.longest?_eq_some hlength
      exact ⟨rfl, hlongest, hle⟩
    · exact nomatch h

/-- A rule that matches a prefix of a text has a match at least as long. -/
theorem exists_match? {rule : Rule α} {w : List Char} (hne : w ≠ []) (hw : w <+: cs)
    (hmem : w ∈ rule.pattern.language) :
    ∃ m, match? cs rule = some m ∧ w.length ≤ m.length := by
  cases hlongest : rule.pattern.longest? cs with
  | none => exact absurd hmem (Pattern.longest?_eq_none_iff.mp hlongest w hw)
  | some length =>
    obtain ⟨h, hlen⟩ := Pattern.longest?_eq_some hlongest
    have hle : w.length ≤ length := by
      have := h.length_le w hmem hw
      rwa [List.length_take, Nat.min_eq_left hlen] at this
    have hpos : 0 < length := by
      have := List.length_pos_of_ne_nil hne
      omega
    exact ⟨⟨rule, length, hpos⟩, by simp [match?, hlongest, hpos], hle⟩

/-- No match is taken exactly if no rule matches anything. -/
theorem winner?_eq_none_iff :
    winner? rules cs = none ↔
      ∀ r ∈ rules, ∀ w, w ≠ [] → w <+: cs → w ∉ r.pattern.language := by
  rw [winner?, best?_eq_none_iff, List.filterMap_eq_nil_iff]
  constructor
  · intro h r hr w hne hw hmem
    obtain ⟨m, hm, -⟩ := exists_match? hne hw hmem
    rw [h r hr] at hm
    exact nomatch hm
  · intro h r hr
    cases hm : match? cs r with
    | none => rfl
    | some m =>
      obtain ⟨-, hlongest, hle⟩ := match?_eq_some hm
      have hne : cs.take m.length ≠ [] := by
        have := m.length_pos
        rw [← List.length_pos_iff, List.length_take]
        omega
      exact absurd hlongest.mem (h r hr _ hne hlongest.isPrefix)

/-- The match that is taken wins. -/
theorem wins_of_winner? {m : Match α} (h : winner? rules cs = some m) :
    Wins rules cs m.rule (cs.take m.length) := by
  obtain ⟨hm, hbest⟩ := best?_eq_some h
  obtain ⟨rule, hrule, hmatch⟩ := List.mem_filterMap.mp hm
  obtain ⟨rfl, hlongest, hlen⟩ := match?_eq_some hmatch
  have hlength : (cs.take m.length).length = m.length := by
    rw [List.length_take, Nat.min_eq_left hlen]
  have hne : cs.take m.length ≠ [] := by
    have := m.length_pos
    rw [← List.length_pos_iff, hlength]
    exact this
  -- the match of each rule is among those of which this one is the best
  have hle : ∀ r ∈ rules, ∀ u, u ≠ [] → u <+: cs → u ∈ r.pattern.language →
      u.length < m.length ∨ u.length ≤ m.length ∧ r.priority ≤ m.rule.priority := by
    intro r hr u hune hu humem
    obtain ⟨n, hn, hun⟩ := exists_match? hune hu humem
    obtain ⟨rfl, -⟩ := match?_eq_some hn
    have := Match.not_beats_iff.mp (hbest n (List.mem_filterMap.mpr ⟨_, hr, hn⟩))
    omega
  refine ⟨hrule, hne, hlongest.isPrefix, hlongest.mem, fun r hr u hu humem => ?_,
    fun r hr hmem => ?_⟩
  · by_cases hune : u = []
    · rw [hune]
      exact Nat.zero_le _
    · have := hle r hr u hune hu humem
      omega
  · have := hle r hr _ hne hlongest.isPrefix hmem
    omega

/-! ## Slices -/

/-- What is left of a piece of a text, if anything is. -/
def Outcome.slice? (offset : Nat) (w : List Char) : Outcome α → Option (Slice α)
  | token a => some ⟨offset, w, some a⟩
  | skipped => none
  | refused => some ⟨offset, w, none⟩

/-- If only one text can win at the front of another, it is cut off, and becomes what the rules with
    which it wins make of it. -/
theorem slices_append {w rest : List Char} {outcome : Outcome α} (offset : Nat) (hne : w ≠ [])
    (hmatch : ∃ r ∈ rules, w ∈ r.pattern.language)
    (hwins : ∀ r u, Wins rules (w ++ rest) r u → u = w ∧ r.read w = outcome) :
    slices rules offset (w ++ rest) =
      (outcome.slice? offset w).toList ++
        slices rules (offset + Text.byteLength w) rest := by
  cases hwinner : winner? rules (w ++ rest) with
  | none =>
    obtain ⟨r, hr, hmem⟩ := hmatch
    exact absurd hmem (winner?_eq_none_iff.mp hwinner r hr w hne (List.prefix_append ..))
  | some m =>
    obtain ⟨htake, hread⟩ := hwins _ _ (wins_of_winner? hwinner)
    have hdrop : (w ++ rest).drop m.length = rest := by
      have happend := List.take_append_drop m.length (w ++ rest)
      rw [htake] at happend
      exact List.append_cancel_left happend
    obtain ⟨c, cs, rfl⟩ := List.exists_cons_of_ne_nil hne
    rw [List.cons_append] at hwinner htake hdrop ⊢
    rw [slices, hwinner]
    simp only [htake, hdrop, hread]
    cases outcome <;> rfl

end Rule

end Reckon
