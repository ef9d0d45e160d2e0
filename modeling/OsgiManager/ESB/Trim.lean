import OsgiManager.ESB.Listing

namespace OsgiManager.ESB

open OsgiManager.Lib

/-!
# What trimming does

`trim` cuts a string at its first and its last byte that is no space, and returns a string
without such a byte unchanged.

* `Trimmed`, `Blank` — no space at either end; nothing but spaces;
* `trim_pad` — trimming removes the padding around a trimmed string;
* `trimmed_trim_iff` — the result is trimmed except for a column of spaces.
-/

/-- A string of spaces. -/
def spaces (n : Nat) : Bytes := List.replicate n ' '.toUInt8

/-- No leading and no trailing space. -/
def Trimmed (s : Bytes) : Prop := s.head? ≠ some ' '.toUInt8 ∧ s.getLast? ≠ some ' '.toUInt8

/-- Nothing but spaces, and at least one. -/
def Blank (s : Bytes) : Prop := s ≠ [] ∧ ∀ c ∈ s, c = ' '.toUInt8

instance (s : Bytes) : Decidable (Trimmed s) :=
  inferInstanceAs (Decidable (s.head? ≠ some ' '.toUInt8 ∧ s.getLast? ≠ some ' '.toUInt8))

instance (s : Bytes) : Decidable (Blank s) :=
  inferInstanceAs (Decidable (s ≠ [] ∧ ∀ c ∈ s, c = ' '.toUInt8))

theorem spaces_append (a b : Nat) : spaces a ++ spaces b = spaces (a + b) := by
  rw [spaces, spaces, spaces, List.replicate_append_replicate]

theorem forall_mem_spaces {P : Byte → Prop} (h : P ' '.toUInt8) (n : Nat) : ∀ b ∈ spaces n, P b :=
  fun _ hb => List.eq_of_mem_replicate hb ▸ h

theorem not_mem_spaces {b : Byte} (h : b ≠ ' '.toUInt8) (n : Nat) : b ∉ spaces n :=
  fun hb => h (List.eq_of_mem_replicate hb)

/-- A trimmed string of spaces is empty. -/
theorem Trimmed.eq_nil {s : Bytes} (h : Trimmed s) (hs : ∀ c ∈ s, c = ' '.toUInt8) : s = [] := by
  cases s with
  | nil => rfl
  | cons c s => exact absurd (by rw [hs c (by simp)]; rfl) h.1

/-- Whatever stands between two trimmed strings, the result is trimmed. -/
theorem Trimmed.join {s t : Bytes} (hs : s ≠ []) (ht : t ≠ []) (h : Trimmed s) (h' : Trimmed t)
    (between : Bytes) : Trimmed (s ++ (between ++ t)) := by
  rw [Trimmed, List.head?_append_of_ne_nil _ hs, ← List.append_assoc,
    List.getLast?_append_of_ne_nil _ ht]
  exact ⟨h.1, h'.2⟩

/-- The leading spaces of a string, and the rest. -/
theorem exists_leading (s : Bytes) : ∃ n t, s = spaces n ++ t ∧ t.head? ≠ some ' '.toUInt8 := by
  induction s with
  | nil => exact ⟨0, [], rfl, by simp⟩
  | cons c s ih =>
    by_cases hc : c = ' '.toUInt8
    · obtain ⟨n, t, rfl, ht⟩ := ih
      exact ⟨n + 1, t, by rw [hc]; rfl, ht⟩
    · exact ⟨0, c :: s, rfl, by simpa using hc⟩

/-- The trailing spaces of a string, and what stands before them. -/
theorem exists_trailing (s : Bytes) : ∃ t n, s = t ++ spaces n ∧ t.getLast? ≠ some ' '.toUInt8 := by
  obtain ⟨n, t, ht, hhead⟩ := exists_leading s.reverse
  refine ⟨t.reverse, n, ?_, by rwa [List.getLast?_reverse]⟩
  rw [← List.reverse_reverse s, ht, List.reverse_append, spaces, List.reverse_replicate]

/-- Every string consists of spaces, or is a trimmed string with padding around it. -/
theorem spaces_or_pad (s : Bytes) : (∀ c ∈ s, c = ' '.toUInt8) ∨
    ∃ a core b, s = spaces a ++ (core ++ spaces b) ∧ core ≠ [] ∧ Trimmed core := by
  obtain ⟨a, t, rfl, hhead⟩ := exists_leading s
  obtain ⟨core, b, rfl, hlast⟩ := exists_trailing t
  by_cases hne : core = []
  · left
    intro c hc
    rw [hne, spaces, spaces, List.nil_append, ← List.replicate_add] at hc
    exact List.eq_of_mem_replicate hc
  · right
    refine ⟨a, core, b, rfl, hne, ?_, hlast⟩
    obtain ⟨c, core, rfl⟩ := List.exists_cons_of_ne_nil hne
    exact hhead

/-- The first byte that is no space stands after the leading spaces. -/
theorem findIdx?_spaces_append (n : Nat) {s : Bytes} (hs : s ≠ []) (hh : s.head? ≠ some ' '.toUInt8)
    (t : Bytes) : (spaces n ++ (s ++ t)).findIdx? (· ≠ ' '.toUInt8) = some n := by
  obtain ⟨c, s, rfl⟩ := List.exists_cons_of_ne_nil hs
  have hc : c ≠ ' '.toUInt8 := fun h => hh (by rw [h]; rfl)
  induction n with
  | zero => simp [spaces, List.findIdx?_cons, hc]
  | succ n ih =>
    have hcons : spaces (n + 1) ++ (c :: s ++ t) = ' '.toUInt8 :: (spaces n ++ (c :: s ++ t)) := rfl
    rw [hcons, List.findIdx?_cons, if_neg (by simp), ih]
    rfl

/-- **Padding.**  Trimming removes the spaces around a trimmed string. -/
theorem trim_pad (a b : Nat) {core : Bytes} (hne : core ≠ []) (h : Trimmed core) :
    trim (spaces a ++ (core ++ spaces b)) = core := by
  have hfirst : findFirstNotOf ' '.toUInt8 (spaces a ++ (core ++ spaces b)) = some a :=
    findIdx?_spaces_append a hne h.1 _
  have hlast : findLastNotOf ' '.toUInt8 (spaces a ++ (core ++ spaces b)) =
      some (a + core.length - 1) := by
    have hrev : (spaces a ++ (core ++ spaces b)).reverse =
        spaces b ++ (core.reverse ++ spaces a) := by simp [spaces]
    have hidx := findIdx?_spaces_append b (s := core.reverse) (by simpa using hne)
      (by rw [List.head?_reverse]; exact h.2) (spaces a)
    rw [findLastNotOf, hrev, hidx, Option.map_some]
    simp only [List.length_append, spaces, List.length_replicate, Option.some.injEq]
    omega
  have hpos : 0 < core.length := List.length_pos_iff.mpr hne
  have hlen : a + core.length - 1 - a + 1 = core.length := by omega
  rw [trim, hfirst, hlast]
  show substr _ a (a + core.length - 1 - a + 1) = core
  rw [hlen, substr, List.drop_left' (by simp [spaces]), List.take_left]

/-- A trimmed string is not changed. -/
theorem trim_of_trimmed {s : Bytes} (hne : s ≠ []) (h : Trimmed s) : trim s = s := by
  simpa [spaces] using trim_pad 0 0 hne h

/-- A string of spaces comes back unchanged, as the source's early return has it. -/
theorem trim_of_spaces {s : Bytes} (h : ∀ c ∈ s, c = ' '.toUInt8) : trim s = s := by
  have hnone : findFirstNotOf ' '.toUInt8 s = none := by
    rw [findFirstNotOf, List.findIdx?_eq_none_iff]
    intro c hc
    simp [h c hc]
  rw [trim, hnone]

/-- Trimming never produces an empty string from a nonempty one. -/
theorem trim_ne_nil {s : Bytes} (h : s ≠ []) : trim s ≠ [] := by
  rcases spaces_or_pad s with hs | ⟨a, core, b, rfl, hne, ht⟩
  · rwa [trim_of_spaces hs]
  · rwa [trim_pad a b hne ht]

/-- **Normalisation.**  The result of trimming is trimmed exactly when the string is not a
    nonempty run of spaces. -/
theorem trimmed_trim_iff (s : Bytes) : Trimmed (trim s) ↔ ¬ Blank s := by
  rcases spaces_or_pad s with hs | ⟨a, core, b, rfl, hne, ht⟩
  · rw [trim_of_spaces hs]
    constructor
    · exact fun h hb => hb.1 (h.eq_nil hs)
    · intro h
      have hnil : s = [] := by
        by_contra hne
        exact h ⟨hne, hs⟩
      simp [hnil, Trimmed]
  · rw [trim_pad a b hne ht]
    refine ⟨fun _ hb => ?_, fun _ => ht⟩
    -- the trimmed string inside would consist of spaces
    exact hne (ht.eq_nil fun c hc => hb.2 c (by simp [hc]))

end OsgiManager.ESB
