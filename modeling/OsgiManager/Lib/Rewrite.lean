import OsgiManager.Lib.Bytes
import OsgiManager.Lib.Loop

namespace OsgiManager.Lib

/-!
# Rewriting the leftmost occurrence

The loop that replaces the leftmost occurrence of a pattern `p` by a string `v` for as long as
`p` occurs.  It looks at its own output again, so it need not end.

* `rewriteBody` — one pass; `Ends p v s` — the loop ends when it starts in `s`;
* `ends_step` — ending is the same before and after a pass;
* `ends_of_ownOccurrences` — the loop ends if it only finds what was there from the start;
* `ends_of_count` — the loop ends if `v` has fewer of some byte than `p`;
* `ends_of_oneSided` — the loop ends if an occurrence that starts before `v` and ends inside it
  can only be one that was there before;
* `not_ends_of_reinserted` — the loop does not end if `v` contains `p`.
-/

/-- `replace(pos, n, v)`. -/
def replace (s : Bytes) (pos n : Nat) (v : Bytes) : Bytes := s.take pos ++ (v ++ s.drop (pos + n))

/-- One pass: replace the leftmost occurrence, or leave with the string as it is. -/
def rewriteBody (p v s : Bytes) : Bytes ⊕ Bytes :=
  match find p s with
  | some pos => .inl (replace s pos p.length v)
  | none     => .inr s

/-- The loop ends when it starts in `s`. -/
def Ends (p v s : Bytes) : Prop := ∃ r, Loop.Returns (rewriteBody p v) s r

/-! ### The leftmost occurrence -/

/-- Between `a` and `b`, the pattern occurs for the first time. -/
def Leftmost (p a b : Bytes) : Prop :=
  ∀ a' b', a ++ (p ++ b) = a' ++ (p ++ b') → a.length ≤ a'.length

/-- `find` returns where the pattern occurs for the first time. -/
theorem find_eq_some {p s : Bytes} {pos : Nat} (h : find p s = some pos) :
    ∃ a b, s = a ++ (p ++ b) ∧ Leftmost p a b ∧ pos = a.length := by
  induction s generalizing pos with
  | nil =>
    by_cases hp : p = []
    · rw [find, if_pos hp, Option.some.injEq] at h
      exact ⟨[], [], by simp [hp], fun _ _ _ => Nat.zero_le _, by simpa using h.symm⟩
    · rw [find, if_neg hp] at h
      cases h
  | cons c s ih =>
    rw [find] at h
    by_cases hp : p <+: c :: s
    · rw [if_pos hp, Option.some.injEq] at h
      obtain ⟨b, hb⟩ := hp
      exact ⟨[], b, hb.symm, fun _ _ _ => Nat.zero_le _, by simpa using h.symm⟩
    · rw [if_neg hp, Option.map_eq_some_iff] at h
      obtain ⟨pos', hpos, rfl⟩ := h
      obtain ⟨a, b, rfl, hleft, rfl⟩ := ih hpos
      refine ⟨c :: a, b, rfl, fun a' b' hab => ?_, rfl⟩
      cases a' with
      | nil => exact absurd ⟨b', hab.symm⟩ hp
      | cons x a' =>
        have htail : a ++ (p ++ b) = a' ++ (p ++ b') := (List.cons.inj hab).2
        have hle := hleft a' b' htail
        simp only [List.length_cons]
        omega

/-- A pattern that occurs has a leftmost occurrence. -/
theorem exists_leftmost {p s : Bytes} (h : p <:+: s) :
    ∃ a b, s = a ++ (p ++ b) ∧ Leftmost p a b := by
  obtain ⟨pos, hpos⟩ := Option.isSome_iff_exists.mp ((find_isSome_iff p s).mpr h)
  obtain ⟨a, b, hs, hleft, _⟩ := find_eq_some hpos
  exact ⟨a, b, hs, hleft⟩

/-- Before the leftmost occurrence, the pattern does not occur. -/
theorem Leftmost.absent {p a b : Bytes} (hp : p ≠ []) (h : Leftmost p a b) : ¬ p <:+: a := by
  rintro ⟨a', b', rfl⟩
  have hle := h a' (b' ++ (p ++ b)) (by simp)
  have hpos : 0 < p.length := List.length_pos_iff.mpr hp
  simp only [List.length_append] at hle
  omega

/-! ### One pass -/

variable {p v : Bytes}

theorem rewriteBody_of_leftmost {a b : Bytes} (h : Leftmost p a b) :
    rewriteBody p v (a ++ (p ++ b)) = .inl (a ++ (v ++ b)) := by
  have hsome : (find p (a ++ (p ++ b))).isSome :=
    (find_isSome_iff _ _).mpr ⟨a, b, by simp⟩
  obtain ⟨pos, hpos⟩ := Option.isSome_iff_exists.mp hsome
  obtain ⟨a', b', hab, hleft, rfl⟩ := find_eq_some hpos
  -- the two decompositions are the same
  have hlen : a.length = a'.length := Nat.le_antisymm (h a' b' hab) (hleft a b hab.symm)
  have hdrop : (a ++ (p ++ b)).drop (a.length + p.length) = b := by
    rw [← List.append_assoc, List.drop_left' (by simp)]
  simp only [rewriteBody, hpos, replace, ← hlen, List.take_left, hdrop]

theorem rewriteBody_of_absent {s : Bytes} (h : ¬ p <:+: s) : rewriteBody p v s = .inr s := by
  have hnone : find p s = none := by
    rw [← Option.not_isSome_iff_eq_none, find_isSome_iff]
    exact h
  rw [rewriteBody, hnone]

/-- The loop leaves with a string in which the pattern does not occur. -/
theorem rewriteBody_eq_inr {s r : Bytes} (h : rewriteBody p v s = .inr r) :
    ¬ p <:+: r ∧ r = s := by
  rw [rewriteBody] at h
  split at h
  · cases h
  · rename_i hnone
    cases h
    rw [← find_isSome_iff, hnone]
    simp

/-! ### Ending -/

theorem ends_of_absent {s : Bytes} (h : ¬ p <:+: s) : Ends p v s :=
  ⟨s, Loop.returns_of_inr (rewriteBody_of_absent h)⟩

/-- A pass does not change whether the loop ends. -/
theorem ends_step {a b : Bytes} (h : Leftmost p a b) :
    Ends p v (a ++ (p ++ b)) ↔ Ends p v (a ++ (v ++ b)) :=
  exists_congr fun _ => Loop.returns_of_inl (rewriteBody_of_leftmost h)

/-- The loop leaves with a string without the pattern. -/
theorem not_infix_of_returns {s r : Bytes} (h : Loop.Returns (rewriteBody p v) s r) :
    ¬ p <:+: r := by
  induction h using Loop.Returns.induction with
  | last s hb => exact (rewriteBody_eq_inr hb).1
  | pass s s' hb h ih => exact ih

/-- Read from the left, no occurrence that is replaced reaches into an inserted string: `w` is
    what has been read, inserted strings included, and `s` what lies ahead. -/
inductive OwnOccurrences (p v : Bytes) : Bytes → Bytes → Prop
  | absent {w s : Bytes} : ¬ p <:+: w ++ s → OwnOccurrences p v w s
  | next {w a b : Bytes} : Leftmost p (w ++ a) b → OwnOccurrences p v (w ++ (a ++ v)) b →
      OwnOccurrences p v w (a ++ (p ++ b))

/-- **Own occurrences.**  The loop ends if it only finds what was there from the start. -/
theorem ends_of_ownOccurrences {w s : Bytes} (h : OwnOccurrences p v w s) :
    Ends p v (w ++ s) := by
  induction h with
  | absent habsent => exact ends_of_absent habsent
  | next hleft _ ih =>
    rw [← List.append_assoc, ends_step hleft]
    simpa [List.append_assoc] using ih

/-- **Counting.**  The loop ends if a pass lowers the number of some byte. -/
theorem ends_of_count {c : Byte} (h : v.count c < p.count c) (s : Bytes) : Ends p v s := by
  have hrun : ∃ r, Loop.run (rewriteBody p v) (s.count c + 1) s = some r ∧ True := by
    refine Loop.run_of_variant (fun _ => True) (fun s => s.count c) (fun _ => True) ?_
      (fun _ _ _ _ => trivial) trivial (Nat.lt_succ_self _)
    intro s s' _ hbody
    have hp : p <:+: s := by
      by_contra hp
      rw [rewriteBody_of_absent hp] at hbody
      cases hbody
    obtain ⟨a, b, rfl, hleft⟩ := exists_leftmost hp
    rw [rewriteBody_of_leftmost hleft, Sum.inl.injEq] at hbody
    refine ⟨trivial, ?_⟩
    subst hbody
    simp only [List.count_append]
    omega
  obtain ⟨r, hr, _⟩ := hrun
  exact ⟨r, _, hr⟩

/-- **Reinsertion.**  The loop does not end if `v` brings the pattern in again. -/
theorem not_ends_of_reinserted {s : Bytes} (hv : p <:+: v) (hs : p <:+: s) : ¬ Ends p v s := by
  rintro ⟨r, hr⟩
  refine Loop.not_returns (fun s => p <:+: s) (fun s hs => ?_) hs r hr
  obtain ⟨a, b, rfl, hleft⟩ := exists_leftmost hs
  exact ⟨_, rewriteBody_of_leftmost hleft, hv.trans ⟨a, b, by simp⟩⟩

/-- A front part of `v` at which the pattern can end is also one at which it can begin. -/
def OneSided (p v : Bytes) : Prop := ∀ u, u ≠ [] → u <+: v → u <:+ p → u <+: p

/-- An occurrence that ends inside the inserted string was there before the pass. -/
theorem not_infix_append_of_oneSided {a b : Bytes} (hp : p ≠ []) (hone : OneSided p v)
    (hv : ¬ p <:+: v) (h : Leftmost p a b) : ¬ p <:+: a ++ v := by
  intro hav
  rcases List.infix_append_iff.mp hav with ha | hv' | ⟨w, u, rfl, hwa, huv⟩
  · exact h.absent hp ha
  · exact hv hv'
  · by_cases hu : u = []
    · rw [hu, List.append_nil] at h
      exact h.absent (by simpa [hu] using hp) (by simpa using hwa.isInfix)
    by_cases hw : w = []
    · exact hv (by simpa [hw] using huv.isInfix)
    -- the pattern begins with `u` too, so it occurred at the end of `a` already
    obtain ⟨t, ht⟩ := hone u hu huv (List.suffix_append w u)
    obtain ⟨a', rfl⟩ := hwa
    have hshift : w ++ (u ++ b) = u ++ (t ++ b) := by
      rw [← List.append_assoc, ← ht, List.append_assoc]
    have hle := h a' (t ++ b) (by simp [hshift])
    have hpos : 0 < w.length := List.length_pos_iff.mpr hw
    simp only [List.length_append] at hle
    omega

/-- **One side.**  The loop ends if the inserted string cannot complete an occurrence. -/
theorem ends_of_oneSided (hp : p ≠ []) (hone : OneSided p v) (hv : ¬ p <:+: v) (s : Bytes) :
    Ends p v s := by
  have key : ∀ n (w y : Bytes), ¬ p <:+: w → y.length = n → Ends p v (w ++ y) := by
    intro n
    induction n using Nat.strong_induction_on with
    | h n ih =>
      intro w y hw hy
      by_cases hs : p <:+: w ++ y
      · obtain ⟨a, b, hab, hleft⟩ := exists_leftmost hs
        rw [hab, ends_step hleft, ← List.append_assoc]
        -- the occurrence ends after `w`, so less is left to its right
        have hlt : b.length < y.length := by
          by_contra hge
          have hlen := congrArg List.length hab
          simp only [List.length_append] at hlen
          have hsuffix : y <:+ b := by
            have hb : b <:+ w ++ y := ⟨a ++ p, by rw [hab, List.append_assoc]⟩
            exact List.suffix_of_suffix_length_le (List.suffix_append w y) hb (by omega)
          obtain ⟨b', rfl⟩ := hsuffix
          refine hw ⟨a, b', ?_⟩
          have : (a ++ p ++ b') ++ y = w ++ y := by rw [hab]; simp
          exact List.append_cancel_right this
        exact ih b.length (hy ▸ hlt) (a ++ v) b (not_infix_append_of_oneSided hp hone hv hleft) rfl
      · exact ends_of_absent hs
  exact key s.length [] s (by simpa using hp) rfl

end OsgiManager.Lib
