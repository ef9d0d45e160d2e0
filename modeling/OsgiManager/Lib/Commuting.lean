import OsgiManager.Lib.Rewrite
import Mathlib.Data.List.Perm.Basic

namespace OsgiManager.Lib

/-!
# Loops that commute

Loops that are run one after the other on the same state, in some order.  Where a pass of one
loop neither starts nor stops the other one, and two passes lead to one state in either order,
the loops themselves can be swapped; so a whole list of them can be put into any order.

* `Loop.CommuteAt` — the passes of two loops commute at a state;
* `Loop.returns_swap` — then one loop after the other is the same in either order;
* `Loop.InTurn` — a list of loops in turn, and `Loop.InTurn.perm` for the order of the list;
* `Apart`, `Spares` — a replacement does not meet the occurrences of another pattern;
* `commuteAt_rewriteBody` — rewriting loops that spare each other's patterns commute.
-/

namespace Loop

variable {σ ι : Type*} {f g : σ → σ ⊕ σ}

/-- At a state, a pass of one loop does not change whether the other one goes on, and where both
    go on, their passes lead to the same state in either order. -/
structure CommuteAt (f g : σ → σ ⊕ σ) (s : σ) : Prop where
  both : ∀ s₁ s₂, f s = .inl s₁ → g s = .inl s₂ → ∃ t, g s₁ = .inl t ∧ f s₂ = .inl t
  left : ∀ s₁, f s = .inl s₁ → g s = .inr s → g s₁ = .inr s₁
  right : ∀ s₂, g s = .inl s₂ → f s = .inr s → f s₂ = .inr s₂

/-- A loop leaves with the state it has reached. -/
def Leaves (f : σ → σ ⊕ σ) : Prop := ∀ s r, f s = .inr r → r = s

/-- A pass of the loop keeps an invariant. -/
def Keeps (I : σ → Prop) (f : σ → σ ⊕ σ) : Prop := ∀ s s', I s → f s = .inl s' → I s'

theorem CommuteAt.symm {s : σ} (h : CommuteAt f g s) : CommuteAt g f s where
  both s₁ s₂ h₁ h₂ := by
    obtain ⟨t, ht₁, ht₂⟩ := h.both s₂ s₁ h₂ h₁
    exact ⟨t, ht₂, ht₁⟩
  left := h.right
  right := h.left

/-- An invariant of the passes holds of what the loop returns. -/
theorem Keeps.returns {I : σ → Prop} (hleaves : Leaves f) (hkeeps : Keeps I f) {s r : σ}
    (hs : I s) (h : Returns f s r) : I r := by
  induction h using Returns.induction with
  | last s hb => rwa [hleaves s r hb]
  | pass s s' hb h ih => exact ih (hkeeps s s' hs hb)

variable {I : σ → Prop}

/-- **Strip lemma.**  A pass of one loop can be put off until the other loop has ended. -/
theorem returns_strip (hg : Leaves g) (hcomm : ∀ s, I s → CommuteAt f g s) (hkeeps : Keeps I g)
    {s s₁ r₁ : σ} (hs : I s) (hf : f s = .inl s₁) (h : Returns g s₁ r₁) :
    ∃ r, Returns g s r ∧ f r = .inl r₁ := by
  obtain ⟨n, hn⟩ := h
  induction n generalizing s s₁ with
  | zero => simp at hn
  | succ n ih =>
    cases hb : g s with
    | inl s₂ =>
      obtain ⟨t, hgt, hft⟩ := (hcomm s hs).both s₁ s₂ hf hb
      rw [run_succ_inl hgt] at hn
      obtain ⟨r, hr, hfr⟩ := ih (hkeeps s s₂ hs hb) hft hn
      exact ⟨r, (returns_of_inl hb).mpr hr, hfr⟩
    | inr r =>
      -- the other loop has ended already, and still has after the pass
      obtain rfl := hg s r hb
      rw [run_succ_inr ((hcomm r hs).left s₁ hf hb), Option.some.injEq] at hn
      exact ⟨r, returns_of_inr hb, hn ▸ hf⟩

/-- A loop that has ended stays so while the other one runs. -/
theorem eq_inr_of_returns (hg : Leaves g) (hcomm : ∀ s, I s → CommuteAt f g s)
    (hkeeps : Keeps I g) {s r : σ} (hs : I s) (hf : f s = .inr s) (h : Returns g s r) :
    f r = .inr r := by
  induction h using Returns.induction with
  | last s hb => rwa [hg s r hb]
  | pass s s' hb h ih => exact ih (hkeeps s s' hs hb) ((hcomm s hs).right s' hb hf)

/-- **Swapping.**  Where the passes of two loops commute, so do the loops. -/
theorem returns_swap (hf : Leaves f) (hg : Leaves g) (hcomm : ∀ s, I s → CommuteAt f g s)
    (hkeepsf : Keeps I f) (hkeepsg : Keeps I g) {s t r : σ} (hs : I s) (h₁ : Returns f s t)
    (h₂ : Returns g t r) : ∃ u, Returns g s u ∧ Returns f u r := by
  induction h₁ using Returns.induction with
  | last s hb =>
    obtain rfl := hf s t hb
    exact ⟨r, h₂, returns_of_inr (eq_inr_of_returns hg hcomm hkeepsg hs hb h₂)⟩
  | pass s s₁ hb h₁ ih =>
    obtain ⟨u₁, hgu, hfu⟩ := ih (hkeepsf s s₁ hs hb)
    obtain ⟨u, hu, hpass⟩ := returns_strip hg hcomm hkeepsg hs hb hgu
    exact ⟨u, hu, (returns_of_inl hpass).mpr hfu⟩

/-- Some loops, each started on what the one before has returned. -/
def InTurn (body : ι → σ → σ ⊕ σ) : List ι → σ → σ → Prop
  | [], s, r      => r = s
  | i :: is, s, r => ∃ t, Returns (body i) s t ∧ InTurn body is t r

/-- **Order.**  Loops whose passes commute can be put into any order. -/
theorem InTurn.perm {body : ι → σ → σ ⊕ σ} (hleaves : ∀ i, Leaves (body i)) {is js : List ι}
    (hperm : is.Perm js) (hkeeps : ∀ i ∈ is, Keeps I (body i))
    (hcomm : is.Pairwise fun i j => ∀ s, I s → CommuteAt (body i) (body j) s) {s r : σ}
    (hs : I s) (h : InTurn body is s r) : InTurn body js s r := by
  induction hperm generalizing s with
  | nil => exact h
  | cons i hperm ih =>
    rw [List.forall_mem_cons] at hkeeps
    obtain ⟨t, ht, hrest⟩ := h
    have hI := hkeeps.1.returns (hleaves i) hs ht
    exact ⟨t, ht, ih hkeeps.2 (List.pairwise_cons.mp hcomm).2 hI hrest⟩
  | swap i j is =>
    rw [List.forall_mem_cons, List.forall_mem_cons] at hkeeps
    obtain ⟨t, ht, u, hu, hrest⟩ := h
    have hji := (List.pairwise_cons.mp hcomm).1 i List.mem_cons_self
    obtain ⟨t', ht', hu'⟩ := returns_swap (hleaves j) (hleaves i) hji hkeeps.1 hkeeps.2.1 hs ht hu
    exact ⟨t', ht', u, hu', hrest⟩
  | trans hperm₁ hperm₂ ih₁ ih₂ =>
    refine ih₂ (fun i hi => hkeeps i (hperm₁.mem_iff.mpr hi)) ?_ hs (ih₁ hkeeps hcomm hs h)
    exact (hperm₁.pairwise_iff fun h s hs => (h s hs).symm).mp hcomm

end Loop

/-! ### Rewriting loops -/

/-- Between `a` and `b`, every occurrence of the pattern ends before `m` or starts after it. -/
def Apart (p a m b : Bytes) : Prop := ∀ a' b', a' ++ (p ++ b') = a ++ (m ++ b) →
  a'.length + p.length ≤ a.length ∨ a.length + m.length ≤ a'.length

/-- The replacement of the leftmost `p` in `s` by `v` meets no occurrence of `q`: none reaches into
    what is replaced, and none into what is put there. -/
def Spares (p v q s : Bytes) : Prop :=
  ∀ a b, s = a ++ (p ++ b) → Leftmost p a b → Apart q a p b ∧ Apart q a v b

section
variable {p v q w : Bytes}

theorem leaves_rewriteBody (p v : Bytes) : Loop.Leaves (rewriteBody p v) :=
  fun _ _ h => (rewriteBody_eq_inr h).2

/-- A pass replaces the leftmost occurrence. -/
theorem rewriteBody_eq_inl {s t : Bytes} (h : rewriteBody p v s = .inl t) :
    ∃ a b, s = a ++ (p ++ b) ∧ Leftmost p a b ∧ t = a ++ (v ++ b) := by
  by_cases hp : p <:+: s
  · obtain ⟨a, b, rfl, hleft⟩ := exists_leftmost hp
    rw [rewriteBody_of_leftmost hleft, Sum.inl.injEq] at h
    exact ⟨a, b, rfl, hleft, h.symm⟩
  · rw [rewriteBody_of_absent hp] at h
    cases h

/-- An occurrence before `m`. -/
theorem append_eq_of_le {p a m b a' b' : Bytes} (h : a' ++ (p ++ b') = a ++ (m ++ b))
    (hle : a'.length + p.length ≤ a.length) :
    ∃ c, a = a' ++ (p ++ c) ∧ b' = c ++ (m ++ b) := by
  rw [← List.append_assoc] at h
  rcases List.append_eq_append_iff.mp h with ⟨c, ha, hb⟩ | ⟨c, ha, hb⟩
  · exact ⟨c, by rw [ha, List.append_assoc], hb⟩
  · -- then `m` starts where the occurrence ends
    have hlen := congrArg List.length ha
    simp only [List.length_append] at hlen
    have hc : c = [] := List.eq_nil_of_length_eq_zero (by omega)
    subst hc
    exact ⟨[], by simpa using ha.symm, by simpa using hb.symm⟩

/-- An occurrence after `m`. -/
theorem append_eq_of_ge {p a m b a' b' : Bytes} (h : a' ++ (p ++ b') = a ++ (m ++ b))
    (hle : a.length + m.length ≤ a'.length) :
    ∃ c, a' = a ++ (m ++ c) ∧ b = c ++ (p ++ b') := append_eq_of_le h.symm hle

/-- After a replacement that spares it, another pattern occurs only where it did before. -/
theorem infix_of_apart {a b : Bytes} (hafter : Apart q a v b) (h : q <:+: a ++ (v ++ b)) :
    q <:+: a ++ (p ++ b) := by
  obtain ⟨a', b', h⟩ := h
  rw [List.append_assoc] at h
  rcases hafter a' b' h with hle | hle
  · obtain ⟨c, rfl, rfl⟩ := append_eq_of_le h hle
    exact ⟨a', c ++ (p ++ b), by simp⟩
  · obtain ⟨c, rfl, rfl⟩ := append_eq_of_ge h hle
    exact ⟨a ++ (p ++ c), b', by simp⟩

/-- A pass that spares another pattern does not let it occur. -/
theorem rewriteBody_inr_of_spares {s s₁ : Bytes} (h : Spares p v q s)
    (h₁ : rewriteBody p v s = .inl s₁) (h₂ : rewriteBody q w s = .inr s) :
    rewriteBody q w s₁ = .inr s₁ := by
  obtain ⟨a, b, rfl, hleft, rfl⟩ := rewriteBody_eq_inl h₁
  refine rewriteBody_of_absent fun hq => (rewriteBody_eq_inr h₂).1 ?_
  exact infix_of_apart (h a b rfl hleft).2 hq

/-- Two passes that spare each other's patterns, `q` standing before `p`. -/
theorem square_of_le {a b a' c : Bytes} (hp : p ≠ []) (ha : a = a' ++ (q ++ c))
    (hleft : Leftmost p a b) (hleft' : Leftmost q a' (c ++ (p ++ b))) (hafter : Apart q a v b)
    (hafter' : Apart p a' w (c ++ (p ++ b))) :
    rewriteBody q w (a ++ (v ++ b)) = .inl (a' ++ (w ++ (c ++ (v ++ b)))) ∧
      rewriteBody p v (a' ++ (w ++ (c ++ (p ++ b)))) = .inl (a' ++ (w ++ (c ++ (v ++ b)))) := by
  subst ha
  constructor
  · -- the leftmost `q` is where it was
    have hq : Leftmost q a' (c ++ (v ++ b)) := by
      intro x y hxy
      have hxy' : x ++ (q ++ y) = (a' ++ (q ++ c)) ++ (v ++ b) := by rw [← hxy]; simp
      rcases hafter x y hxy' with hle | hle
      · obtain ⟨z, hz, rfl⟩ := append_eq_of_le hxy' hle
        refine hleft' x (z ++ (p ++ b)) ?_
        rw [← List.append_assoc, ← List.append_assoc, List.append_assoc a', hz]
        simp
      · simp only [List.length_append] at hle
        omega
    have hpass := rewriteBody_of_leftmost (v := w) hq
    simpa only [List.append_assoc] using hpass
  · -- and so is the leftmost `p`, seen from its right end
    have hpos : 0 < p.length := List.length_pos_iff.mpr hp
    have hp' : Leftmost p (a' ++ (w ++ c)) b := by
      intro x y hxy
      have hxy' : x ++ (p ++ y) = a' ++ (w ++ (c ++ (p ++ b))) := by rw [← hxy]; simp
      rcases hafter' x y hxy' with hle | hle
      · obtain ⟨z, rfl, rfl⟩ := append_eq_of_le hxy' hle
        have hx := hleft x (z ++ (q ++ (c ++ (p ++ b)))) (by simp)
        simp only [List.length_append] at hx
        omega
      · obtain ⟨z, rfl, hz⟩ := append_eq_of_ge hxy' hle
        have hx := hleft (a' ++ (q ++ z)) y (by simp [hz])
        simp only [List.length_append] at hx ⊢
        omega
    have hpass := rewriteBody_of_leftmost (v := v) hp'
    simpa only [List.append_assoc] using hpass

/-- **Sparing.**  Two rewriting loops whose passes spare each other's patterns commute. -/
theorem commuteAt_rewriteBody (hp : p ≠ []) (hq : q ≠ []) {s : Bytes} (h : Spares p v q s)
    (h' : Spares q w p s) : Loop.CommuteAt (rewriteBody p v) (rewriteBody q w) s where
  both s₁ s₂ h₁ h₂ := by
    obtain ⟨a, b, rfl, hleft, rfl⟩ := rewriteBody_eq_inl h₁
    obtain ⟨a', b', hs, hleft', rfl⟩ := rewriteBody_eq_inl h₂
    obtain ⟨hbefore, hafter⟩ := h a b rfl hleft
    obtain ⟨hbefore', hafter'⟩ := h' a' b' hs hleft'
    rcases hbefore a' b' hs.symm with hle | hle
    · obtain ⟨c, ha, rfl⟩ := append_eq_of_le hs.symm hle
      obtain ⟨hq', hp'⟩ := square_of_le hp ha hleft hleft' hafter hafter'
      exact ⟨_, hq', hp'⟩
    · obtain ⟨c, ha', rfl⟩ := append_eq_of_ge hs.symm hle
      obtain ⟨hp', hq'⟩ := square_of_le hq ha' hleft' hleft hafter' hafter
      exact ⟨_, hq', hp'⟩
  left _ h₁ h₂ := rewriteBody_inr_of_spares h h₁ h₂
  right _ h₂ h₁ := rewriteBody_inr_of_spares h' h₂ h₁

end

/-! ### Deciding -/

/-- Occurrences, by the positions they must not have. -/
theorem apart_iff {p a m b : Bytes} : Apart p a m b ↔ ∀ i < a.length + m.length,
    i + p.length ≤ a.length ∨ ¬ p <+: (a ++ (m ++ b)).drop i := by
  constructor
  · intro h i hi
    by_cases hp : p <+: (a ++ (m ++ b)).drop i
    · obtain ⟨b', hb'⟩ := hp
      have hlen : ((a ++ (m ++ b)).take i).length = i :=
        List.length_take_of_le (by simp only [List.length_append]; omega)
      have hcut := h ((a ++ (m ++ b)).take i) b' (by rw [hb', List.take_append_drop])
      rw [hlen] at hcut
      exact .inl (hcut.resolve_right (Nat.not_le.mpr hi))
    · exact .inr hp
  · intro h a' b' heq
    by_cases hi : a'.length < a.length + m.length
    · refine .inl ((h a'.length hi).resolve_right (not_not.mpr ⟨b', ?_⟩))
      rw [← heq, List.drop_left]
    · exact .inr (Nat.not_lt.mp hi)

instance (p a m b : Bytes) : Decidable (Apart p a m b) := decidable_of_iff _ apart_iff.symm

/-- The leftmost occurrence, as `find` returns it. -/
theorem spares_iff {p v q s : Bytes} : Spares p v q s ↔ ∀ pos ∈ find p s,
    Apart q (s.take pos) p (s.drop (pos + p.length)) ∧
      Apart q (s.take pos) v (s.drop (pos + p.length)) := by
  have hcut : ∀ a b : Bytes, (a ++ (p ++ b)).take a.length = a ∧
      (a ++ (p ++ b)).drop (a.length + p.length) = b := by
    intro a b
    rw [List.take_left, ← List.append_assoc, List.drop_left' (by simp)]
    exact ⟨rfl, rfl⟩
  constructor
  · intro h pos hpos
    obtain ⟨a, b, rfl, hleft, rfl⟩ := find_eq_some (Option.mem_def.mp hpos)
    rw [(hcut a b).1, (hcut a b).2]
    exact h a b rfl hleft
  · rintro h a b rfl hleft
    have hsome : (find p (a ++ (p ++ b))).isSome := (find_isSome_iff _ _).mpr ⟨a, b, by simp⟩
    obtain ⟨pos, hpos⟩ := Option.isSome_iff_exists.mp hsome
    obtain ⟨a', b', hab, hleft', rfl⟩ := find_eq_some hpos
    -- the two decompositions are the same
    have hlen : a.length = a'.length := Nat.le_antisymm (hleft a' b' hab) (hleft' a b hab.symm)
    have hspares := h a'.length hpos
    rwa [← hlen, (hcut a b).1, (hcut a b).2] at hspares

instance (p v q s : Bytes) : Decidable (Spares p v q s) := decidable_of_iff _ spares_iff.symm

end OsgiManager.Lib
