import Mathlib.Order.Basic

namespace OsgiManager.Lib

/-!
# While loops

The body of a `while (true)` loop maps the loop state to the next state (`Sum.inl`) or to
the value the loop leaves with (`Sum.inr`).

* `Loop.run` — the loop cut off after a number of passes;
* `Loop.Returns` — the loop ends with a given value, and `Loop.Returns.induction` is the induction
  on its passes;
* `Loop.run_of_variant` — total correctness: an invariant and a decreasing variant;
* `Loop.not_returns` — divergence: an invariant under which the body always goes on;
* `Loop.run_map` — one loop simulates another.
-/

namespace Loop

variable {σ ρ : Type*}

/-- The loop, cut off after `n` passes. -/
def run (body : σ → σ ⊕ ρ) : Nat → σ → Option ρ
  | 0, _     => none
  | n + 1, s => match body s with
    | .inl s' => run body n s'
    | .inr r  => some r

/-- The loop started in `s` ends, with value `r`. -/
def Returns (body : σ → σ ⊕ ρ) (s : σ) (r : ρ) : Prop := ∃ n, run body n s = some r

@[simp] theorem run_zero (body : σ → σ ⊕ ρ) (s : σ) : run body 0 s = none := rfl

theorem run_succ_inl {body : σ → σ ⊕ ρ} {s s' : σ} (h : body s = .inl s') (n : Nat) :
    run body (n + 1) s = run body n s' := by
  simp only [run, h]

theorem run_succ_inr {body : σ → σ ⊕ ρ} {s : σ} {r : ρ} (h : body s = .inr r) (n : Nat) :
    run body (n + 1) s = some r := by
  simp only [run, h]

/-- More passes do not change the value of a loop that has ended. -/
theorem run_mono {body : σ → σ ⊕ ρ} {n m : Nat} {s : σ} {r : ρ} (hnm : n ≤ m)
    (h : run body n s = some r) : run body m s = some r := by
  induction n generalizing m s with
  | zero => simp at h
  | succ n ih =>
    obtain ⟨m, rfl⟩ : ∃ k, m = k + 1 := ⟨m - 1, by omega⟩
    cases hb : body s with
    | inl s' =>
      rw [run_succ_inl hb] at h ⊢
      exact ih (by omega) h
    | inr r' =>
      rw [run_succ_inr hb] at h ⊢
      exact h

/-- A pass that goes on does not change what the loop returns. -/
theorem returns_of_inl {body : σ → σ ⊕ ρ} {s s' : σ} (h : body s = .inl s') {r : ρ} :
    Returns body s r ↔ Returns body s' r := by
  constructor
  · rintro ⟨n, hn⟩
    cases n with
    | zero => simp at hn
    | succ n => exact ⟨n, by rwa [run_succ_inl h] at hn⟩
  · rintro ⟨n, hn⟩
    exact ⟨n + 1, by rwa [run_succ_inl h]⟩

theorem returns_of_inr {body : σ → σ ⊕ ρ} {s : σ} {r : ρ} (h : body s = .inr r) :
    Returns body s r := ⟨1, run_succ_inr h 0⟩

/-- **Passes.**  What holds of the last state of a loop, and of each state before that if it holds
    of the next one, holds of the state the loop starts in. -/
theorem Returns.induction {body : σ → σ ⊕ ρ} {r : ρ} {motive : ∀ s, Returns body s r → Prop}
    (last : ∀ s (hb : body s = .inr r), motive s (returns_of_inr hb))
    (pass : ∀ s s' (hb : body s = .inl s') (h : Returns body s' r), motive s' h →
      motive s ((returns_of_inl hb).mpr h)) {s : σ} (h : Returns body s r) : motive s h := by
  obtain ⟨n, hn⟩ := h
  induction n generalizing s with
  | zero => simp at hn
  | succ n ih =>
    cases hb : body s with
    | inl s' =>
      have hn' : run body n s' = some r := by rwa [run_succ_inl hb] at hn
      exact pass s s' hb ⟨n, hn'⟩ (ih hn')
    | inr r' =>
      obtain rfl : r' = r := by rwa [run_succ_inr hb, Option.some.injEq] at hn
      exact last s hb

/-- **Total correctness.**  If the invariant `I` gives, in each pass, either a smaller
    variant or a value that satisfies `Q`, then as many passes as the variant's start value
    plus one are enough, and the loop's value satisfies `Q`. -/
theorem run_of_variant {body : σ → σ ⊕ ρ} (I : σ → Prop) (variant : σ → Nat) (Q : ρ → Prop)
    (hnext : ∀ s s', I s → body s = .inl s' → I s' ∧ variant s' < variant s)
    (hexit : ∀ s r, I s → body s = .inr r → Q r)
    {n : Nat} {s : σ} (hs : I s) (hn : variant s < n) : ∃ r, run body n s = some r ∧ Q r := by
  induction n generalizing s with
  | zero => omega
  | succ n ih =>
    cases hb : body s with
    | inl s' =>
      obtain ⟨hs', hlt⟩ := hnext s s' hs hb
      rw [run_succ_inl hb]
      exact ih hs' (by omega)
    | inr r => exact ⟨r, run_succ_inr hb n, hexit s r hs hb⟩

/-- **Divergence.**  A loop whose body keeps an invariant and always goes on never ends. -/
theorem not_returns {body : σ → σ ⊕ ρ} (I : σ → Prop)
    (hnext : ∀ s, I s → ∃ s', body s = .inl s' ∧ I s') {s : σ} (hs : I s) (r : ρ) :
    ¬ Returns body s r := by
  rintro ⟨n, hn⟩
  induction n generalizing s with
  | zero => simp at hn
  | succ n ih =>
    obtain ⟨s', hb, hs'⟩ := hnext s hs
    rw [run_succ_inl hb] at hn
    exact ih hs' hn

/-- **Simulation.**  Where one body does on images what another does on states, and an
    invariant is kept, the loops run alike. -/
theorem run_map {τ π : Type*} {body : σ → σ ⊕ ρ} {body' : τ → τ ⊕ π} (f : σ → τ) (g : ρ → π)
    (I : σ → Prop) (hsim : ∀ s, I s → body' (f s) = (body s).map f g)
    (hinv : ∀ s s', I s → body s = .inl s' → I s') {s : σ} (hs : I s) (n : Nat) :
    run body' n (f s) = (run body n s).map g := by
  induction n generalizing s with
  | zero => rfl
  | succ n ih =>
    have hbody := hsim s hs
    cases hb : body s with
    | inl s' =>
      rw [hb] at hbody
      rw [run_succ_inl hbody, run_succ_inl hb]
      exact ih (hinv s s' hs hb)
    | inr r =>
      rw [hb] at hbody
      rw [run_succ_inr hbody, run_succ_inr hb]
      rfl

end Loop

end OsgiManager.Lib
