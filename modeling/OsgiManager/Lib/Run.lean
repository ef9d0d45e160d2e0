import Mathlib.Data.List.Basic

namespace OsgiManager.Lib

/-!
# Runs of a machine driven by events

A machine is a function `step : σ → ε → σ` that takes one event at a time.  Its run on a
list of events is `List.foldl step`; `history` lists the steps of the run, each as the state
the machine was in and the event it took.  Properties of every step of every run are stated
over `history`, and `forall_history` is the rule that proves them from a step invariant.
-/

variable {σ ε : Type*}

/-- The steps of a run, in order: the state before each event, and the event. -/
def history (step : σ → ε → σ) : σ → List ε → List (σ × ε)
  | _, []      => []
  | s, e :: es => (s, e) :: history step (step s e) es

@[simp] theorem history_nil (step : σ → ε → σ) (s : σ) : history step s [] = [] := rfl

@[simp] theorem history_cons (step : σ → ε → σ) (s : σ) (e : ε) (es : List ε) :
    history step s (e :: es) = (s, e) :: history step (step s e) es := rfl

theorem history_append (step : σ → ε → σ) (s : σ) (es fs : List ε) :
    history step s (es ++ fs) = history step s es ++ history step (es.foldl step s) fs := by
  induction es generalizing s with
  | nil => rfl
  | cons e es ih => simp [ih]

/-- The history of a run that goes on by one event. -/
theorem history_concat (step : σ → ε → σ) (s : σ) (es : List ε) (e : ε) :
    history step s (es ++ [e]) = history step s es ++ [(es.foldl step s, e)] := by
  rw [history_append]; rfl

/-- The steps of a run are the pairs of a state reached and the event taken there. -/
theorem mem_history_iff {step : σ → ε → σ} {s : σ} {es : List ε} {p : σ × ε} :
    p ∈ history step s es ↔ ∃ before after, es = before ++ p.2 :: after ∧
      p.1 = before.foldl step s := by
  constructor
  · intro h
    induction es generalizing s with
    | nil => simp at h
    | cons e es ih =>
      -- the first step of the run, or one after it
      rcases List.mem_cons.mp h with rfl | h
      · exact ⟨[], es, rfl, rfl⟩
      · obtain ⟨before, after, rfl, hp⟩ := ih h
        exact ⟨e :: before, after, rfl, hp⟩
  · rintro ⟨before, after, rfl, hp⟩
    rw [history_append]
    exact List.mem_append.mpr (.inr (List.mem_cons.mpr (.inl (Prod.ext hp rfl))))

/-- **The run rule.**  An invariant of the steps holds in the state a run ends in. -/
theorem foldl_invariant {step : σ → ε → σ} {I : σ → Prop}
    (hstep : ∀ s e, I s → I (step s e)) {s : σ} (hs : I s) (es : List ε) :
    I (es.foldl step s) := by
  induction es generalizing s with
  | nil => exact hs
  | cons e es ih => exact ih (hstep s e hs)

/-- **The history rule.**  An invariant of the steps holds before every step of a run. -/
theorem forall_history {step : σ → ε → σ} {I : σ → Prop}
    (hstep : ∀ s e, I s → I (step s e)) {s : σ} (hs : I s) {es : List ε} {p : σ × ε}
    (hp : p ∈ history step s es) : I p.1 := by
  obtain ⟨before, after, _, hp⟩ := mem_history_iff.mp hp
  exact hp ▸ foldl_invariant hstep hs before

end OsgiManager.Lib
