import OsgiManager.Lib.Run

namespace OsgiManager.Lib

/-!
# Machines with outputs, and simulations between them

A machine that answers some of its events has an output function `out : σ → ε → Option ω`
beside its step function.  Two machines over the same events are compared by a relation of
their states: `Simulates` says that related states give the same answer to an event and go
to related states, and `Simulates.run` carries this to whole runs.
-/

variable {σ τ ε ω : Type*}

/-- The answers of a run, in order. -/
def outputs (step : σ → ε → σ) (out : σ → ε → Option ω) (s : σ) (es : List ε) : List ω :=
  (history step s es).filterMap fun p => out p.1 p.2

theorem outputs_cons (step : σ → ε → σ) (out : σ → ε → Option ω) (s : σ) (e : ε) (es : List ε) :
    outputs step out s (e :: es) = (out s e).toList ++ outputs step out (step s e) es := by
  rw [outputs, history_cons, List.filterMap_cons, outputs]
  cases h : out s e <;> simp

theorem outputs_concat (step : σ → ε → σ) (out : σ → ε → Option ω) (s : σ) (es : List ε) (e : ε) :
    outputs step out s (es ++ [e]) =
      outputs step out s es ++ (out (es.foldl step s) e).toList := by
  rw [outputs, history_concat, List.filterMap_append, ← outputs]
  cases h : out (es.foldl step s) e <;> simp [h]

/-- Related states answer an event alike and go to related states. -/
structure Simulates (step : σ → ε → σ) (out : σ → ε → Option ω) (step' : τ → ε → τ)
    (out' : τ → ε → Option ω) (R : σ → τ → Prop) : Prop where
  next : ∀ s t e, R s t → R (step s e) (step' t e)
  answer : ∀ s t e, R s t → out s e = out' t e

/-- **The simulation rule.**  From related states, the runs on the same events end in related
    states and have the same answers. -/
theorem Simulates.run {step : σ → ε → σ} {out : σ → ε → Option ω} {step' : τ → ε → τ}
    {out' : τ → ε → Option ω} {R : σ → τ → Prop} (h : Simulates step out step' out' R)
    {s : σ} {t : τ} (hst : R s t) (es : List ε) :
    R (es.foldl step s) (es.foldl step' t) ∧ outputs step out s es = outputs step' out' t es := by
  induction es generalizing s t with
  | nil => exact ⟨hst, rfl⟩
  | cons e es ih =>
    obtain ⟨hstate, houts⟩ := ih (h.next s t e hst)
    refine ⟨hstate, ?_⟩
    rw [outputs_cons, outputs_cons, houts, h.answer s t e hst]

end OsgiManager.Lib
