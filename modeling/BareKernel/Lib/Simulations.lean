import BareKernel.Lib.Runs

/-!
# Forward simulation

Two labelled transition systems under the same labels. A relation between their
states that every step of the first carries over to a step of the second with
the same label carries over whole runs, event by event.
-/

namespace Runs

variable {σ τ ε : Type*}

/-- The run from `s` to `t` with the events `es`, each admitted where it happens. -/
inductive Trace (step : σ → ε → σ → Prop) (ok : σ → ε → Prop) : σ → List ε → σ → Prop where
  | nil (s : σ) : Trace step ok s [] s
  | cons {s t u : σ} {e : ε} {es : List ε} (hok : ok s e) (hstep : step s e t)
      (hrest : Trace step ok t es u) : Trace step ok s (e :: es) u

variable {step : σ → ε → σ → Prop} {ok : σ → ε → Prop} {s t u : σ}
  {es es' : List ε}

theorem Trace.append (h : Trace step ok s es t) (h' : Trace step ok t es' u) :
    Trace step ok s (es ++ es') u := by
  induction h with
  | nil s => exact h'
  | cons hok hstep _ ih => exact .cons hok hstep (ih h')

/-- `R` is kept step by step, the second system doing what the first one does. -/
def Simulates (step : σ → ε → σ → Prop) (ok : σ → ε → Prop) (step' : τ → ε → τ → Prop)
    (R : σ → τ → Prop) : Prop :=
  ∀ s e t s', R s s' → ok s e → step s e t → ∃ t', step' s' e t' ∧ R t t'

/-- **Simulation of runs**: the second system follows a run of the first one. -/
theorem Trace.simulated {step' : τ → ε → τ → Prop} {R : σ → τ → Prop}
    (hsim : Simulates step ok step' R) (h : Trace step ok s es t) {s' : τ} (hs : R s s') :
    ∃ t', Trace step' always s' es t' ∧ R t t' := by
  induction h generalizing s' with
  | nil s => exact ⟨s', .nil s', hs⟩
  | cons hok hstep _ ih =>
      obtain ⟨m', hstep', hm⟩ := hsim _ _ _ _ hs hok hstep
      obtain ⟨t', hrest, ht⟩ := ih hm
      exact ⟨t', .cons trivial hstep' hrest, ht⟩

end Runs
