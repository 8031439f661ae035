import Mathlib.Logic.Relation

/-!
# Runs of a labelled transition system

A step relation `step s e t` says that event `e` takes state `s` to `t`. A run
is a chain of steps; `ok` restricts a run to steps whose event is admitted in
the state it happens in. Invariants are proved once for a step and hold in
every state a run reaches.
-/

namespace Runs

variable {σ ε : Type*}

/-- One admitted step. -/
def Next (step : σ → ε → σ → Prop) (ok : σ → ε → Prop) (s t : σ) : Prop :=
  ∃ e, ok s e ∧ step s e t

/-- `t` is reached from `s` by admitted steps. -/
def Reaches (step : σ → ε → σ → Prop) (ok : σ → ε → Prop) : σ → σ → Prop :=
  Relation.ReflTransGen (Next step ok)

/-- The restriction that admits everything. -/
def always : σ → ε → Prop := fun _ _ => True

variable {step : σ → ε → σ → Prop} {ok ok' : σ → ε → Prop} {s t u : σ}

theorem Reaches.refl (s : σ) : Reaches step ok s s := Relation.ReflTransGen.refl

theorem Reaches.tail {e : ε} (h : Reaches step ok s t) (hok : ok t e) (hstep : step t e u) :
    Reaches step ok s u :=
  Relation.ReflTransGen.tail h ⟨e, hok, hstep⟩

/-- **Invariant rule**: what holds at the start and is kept by every admitted
step holds in every state reached. -/
theorem Reaches.invariant {I : σ → Prop} (h : Reaches step ok s t) (hs : I s)
    (hstep : ∀ s e t, I s → ok s e → step s e t → I t) : I t := by
  induction h with
  | refl => exact hs
  | tail _ hlast ih =>
      obtain ⟨e, hok, he⟩ := hlast
      exact hstep _ e _ ih hok he

theorem Reaches.mono (h : Reaches step ok s t) (himp : ∀ s e, ok s e → ok' s e) :
    Reaches step ok' s t :=
  Relation.ReflTransGen.mono (fun _ _ ⟨e, hok, he⟩ => ⟨e, himp _ _ hok, he⟩) _ _ h

theorem Reaches.of_step {step' : σ → ε → σ → Prop} (h : Reaches step ok s t)
    (himp : ∀ s e t, step s e t → step' s e t) : Reaches step' ok s t :=
  Relation.ReflTransGen.mono (fun _ _ ⟨e, hok, he⟩ => ⟨e, hok, himp _ _ _ he⟩) _ _ h

/-! ## Runs of a function -/

/-- The state after a list of events, if each of them has a step. -/
def exec (f : σ → ε → Option σ) : σ → List ε → Option σ
  | s, [] => some s
  | s, e :: es => (f s e).bind fun t => exec f t es

theorem exec_append {f : σ → ε → Option σ} {es es' : List ε} :
    exec f s (es ++ es') = (exec f s es).bind fun t => exec f t es' := by
  induction es generalizing s with
  | nil => rfl
  | cons e es ih =>
      rw [List.cons_append, exec, exec]
      cases f s e with
      | none => rfl
      | some s' => exact ih

/-- What a function computes from a list of events is reached, if they are
admitted where an invariant of the function holds. -/
theorem exec_reaches {f : σ → ε → Option σ} {I : σ → Prop}
    (hkeep : ∀ s e t, I s → f s e = some t → I t) : ∀ {es : List ε} {s t : σ},
    exec f s es = some t → I s → (∀ e ∈ es, ∀ s, I s → ok s e) →
      Reaches (fun s e t => f s e = some t) ok s t
  | [], s, t, h, _, _ => Option.some.inj h ▸ Reaches.refl s
  | e :: es, s, t, h, hs, hok => by
      obtain ⟨s', hstep, hrest⟩ := Option.bind_eq_some_iff.mp h
      have hfirst : Next (fun s e t => f s e = some t) ok s s' :=
        ⟨e, hok e List.mem_cons_self s hs, hstep⟩
      apply Relation.ReflTransGen.head hfirst
      exact exec_reaches hkeep hrest (hkeep s e s' hs hstep)
        fun e he => hok e (List.mem_cons_of_mem _ he)

/-- The same for events that are admitted everywhere. -/
theorem exec_always {f : σ → ε → Option σ} {es : List ε} (h : exec f s es = some t)
    (hok : ∀ e ∈ es, ∀ s, ok s e) : Reaches (fun s e t => f s e = some t) ok s t :=
  exec_reaches (I := fun _ => True) (fun _ _ _ _ _ => trivial) h trivial
    fun e he s _ => hok e he s

/-- The same for events whose condition is looked at on the way. -/
theorem exec_guarded {f : σ → ε → Option σ} [∀ s e, Decidable (ok s e)] :
    ∀ {es : List ε} {s t : σ}, exec (fun s e => if ok s e then f s e else none) s es = some t →
      Reaches (fun s e t => f s e = some t) ok s t
  | [], s, t, h => Option.some.inj h ▸ Reaches.refl s
  | e :: es, s, t, h => by
      obtain ⟨s', hstep, hrest⟩ := Option.bind_eq_some_iff.mp h
      dsimp only at hstep
      split at hstep
      · rename_i hok
        have hfirst : Next (fun s e t => f s e = some t) ok s s' := ⟨e, hok, hstep⟩
        exact Relation.ReflTransGen.head hfirst (exec_guarded hrest)
      · exact absurd hstep (by simp)

end Runs
