import Mathlib.Tactic.Common
import Mathlib.Logic.Function.Iterate

/-!
# Loops that may not end

A loop is run for a number of rounds. It is done when it ended by itself and cut off
when the rounds were used up. Both tell the state so far, so that what a loop does on
its way can be stated even where it never ends.
-/

namespace Loops

variable {σ τ : Type*}

inductive Outcome (σ : Type*) : Type _ where
  | done (s : σ)
  | cut (s : σ)

namespace Outcome

def state : Outcome σ → σ
  | .done s => s
  | .cut s => s

def andThen : Outcome σ → (σ → Outcome σ) → Outcome σ
  | .done s, f => f s
  | .cut s, _ => .cut s

/-- The outcome as a part of a larger state. -/
def map (f : σ → τ) : Outcome σ → Outcome τ
  | .done s => .done (f s)
  | .cut s => .cut (f s)

/-- The state at the end, if the loop is done. -/
def result : Outcome σ → Option σ
  | .done s => some s
  | .cut _ => none

theorem result_eq_some {o : Outcome σ} {s : σ} : o.result = some s ↔ o = .done s := by
  cases o <;> simp [result]

@[simp] theorem state_done (s : σ) : (done s).state = s := rfl

@[simp] theorem state_cut (s : σ) : (cut s).state = s := rfl

@[simp] theorem andThen_done (s : σ) (f : σ → Outcome σ) : (done s).andThen f = f s := rfl

@[simp] theorem map_done (f : σ → τ) (s : σ) : (done s).map f = .done (f s) := rfl

@[simp] theorem state_map (f : σ → τ) (o : Outcome σ) : (o.map f).state = f o.state := by
  cases o <;> rfl

theorem map_eq_done {f : σ → τ} {o : Outcome σ} {t : τ} :
    o.map f = .done t ↔ ∃ s, o = .done s ∧ f s = t := by
  cases o <;> simp [map]

theorem andThen_eq_done {o : Outcome σ} {f : σ → Outcome σ} {t : σ} :
    o.andThen f = .done t ↔ ∃ s, o = .done s ∧ f s = .done t := by
  cases o <;> simp [andThen]

/-- What holds of the state so far is kept by going on. -/
theorem andThen_keeps {I : σ → Prop} {o : Outcome σ} {f : σ → Outcome σ} (ho : I o.state)
    (hf : ∀ s, o = .done s → I s → I (f s).state) : I (o.andThen f).state := by
  cases o with
  | done s => exact hf s rfl ho
  | cut s => exact ho

end Outcome

open Outcome

/-- `while (cond) body`. -/
def whileDo (cond : σ → Bool) (body : σ → Outcome σ) : ℕ → σ → Outcome σ
  | 0, s => .cut s
  | n + 1, s => if cond s then (body s).andThen (whileDo cond body n) else .done s

/-- `do body while (cond)`. -/
def doWhile (body : σ → Outcome σ) (cond : σ → Bool) (n : ℕ) (s : σ) : Outcome σ :=
  (body s).andThen (whileDo cond body n)

variable {cond : σ → Bool} {body : σ → Outcome σ} {s t : σ} {I : σ → Prop}

/-- **Loop rule**: an invariant holds in every round, also of a loop that is cut off. -/
theorem whileDo_keeps (hbody : ∀ s, I s → cond s → I (body s).state) :
    ∀ (n : ℕ) (s : σ), I s → I (whileDo cond body n s).state := by
  intro n
  induction n with
  | zero => exact fun s hs => hs
  | succ n ih =>
      intro s hs
      rw [whileDo]
      split
      · rename_i hcond
        exact andThen_keeps (hbody s hs hcond) fun t _ ht => ih t ht
      · exact hs

theorem doWhile_keeps (hbody : ∀ s, I s → I (body s).state) (n : ℕ) (hs : I s) :
    I (doWhile body cond n s).state :=
  andThen_keeps (hbody s hs) fun t _ ht => whileDo_keeps (fun s hs _ => hbody s hs) n t ht

/-- A loop whose body is a function ends after the first number of rounds at which the
condition fails. -/
theorem whileDo_function (f : σ → σ) : ∀ {n : ℕ} {s t : σ},
    whileDo cond (fun s => .done (f s)) n s = .done t ↔
      ∃ m < n, t = f^[m] s ∧ (∀ j < m, cond (f^[j] s)) ∧ cond (f^[m] s) = false := by
  intro n
  induction n with
  | zero => simp [whileDo]
  | succ n ih =>
      intro s t
      rw [whileDo]
      split
      · rename_i hcond
        rw [andThen_done, ih]
        constructor
        · rintro ⟨m, hm, rfl, hall, hend⟩
          refine ⟨m + 1, by omega, rfl, fun j hj => ?_, hend⟩
          cases j with
          | zero => exact hcond
          | succ j => exact hall j (by omega)
        · rintro ⟨m, hm, rfl, hall, hend⟩
          cases m with
          | zero => exact absurd (hcond.symm.trans hend) (by simp)
          | succ m => exact ⟨m, by omega, rfl, fun j hj => hall (j + 1) (by omega), hend⟩
      · rename_i hcond
        constructor
        · intro h
          cases h
          exact ⟨0, by omega, rfl, by simp, by simpa using hcond⟩
        · rintro ⟨m, -, rfl, hall, -⟩
          cases m with
          | zero => rfl
          | succ m => exact absurd (hall 0 (by omega)) hcond

/-- It ends where the condition fails after some number of rounds. -/
theorem whileDo_function_ends (f : σ → σ) : ∀ {k : ℕ} {s : σ}, cond (f^[k] s) = false →
    ∃ t, whileDo cond (fun s => .done (f s)) (k + 1) s = .done t := by
  intro k
  induction k with
  | zero =>
      intro s h
      have hstop : cond s = false := h
      exact ⟨s, by rw [whileDo, if_neg (by simp [hstop])]⟩
  | succ k ih =>
      intro s h
      rw [whileDo]
      split
      · exact ih h
      · exact ⟨s, rfl⟩

/-- It is cut off where the condition holds in every round. -/
theorem whileDo_function_cut (f : σ → σ) : ∀ {n : ℕ} {s : σ}, (∀ j < n, cond (f^[j] s)) →
    whileDo cond (fun s => .done (f s)) n s = .cut (f^[n] s) := by
  intro n
  induction n with
  | zero => exact fun _ => rfl
  | succ n ih =>
      intro s h
      have hfirst : cond s = true := h 0 (by omega)
      rw [whileDo, if_pos hfirst]
      exact ih fun j hj => h (j + 1) (by omega)

/-- Done or cut off, it went through rounds in which the condition held. -/
theorem whileDo_function_state (f : σ → σ) : ∀ (n : ℕ) (s : σ), ∃ m,
    (whileDo cond (fun s => .done (f s)) n s).state = f^[m] s ∧ ∀ j < m, cond (f^[j] s) := by
  intro n
  induction n with
  | zero => exact fun s => ⟨0, rfl, by simp⟩
  | succ n ih =>
      intro s
      rw [whileDo]
      split
      · rename_i hcond
        obtain ⟨m, hm, hall⟩ := ih (f s)
        refine ⟨m + 1, hm, fun j hj => ?_⟩
        cases j with
        | zero => exact hcond
        | succ j => exact hall j (by omega)
      · exact ⟨0, rfl, by simp⟩

/-! ## Loops over a list -/

variable {α : Type*} {f : α → σ → Outcome σ} {P : α → σ → Prop}

/-- `for (i = 0; i < n; i++) f(items[i])`. -/
def forEach (f : α → σ → Outcome σ) : List α → σ → Outcome σ
  | [], s => .done s
  | a :: items, s => (f a s).andThen (forEach f items)

/-- `P` holds of every item in the state that the loop has when it comes to it. -/
def Along (f : α → σ → Outcome σ) (P : α → σ → Prop) : List α → σ → Prop
  | [], _ => True
  | a :: items, s => P a s ∧ ∀ t, f a s = .done t → Along f P items t

theorem forEach_keeps (hf : ∀ a s, I s → P a s → I (f a s).state) :
    ∀ (items : List α) (s : σ), Along f P items s → I s → I (forEach f items s).state := by
  intro items
  induction items with
  | nil => exact fun s _ hs => hs
  | cons a items ih =>
      rintro s ⟨ha, hrest⟩ hs
      exact andThen_keeps (hf a s hs ha) fun t hdone ht => ih t (hrest t hdone) ht

theorem along_of_forall (h : ∀ a s, P a s) : ∀ (items : List α) (s : σ), Along f P items s := by
  intro items
  induction items with
  | nil => exact fun _ => trivial
  | cons a items ih => exact fun s => ⟨h a s, fun t _ => ih t⟩

end Loops
