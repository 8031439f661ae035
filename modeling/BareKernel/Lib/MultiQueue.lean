import Mathlib.Algebra.BigOperators.Group.List.Basic
import Mathlib.Algebra.GroupWithZero.Nat
import Mathlib.Data.List.Count
import Mathlib.Logic.Function.Basic
import Mathlib.Tactic.Common

/-!
# Families of queues

A family of FIFO queues over a finite list of levels, looked at as one multiset:
`entries` counts how often an element stands in the queues of the levels. What
one queue operation does to a queue, it does to the count.
-/

namespace MultiQueue

variable {ι α : Type*} [DecidableEq α]

/-- How often `a` stands in the queues of the levels. -/
def entries (levels : List ι) (q : ι → List α) (a : α) : ℕ :=
  (levels.map fun i => (q i).count a).sum

variable {levels : List ι} {q : ι → List α} {i : ι} {a b : α} {l rest : List α}

theorem count_le_entries : ∀ {levels : List ι}, i ∈ levels → (q i).count a ≤ entries levels q a
  | j :: levels, hi => by
      have hcons : entries (j :: levels) q a = (q j).count a + entries levels q a := by
        simp [entries]
      rcases List.mem_cons.mp hi with rfl | hi
      · omega
      · have := count_le_entries hi
        omega

theorem entries_eq_zero : entries levels q a = 0 ↔ ∀ i ∈ levels, a ∉ q i := by
  constructor
  · intro h i hi
    have := count_le_entries (q := q) (a := a) hi
    exact List.count_eq_zero.mp (by omega)
  · intro h
    refine List.sum_eq_zero fun n hn => ?_
    obtain ⟨i, hi, rfl⟩ := List.mem_map.mp hn
    exact List.count_eq_zero.mpr (h i hi)

theorem entries_pos : 0 < entries levels q a ↔ ∃ i ∈ levels, a ∈ q i := by
  rw [Nat.pos_iff_ne_zero, Ne, entries_eq_zero]
  push Not
  rfl

/-- Queues that lose elements lose entries. -/
theorem entries_mono {q' : ι → List α} (h : ∀ i ∈ levels, (q' i).Sublist (q i)) :
    entries levels q' a ≤ entries levels q a := by
  unfold entries
  induction levels with
  | nil => exact Nat.le_refl _
  | cons i levels ih =>
      have hrest := ih fun j hj => h j (List.mem_cons_of_mem _ hj)
      have hfirst := (h i List.mem_cons_self).count_le a
      rw [List.map_cons, List.map_cons, List.sum_cons, List.sum_cons]
      exact Nat.add_le_add hfirst hrest

/-- Whoever stays in a queue only moves to the front. -/
theorem idxOf_le_of_sublist {l l' : List α} (h : l.Sublist l') (hnd : l'.Nodup) (ha : a ∈ l) :
    l.idxOf a ≤ l'.idxOf a := by
  induction h with
  | slnil => exact Nat.le_refl _
  | @cons l l' b hsub ih =>
      obtain ⟨hb, hnd'⟩ := List.nodup_cons.mp hnd
      have hne : b ≠ a := by
        rintro rfl
        exact hb (hsub.subset ha)
      rw [List.idxOf_cons_ne l' hne]
      exact Nat.le_succ_of_le (ih hnd' ha)
  | @cons_cons l l' b hsub ih =>
      by_cases hba : b = a
      · rw [List.idxOf_cons_eq l hba]
        exact Nat.zero_le _
      · have ha' : a ∈ l := (List.mem_cons.mp ha).resolve_left (Ne.symm hba)
        rw [List.idxOf_cons_ne l hba, List.idxOf_cons_ne l' hba]
        exact Nat.succ_le_succ (ih (List.nodup_cons.mp hnd).2 ha')

variable [DecidableEq ι]

/-- A queue at no level does not count. -/
theorem entries_update_of_notMem (hi : i ∉ levels) :
    entries levels (Function.update q i l) a = entries levels q a := by
  unfold entries
  congr 1
  refine List.map_congr_left fun j hj => ?_
  rw [Function.update_of_ne]
  rintro rfl
  exact hi hj

/-- **Replacing one queue** changes the count by the difference of the two. -/
theorem entries_update : ∀ {levels : List ι}, levels.Nodup → i ∈ levels →
    entries levels (Function.update q i l) a + (q i).count a =
      entries levels q a + l.count a
  | j :: levels, hnd, hi => by
      obtain ⟨hj, hnd⟩ := List.nodup_cons.mp hnd
      have hcons : ∀ p : ι → List α,
          entries (j :: levels) p a = (p j).count a + entries levels p a := fun p => by
        simp [entries]
      rw [hcons, hcons]
      by_cases hij : i = j
      · subst hij
        rw [Function.update_self, entries_update_of_notMem hj]
        omega
      · have hrest := entries_update hnd ((List.mem_cons.mp hi).resolve_left hij)
        rw [Function.update_of_ne (Ne.symm hij)]
        omega

/-- Appending counts one more. -/
theorem entries_push (hnd : levels.Nodup) (hi : i ∈ levels) :
    entries levels (Function.update q i (q i ++ [b])) a =
      entries levels q a + if a = b then 1 else 0 := by
  have h := entries_update (q := q) (l := q i ++ [b]) (a := a) hnd hi
  rw [List.count_append, List.count_singleton'] at h
  simp only [eq_comm (a := b)] at h
  omega

/-- Taking the first element off counts one less. -/
theorem entries_pop (hnd : levels.Nodup) (hi : i ∈ levels) (hq : q i = b :: rest) :
    entries levels (Function.update q i rest) a + (if a = b then 1 else 0) =
      entries levels q a := by
  have h := entries_update (q := q) (l := rest) (a := a) hnd hi
  rw [hq, List.count_cons] at h
  simp only [beq_iff_eq, eq_comm (a := b)] at h
  omega

/-- Removing one entry of `b` from every queue leaves the other elements. -/
theorem entries_erase_of_ne (hab : a ≠ b) :
    entries levels (fun i => if i ∈ levels then (q i).erase b else q i) a =
      entries levels q a := by
  unfold entries
  congr 1
  refine List.map_congr_left fun i hi => ?_
  dsimp only
  rw [if_pos hi, List.count_erase_of_ne hab]

/-- Removing one entry from every queue removes all, if there was at most one. -/
theorem entries_erase_self (hone : entries levels q a ≤ 1) :
    entries levels (fun i => if i ∈ levels then (q i).erase a else q i) a = 0 := by
  rw [entries_eq_zero]
  intro i hi
  have hle : (q i).count a ≤ entries levels q a := count_le_entries hi
  rw [if_pos hi, ← List.count_eq_zero, List.count_erase_self]
  omega

end MultiQueue
