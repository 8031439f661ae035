import Mathlib.Data.List.Range
import Mathlib.Logic.Function.Basic
import Mathlib.Tactic.Common

/-!
# A bounded queue in a ring

`capacity` cells are read from `start` on, modulo the capacity, and the queue is
what stands in the first `count` of them. Storing a value behind the last one
appends it to the queue, and reading the first one takes it off; no other value
of the queue changes.
-/

namespace RingBuffer

variable {α : Type*} {cells : ℕ → α} {capacity start count : ℕ}

/-- The values in the ring, in the order in which they are read. -/
def contents (cells : ℕ → α) (capacity start count : ℕ) : List α :=
  (List.range count).map fun i => cells ((start + i) % capacity)

@[simp] theorem contents_zero : contents cells capacity start 0 = [] := rfl

@[simp] theorem length_contents : (contents cells capacity start count).length = count := by
  simp [contents]

/-- Cells of the queue are different from the one behind it, as long as it is free. -/
theorem cell_ne {i : ℕ} (hi : i < count) (hcount : count < capacity) :
    (start + i) % capacity ≠ (start + count) % capacity := by
  intro heq
  have hdvd : capacity ∣ (start + count) - (start + i) :=
    Nat.dvd_of_mod_eq_zero (Nat.sub_mod_eq_zero_of_mod_eq heq.symm)
  have hzero : (start + count) - (start + i) = 0 := Nat.eq_zero_of_dvd_of_lt hdvd (by omega)
  omega

/-- **Storing appends** and overwrites nothing that is still to be read. -/
theorem contents_store (value : α) (hcount : count < capacity) :
    contents (Function.update cells ((start + count) % capacity) value) capacity start (count + 1) =
      contents cells capacity start count ++ [value] := by
  unfold contents
  rw [List.range_succ, List.map_append, List.map_singleton, Function.update_self]
  congr 1
  apply List.map_congr_left
  intro i hi
  rw [List.mem_range] at hi
  exact Function.update_of_ne (cell_ne hi hcount) _ _

/-- **Reading takes the first value off.** -/
theorem contents_read (hstart : start < capacity) : contents cells capacity start (count + 1) =
    cells start :: contents cells capacity ((start + 1) % capacity) count := by
  unfold contents
  rw [List.range_succ_eq_map, List.map_cons, List.map_map, Nat.add_zero, Nat.mod_eq_of_lt hstart]
  congr 1
  apply List.map_congr_left
  intro i _
  dsimp only [Function.comp]
  rw [Nat.mod_add_mod, Nat.succ_eq_add_one]
  congr 2
  omega

/-- **Taking the last value off.** -/
theorem contents_dropLast : contents cells capacity start count =
    (contents cells capacity start (count + 1)).dropLast := by
  unfold contents
  rw [List.range_succ, List.map_append, List.map_singleton, List.dropLast_concat]

/-- The cell behind the queue moves on with each value that is stored. -/
theorem next_store :
    ((start + count) % capacity + 1) % capacity = (start + (count + 1)) % capacity := by
  rw [Nat.mod_add_mod, Nat.add_assoc]

/-- It stays where it is when a value is read. -/
theorem next_read :
    (start + (count + 1)) % capacity = ((start + 1) % capacity + count) % capacity := by
  rw [Nat.mod_add_mod]
  congr 1
  omega

end RingBuffer
