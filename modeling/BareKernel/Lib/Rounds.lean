import Mathlib.Algebra.BigOperators.Group.List.Lemmas
import Mathlib.Algebra.Order.BigOperators.Group.List
import Mathlib.Algebra.Order.Ring.Int
import Mathlib.Tactic.Linarith
import Mathlib.Tactic.Ring

/-!
# Processes that repeat a list of operations

Each process goes through the operations of its body and starts again behind
the last one; in between processes come and stop. A weight on the operations is
summed over everything that was done. One operation adds its weight, whatever
the interleaving, and what holds between two weights in every beginning of a
body holds between the sums.
-/

namespace Rounds

variable {ι α : Type*} {body : ι → List α}

/-- The sum of the weights. -/
def weigh (w : α → ℤ) (ops : List α) : ℤ := (ops.map w).sum

/-- Where a process stands in its body. -/
structure Place (body : ι → List α) where
  role : ι
  pc : Fin (body role).length

namespace Place

/-- What it does next. -/
def op (x : Place body) : α := (body x.role).get x.pc

/-- What it did in this round. -/
def done (x : Place body) : List α := (body x.role).take x.pc

/-- The place behind the operation. -/
def next (x : Place body) : Place body :=
  if h : x.pc.val + 1 < (body x.role).length then ⟨x.role, ⟨x.pc.val + 1, h⟩⟩
  else ⟨x.role, ⟨0, by have := x.pc.isLt; omega⟩⟩

/-- The round that ends with the operation, if it is the last one. -/
def ends (x : Place body) : List ι :=
  if x.pc.val + 1 < (body x.role).length then [] else [x.role]

@[simp] theorem next_role (x : Place body) : x.next.role = x.role := by
  unfold next
  split <;> rfl

/-- The operation is weighed in the place behind it, or with the whole round. -/
theorem weigh_next (w : α → ℤ) (x : Place body) :
    weigh w x.next.done + (x.ends.map fun i => weigh w (body i)).sum =
      weigh w x.done + w x.op := by
  have htake : weigh w ((body x.role).take (x.pc.val + 1)) = weigh w x.done + w x.op := by
    unfold weigh done op
    rw [List.take_add_one, List.getElem?_eq_getElem x.pc.isLt, List.map_append, List.sum_append]
    simp
  unfold next ends
  split
  · rw [← htake]
    simp [done]
  · rename_i hlast
    have hall : (body x.role).take (x.pc.val + 1) = body x.role := List.take_of_length_le (by omega)
    rw [← htake, hall]
    simp [done, weigh]

end Place

/-- The processes that go on, where the others were stopped, and the rounds
that came to their end. -/
structure History (body : ι → List α) where
  active : List (Place body)
  stopped : List (Place body)
  ended : List ι

namespace History

variable {H : History body} {x : Place body} {before after : List (Place body)} {w w' : α → ℤ}

/-- The weight of everything that was done. -/
def total (H : History body) (w : α → ℤ) : ℤ :=
  (H.active.map fun x => weigh w x.done).sum + (H.stopped.map fun x => weigh w x.done).sum +
    (H.ended.map fun i => weigh w (body i)).sum

/-- A process comes. -/
theorem total_start (hx : x.pc.val = 0) :
    total { H with active := H.active ++ [x] } w = H.total w := by
  have hnone : weigh w x.done = 0 := by simp [weigh, Place.done, hx]
  simp [total, hnone]

/-- A process is stopped. -/
theorem total_stop (h : H.active = before ++ x :: after) :
    total { H with active := before ++ after, stopped := x :: H.stopped } w = H.total w := by
  simp only [total, h, List.map_append, List.map_cons, List.sum_append, List.sum_cons]
  ring

/-- **One operation adds its weight.** -/
theorem total_next (h : H.active = before ++ x :: after) :
    total { H with active := before ++ x.next :: after, ended := x.ends ++ H.ended } w =
      H.total w + w x.op := by
  have hone := x.weigh_next w
  simp only [total, h, List.map_append, List.map_cons, List.sum_append, List.sum_cons]
  linarith

theorem total_add : H.total (fun a => w a + w' a) = H.total w + H.total w' := by
  have hweigh : ∀ ops : List α, weigh (fun a => w a + w' a) ops = weigh w ops + weigh w' ops :=
    fun ops => List.sum_map_add
  simp only [total, hweigh, List.sum_map_add]
  ring

/-- **An inequality** that holds in every beginning of a body. -/
theorem total_le (hle : ∀ i n, weigh w ((body i).take n) ≤ weigh w' ((body i).take n)) :
    H.total w ≤ H.total w' := by
  have hplace : ∀ x : Place body, weigh w x.done ≤ weigh w' x.done := fun x => hle x.role x.pc
  have hround : ∀ i, weigh w (body i) ≤ weigh w' (body i) := by
    intro i
    have := hle i (body i).length
    rwa [List.take_length] at this
  exact add_le_add (add_le_add (List.sum_le_sum fun x _ => hplace x)
    (List.sum_le_sum fun x _ => hplace x)) (List.sum_le_sum fun i _ => hround i)

/-- A process at which the inequality is strict makes it strict. -/
theorem total_lt (hle : ∀ i n, weigh w ((body i).take n) ≤ weigh w' ((body i).take n))
    (hx : x ∈ H.active) (hlt : weigh w x.done < weigh w' x.done) : H.total w < H.total w' := by
  obtain ⟨before, after, hactive⟩ := List.append_of_mem hx
  let rest : History body := { H with active := before ++ after }
  have hsplit : ∀ v : α → ℤ, H.total v = rest.total v + weigh v x.done := by
    intro v
    simp only [total, rest, hactive, List.map_append, List.map_cons, List.sum_append,
      List.sum_cons]
    ring
  have hrest : rest.total w ≤ rest.total w' := total_le hle
  rw [hsplit, hsplit]
  linarith

end History

end Rounds
