import BareKernel.Lib.ByteMemory

/-!
# Rows of bytes in memory

What a stretch of memory holds, byte by byte, and stores that are checked against the size of the
buffer they go to. A string is held with its terminator.
-/

namespace ByteStrings

open ByteMemory

variable {m m' : Mem} {a x n size : ℕ} {b c : UInt8} {s t : List UInt8}

/-- What can go wrong in a loop over a buffer. -/
inductive Fault : Type where
  | outside
  | endless
deriving DecidableEq, Repr

/-- A store to a buffer that starts at address 0. -/
def store (size : ℕ) (m : Mem) (a : ℕ) (b : UInt8) : Except Fault Mem :=
  if a < size then .ok (Function.update m a b) else .error .outside

theorem store_ok (h : a < size) : store size m a b = .ok (Function.update m a b) := if_pos h

/-- The bytes from `a` on are `s`. -/
def Holds (m : Mem) : ℕ → List UInt8 → Prop
  | _, [] => True
  | a, b :: s => m a = b ∧ Holds m (a + 1) s

instance decidableHolds (m : Mem) : ∀ (a : ℕ) (s : List UInt8), Decidable (Holds m a s)
  | _, [] => .isTrue trivial
  | a, b :: s => @instDecidableAnd (m a = b) (Holds m (a + 1) s) _ (decidableHolds m (a + 1) s)

theorem holds_append : Holds m a (s ++ t) ↔ Holds m a s ∧ Holds m (a + s.length) t := by
  induction s generalizing a with
  | nil => simp [Holds]
  | cons b s ih =>
      rw [List.cons_append, Holds, Holds, ih, and_assoc, List.length_cons, Nat.add_assoc,
        Nat.add_comm 1]

theorem holds_congr (h : ∀ x, a ≤ x → x < a + s.length → m' x = m x) (hs : Holds m a s) :
    Holds m' a s := by
  induction s generalizing a with
  | nil => trivial
  | cons b s ih =>
      rw [List.length_cons] at h
      obtain ⟨hb, hrest⟩ := hs
      refine ⟨(h a (le_refl a) (by omega)).trans hb, ih (fun x hlow hhigh => ?_) hrest⟩
      exact h x (by omega) (by omega)

/-- What is held can be read back. -/
theorem holds_getElem (hs : Holds m a s) : ∀ i (hi : i < s.length), m (a + i) = s[i] := by
  induction s generalizing a with
  | nil => exact fun i hi => absurd hi (Nat.not_lt_zero i)
  | cons b s ih =>
      intro i hi
      cases i with
      | zero => exact hs.1
      | succ i =>
          have hread := ih hs.2 i (by simpa using hi)
          rw [List.getElem_cons_succ, ← hread]
          congr 1
          omega

theorem holds_of_getElem (h : ∀ i (hi : i < s.length), m (a + i) = s[i]) : Holds m a s := by
  induction s generalizing a with
  | nil => trivial
  | cons b s ih =>
      refine ⟨h 0 (Nat.succ_pos _), ih fun i hi => ?_⟩
      have hread := h (i + 1) (by simpa using hi)
      rw [List.getElem_cons_succ] at hread
      rw [← hread]
      congr 1
      omega

/-- A byte more. -/
theorem Holds.store (hs : Holds m a s) :
    Holds (Function.update m (a + s.length) b) a (s ++ [b]) := by
  refine holds_append.mpr ⟨holds_congr (fun x _ hx => ?_) hs, Function.update_self _ _ _, trivial⟩
  exact Function.update_of_ne (by omega) _ _

end ByteStrings
