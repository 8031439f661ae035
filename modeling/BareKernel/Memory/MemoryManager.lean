import BareKernel.Lib.ByteMemory
import Mathlib.Data.Nat.Bitwise

/-!
# The memory manager interface

What both heap managers share: pointers, the alignment macro, the status
record, and the interface through which the rest of the kernel uses whichever
of the two was linked in.
-/

namespace BareKernel

open ByteMemory

/-- Addresses are natural numbers: pointer sums stay inside the pool, so they
never wrap. -/
abbrev NULL : ℕ := 0

def alignment : UInt32 := 8

/-- `ALIGN(sz)`, in the 32-bit arithmetic of its operand. -/
def align (sz : UInt32) : UInt32 := (sz + (alignment - 1)) &&& ~~~(alignment - 1)

/-- The kernel's heap, as `kernel.c` creates it. -/
def memoryStart : ℕ := 0xF00000

def memorySize : UInt32 := (1 : UInt32) <<< (22 : UInt32)

structure MemoryStatus where
  total : UInt32
  used : UInt32
  free : UInt32
  base : ℕ
  «end» : ℕ
deriving DecidableEq, Repr

/-! ## What the macro computes -/

theorem and_mask_eq {n : ℕ} (hn : n < 2 ^ 32) : n &&& 4294967288 = n / 8 * 8 := by
  have hmask : 4294967288 = (2 ^ 29 - 1) <<< 3 := by decide
  have hcut : n / 8 * 8 = (n >>> 3) <<< 3 := by
    rw [Nat.shiftRight_eq_div_pow, Nat.shiftLeft_eq]
  rw [hmask, hcut]
  apply Nat.eq_of_testBit_eq
  intro i
  rw [Nat.testBit_and, Nat.testBit_shiftLeft, Nat.testBit_shiftLeft,
    Nat.testBit_two_pow_sub_one, Nat.testBit_shiftRight]
  by_cases hi : 3 ≤ i
  · simp only [hi, decide_true, Bool.true_and]
    by_cases hlt : i - 3 < 29
    · simp [hlt, Nat.add_sub_cancel' hi]
    · have hbig : 2 ^ 32 ≤ 2 ^ i := Nat.pow_le_pow_right (by norm_num) (by omega)
      rw [Nat.add_sub_cancel' hi, Nat.testBit_lt_two_pow (by omega)]
      simp
  · simp [hi]

/-- The sum may wrap; what is left is rounded down to a multiple of 8. -/
theorem align_toNat (sz : UInt32) : (align sz).toNat = (sz.toNat + 7) % 2 ^ 32 / 8 * 8 := by
  have hmask : (~~~(alignment - 1)).toNat = 4294967288 := by decide
  have hseven : (alignment - 1).toNat = 7 := by decide
  rw [align, UInt32.toNat_and, UInt32.toNat_add, hmask, hseven,
    and_mask_eq (Nat.mod_lt _ (by norm_num))]

/-- Sizes up to `2^32 - 8` are rounded up, never down. -/
theorem le_align {sz : UInt32} (h : sz.toNat ≤ 2 ^ 32 - 8) : sz.toNat ≤ (align sz).toNat := by
  rw [align_toNat, Nat.mod_eq_of_lt (by omega)]
  omega

end BareKernel
