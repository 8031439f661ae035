import Mathlib.Algebra.Order.Ring.Nat
import Mathlib.Data.Nat.Log
import Mathlib.Tactic.Common
import Mathlib.Tactic.Ring

/-!
# Implicit binary trees and powers of two

A binary tree laid out in an array: the children of index `i` are `2 i + 1`
and `2 i + 2`. The subtrees of two siblings share no index, so a function that
stays in one of them frames the other. The last section is the bit-smearing
computation of the largest power of two below a number.
-/

namespace ImplicitTree

/-- `n` is `i` or a descendant of `i`. -/
def Below (i n : ℕ) : Prop := ∃ j, (n + 1) / 2 ^ j = i + 1

theorem below_self (i : ℕ) : Below i i := ⟨0, by simp⟩

theorem Below.trans {i n m : ℕ} (h : Below i n) (h' : Below n m) : Below i m := by
  obtain ⟨j, hj⟩ := h
  obtain ⟨k, hk⟩ := h'
  exact ⟨k + j, by rw [pow_add, ← Nat.div_div_eq_div_mul, hk, hj]⟩

theorem Below.le {i n : ℕ} (h : Below i n) : i ≤ n := by
  obtain ⟨j, hj⟩ := h
  have := Nat.div_le_self (n + 1) (2 ^ j)
  omega

theorem below_left {i n : ℕ} (h : Below (2 * i + 1) n) : Below i n := by
  obtain ⟨j, hj⟩ := h
  refine ⟨j + 1, ?_⟩
  rw [pow_succ, ← Nat.div_div_eq_div_mul, hj]
  omega

theorem below_right {i n : ℕ} (h : Below (2 * i + 2) n) : Below i n := by
  obtain ⟨j, hj⟩ := h
  refine ⟨j + 1, ?_⟩
  rw [pow_succ, ← Nat.div_div_eq_div_mul, hj]
  omega

/-- A shift that is longer ends at an ancestor that is at most half. -/
theorem div_pow_le_half {m j k : ℕ} (hjk : j < k) : m / 2 ^ k ≤ m / 2 ^ j / 2 := by
  rw [Nat.div_div_eq_div_mul, ← pow_succ]
  exact Nat.div_le_div_left (Nat.pow_le_pow_right (by norm_num) hjk) (Nat.two_pow_pos _)

theorem not_below_right {i n : ℕ} (h : Below (2 * i + 1) n) : ¬Below (2 * i + 2) n := by
  obtain ⟨j, hj⟩ := h
  rintro ⟨k, hk⟩
  rcases Nat.lt_trichotomy j k with hjk | rfl | hjk
  · have := div_pow_le_half (m := n + 1) hjk
    omega
  · omega
  · have := div_pow_le_half (m := n + 1) hjk
    omega

theorem not_below_left_self (i : ℕ) : ¬Below (2 * i + 1) i := by
  intro h
  have := h.le
  omega

theorem not_below_right_self (i : ℕ) : ¬Below (2 * i + 2) i := by
  intro h
  have := h.le
  omega

/-- Every index is the root or below it. -/
theorem below_zero (n : ℕ) : Below 0 n := by
  refine ⟨Nat.log 2 (n + 1), Nat.div_eq_of_lt_le ?_ ?_⟩
  · rw [Nat.one_mul]
    exact Nat.pow_log_le_self 2 (by omega)
  · rw [← pow_succ']
    exact Nat.lt_pow_succ_log_self (by norm_num) _

/-- Below an index is the index itself, the left subtree and the right one. -/
theorem below_cases {i n : ℕ} (h : Below i n) :
    n = i ∨ Below (2 * i + 1) n ∨ Below (2 * i + 2) n := by
  obtain ⟨j, hj⟩ := h
  cases j with
  | zero => exact Or.inl (by simpa using hj)
  | succ j =>
      rw [pow_succ, ← Nat.div_div_eq_div_mul] at hj
      rcases Nat.mod_two_eq_zero_or_one ((n + 1) / 2 ^ j) with hmod | hmod
      · exact Or.inr (Or.inl ⟨j, by omega⟩)
      · exact Or.inr (Or.inr ⟨j, by omega⟩)

/-! ## Levels -/

/-- The index of position `p` at depth `d`. -/
def node (d p : ℕ) : ℕ := 2 ^ d - 1 + p

theorem node_left (d p : ℕ) : 2 * node d p + 1 = node (d + 1) (2 * p) := by
  have := Nat.two_pow_pos d
  unfold node
  rw [pow_succ]
  omega

theorem node_right (d p : ℕ) : 2 * node d p + 2 = node (d + 1) (2 * p + 1) := by
  have := Nat.two_pow_pos d
  unfold node
  rw [pow_succ]
  omega

theorem node_lt {d p D : ℕ} (hp : p < 2 ^ d) (hd : d ≤ D) : node d p < 2 ^ (D + 1) - 1 := by
  have := Nat.two_pow_pos d
  have hle : 2 ^ (d + 1) ≤ 2 ^ (D + 1) := Nat.pow_le_pow_right (by norm_num) (by omega)
  rw [pow_succ] at hle
  unfold node
  omega

/-- An index has one depth and one position. -/
theorem node_inj {d p d' p' : ℕ} (hp : p < 2 ^ d) (hp' : p' < 2 ^ d')
    (h : node d p = node d' p') : d = d' ∧ p = p' := by
  have hpos := Nat.two_pow_pos d
  have hpos' := Nat.two_pow_pos d'
  unfold node at h
  have hd : d = d' := by
    rcases Nat.lt_trichotomy d d' with hlt | heq | hlt
    · have := Nat.pow_le_pow_right (n := 2) (by norm_num) (Nat.succ_le_of_lt hlt)
      rw [pow_succ] at this
      omega
    · exact heq
    · have := Nat.pow_le_pow_right (n := 2) (by norm_num) (Nat.succ_le_of_lt hlt)
      rw [pow_succ] at this
      omega
  subst hd
  exact ⟨rfl, by omega⟩

/-! ## The largest power of two below a number -/

/-- One smearing step doubles the distance over which set bits spread down. -/
theorem testBit_smear {x y k : ℕ}
    (h : ∀ i, y.testBit i = true ↔ ∃ d < k, x.testBit (i + d) = true) (i : ℕ) :
    (y ||| y >>> k).testBit i = true ↔ ∃ d < 2 * k, x.testBit (i + d) = true := by
  rw [Nat.testBit_or, Bool.or_eq_true, Nat.testBit_shiftRight, h, h]
  constructor
  · rintro (⟨d, hd, hx⟩ | ⟨d, hd, hx⟩)
    · exact ⟨d, by omega, hx⟩
    · exact ⟨k + d, by omega, by rwa [show i + (k + d) = k + i + d by omega]⟩
  · rintro ⟨d, hd, hx⟩
    by_cases hdk : d < k
    · exact Or.inl ⟨d, hdk, hx⟩
    · exact Or.inr ⟨d - k, by omega, by rwa [show k + i + (d - k) = i + d by omega]⟩

/-- A number whose bits are those of `x` spread down over 32 places is all
ones up to the top bit of `x`. -/
theorem eq_of_smeared {x y : ℕ} (hx : x ≠ 0) (hlt : x < 2 ^ 32)
    (h : ∀ i, y.testBit i = true ↔ ∃ d < 32, x.testBit (i + d) = true) :
    y = 2 ^ (Nat.log 2 x + 1) - 1 := by
  have hlog : Nat.log 2 x < 32 := Nat.log_lt_of_lt_pow hx hlt
  have htop : x.testBit (Nat.log 2 x) = true := by
    rw [← Nat.log2_eq_log_two]
    exact Nat.testBit_log2 hx
  apply Nat.eq_of_testBit_eq
  intro i
  rw [Nat.testBit_two_pow_sub_one, Bool.eq_iff_iff, h, decide_eq_true_eq]
  constructor
  · rintro ⟨d, -, hd⟩
    by_contra hi
    have hsmall : x < 2 ^ (i + d) :=
      lt_of_lt_of_le (Nat.lt_pow_succ_log_self (by norm_num) x)
        (Nat.pow_le_pow_right (by norm_num) (by omega))
    rw [Nat.testBit_lt_two_pow hsmall] at hd
    cases hd
  · intro hi
    exact ⟨Nat.log 2 x - i, by omega, by rwa [show i + (Nat.log 2 x - i) = Nat.log 2 x by omega]⟩

/-- **Rounding down**: smear the bits, then drop the lower half. -/
theorem smear_sub_half {x : ℕ} (hx : x ≠ 0) (hlt : x < 2 ^ 32) {y₁ y₂ y₃ y₄ y₅ : ℕ}
    (h₁ : y₁ = x ||| x >>> 1) (h₂ : y₂ = y₁ ||| y₁ >>> 2) (h₃ : y₃ = y₂ ||| y₂ >>> 4)
    (h₄ : y₄ = y₃ ||| y₃ >>> 8) (h₅ : y₅ = y₄ ||| y₄ >>> 16) :
    y₅ - y₅ >>> 1 = 2 ^ Nat.log 2 x := by
  have h₀ : ∀ i, x.testBit i = true ↔ ∃ d < 1, x.testBit (i + d) = true := by simp
  have hsmear := eq_of_smeared (y := y₅) hx hlt
    (h₅ ▸ testBit_smear (h₄ ▸ testBit_smear (h₃ ▸ testBit_smear (h₂ ▸ testBit_smear
      (h₁ ▸ testBit_smear h₀)))))
  rw [hsmear, Nat.shiftRight_eq_div_pow, pow_succ]
  have := Nat.two_pow_pos (Nat.log 2 x)
  omega

end ImplicitTree
