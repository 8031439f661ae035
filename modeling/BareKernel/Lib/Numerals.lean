import Mathlib.Data.Nat.Digits.Lemmas
import Mathlib.Tactic.Common

/-!
# Numerals

The numeral of a number in a base: its digits as characters, the highest first, and `0` for zero.
Reading a numeral gives the number back, and its length is what the size of the number says.
-/

namespace Numerals

variable {b n k : ℕ}

/-- The digits, lowest first. Zero has one. -/
def lowDigits (b n : ℕ) : List ℕ := if n = 0 then [0] else Nat.digits b n

/-- `0` to `9`, then `A` and so on. -/
def digitChar (d : ℕ) : UInt8 := UInt8.ofNat (if d < 10 then d + 48 else d + 55)

def numeral (b n : ℕ) : List UInt8 := ((lowDigits b n).map digitChar).reverse

def charDigit (c : UInt8) : ℕ := if c.toNat < 58 then c.toNat - 48 else c.toNat - 55

/-- What a row of digits says. -/
def value (b : ℕ) (s : List UInt8) : ℕ := s.foldl (fun v c => v * b + charDigit c) 0

/-! ## Digits -/

/-- One division gives one digit. -/
theorem lowDigits_cons (hb : 1 < b) (n : ℕ) :
    lowDigits b n = n % b :: if n / b = 0 then [] else lowDigits b (n / b) := by
  unfold lowDigits
  by_cases hn : n = 0
  · subst hn
    simp
  · rw [if_neg hn, Nat.digits_eq_cons_digits_div hb hn]
    congr 1
    split
    · rename_i hdiv
      rw [hdiv, Nat.digits_zero]
    · rfl

theorem lowDigits_ne_nil (b n : ℕ) : lowDigits b n ≠ [] := by
  unfold lowDigits
  split
  · simp
  · rename_i hn
    exact Nat.digits_ne_nil_iff_ne_zero.mpr hn

theorem lowDigits_lt (hb : 1 < b) : ∀ d ∈ lowDigits b n, d < b := by
  intro d hd
  unfold lowDigits at hd
  split at hd
  · rw [List.mem_singleton.mp hd]
    omega
  · exact Nat.digits_lt_base hb hd

theorem ofDigits_lowDigits (b n : ℕ) : Nat.ofDigits b (lowDigits b n) = n := by
  unfold lowDigits
  split
  · rename_i hn
    rw [hn]
    simp
  · exact Nat.ofDigits_digits b n

/-- **The length of a numeral** is at most `k` if the number is below the `k`-th power of the
base. -/
theorem length_lowDigits_le (hb : 1 < b) (hk : 0 < k) : (lowDigits b n).length ≤ k ↔ n < b ^ k := by
  unfold lowDigits
  split
  · rename_i hn
    rw [hn]
    exact iff_of_true hk (Nat.pow_pos (by omega))
  · exact Nat.digits_length_le_iff hb n

theorem length_numeral (b n : ℕ) : (numeral b n).length = (lowDigits b n).length := by
  simp [numeral]

theorem numeral_ne_nil (b n : ℕ) : numeral b n ≠ [] := by
  simp [numeral, lowDigits_ne_nil]

/-! ## Characters -/

/-- A digit below 36 is a decimal digit or a capital letter. -/
theorem digitChar_toNat {d : ℕ} (hd : d < 36) :
    (digitChar d).toNat = if d < 10 then d + 48 else d + 55 := by
  unfold digitChar
  rw [UInt8.toNat_ofNat']
  split <;> omega

theorem charDigit_digitChar {d : ℕ} (hd : d < 36) : charDigit (digitChar d) = d := by
  unfold charDigit
  rw [digitChar_toNat hd]
  split <;> split <;> omega

theorem mem_numeral {c : UInt8} (hb : 1 < b) (hc : c ∈ numeral b n) : ∃ d < b, c = digitChar d := by
  obtain ⟨d, hd, rfl⟩ := List.mem_map.mp (List.mem_reverse.mp hc)
  exact ⟨d, lowDigits_lt hb d hd, rfl⟩

/-- A numeral is made of decimal digits and capital letters. -/
theorem numeral_bounds {c : UInt8} (hb : 1 < b) (hle : b ≤ 36) (hc : c ∈ numeral b n) :
    48 ≤ c.toNat ∧ c.toNat ≤ 90 := by
  obtain ⟨d, hd, rfl⟩ := mem_numeral hb hc
  rw [digitChar_toNat (by omega)]
  split <;> omega

/-- **No leading zero**, but for the numeral of zero. -/
theorem head_numeral (hle : b ≤ 36) (hb : 1 < b) (hn : n ≠ 0) :
    (numeral b n).head? ≠ some (digitChar 0) := by
  unfold numeral lowDigits
  rw [if_neg hn, List.head?_reverse, List.getLast?_map]
  have hne : Nat.digits b n ≠ [] := Nat.digits_ne_nil_iff_ne_zero.mpr hn
  rw [List.getLast?_eq_some_getLast hne, Option.map_some]
  intro heq
  have hlt : (Nat.digits b n).getLast hne < b := Nat.digits_lt_base hb (List.getLast_mem hne)
  have hzero := congrArg charDigit (Option.some.inj heq)
  rw [charDigit_digitChar (by omega), charDigit_digitChar (by omega)] at hzero
  exact Nat.getLast_digit_ne_zero b hn hzero

/-! ## Reading -/

theorem value_append (b : ℕ) (s : List UInt8) (c : UInt8) :
    value b (s ++ [c]) = value b s * b + charDigit c := by
  unfold value
  rw [List.foldl_append]
  rfl

theorem value_digits (hle : b ≤ 36) : ∀ ds : List ℕ, (∀ d ∈ ds, d < b) →
    value b (ds.map digitChar).reverse = Nat.ofDigits b ds := by
  intro ds
  induction ds with
  | nil => exact fun _ => rfl
  | cons d ds ih =>
      intro hds
      have hd : d < b := hds d List.mem_cons_self
      rw [List.map_cons, List.reverse_cons, value_append,
        ih fun e he => hds e (List.mem_cons_of_mem d he), charDigit_digitChar (by omega),
        Nat.ofDigits_cons]
      ring

/-- **Reading a numeral** gives the number. -/
theorem value_numeral (hb : 1 < b) (hle : b ≤ 36) (n : ℕ) : value b (numeral b n) = n :=
  (value_digits hle _ (lowDigits_lt hb)).trans (ofDigits_lowDigits b n)

end Numerals
