import BareKernel.Lib.ByteStrings
import BareKernel.Lib.Numerals

/-!
# Numbers as text

`uintToBase`, of which the kernel (`fonts.c`) and the library (`stdio.c`) have a copy each. Both
pass it a buffer of 64 bytes, which is at address 0. A number of 64 binary digits leaves no room
for the terminator there.
-/

namespace BareKernel.Text

open ByteMemory ByteStrings Numerals

/-- The two buffers. -/
def bufferSize : ℕ := 64

/-- The loop that divides, with the number of rounds it may take. It is left with the place behind
the last digit. -/
def putDigits (base : UInt64) : ℕ → UInt64 → ℕ → Mem → Except Fault (ℕ × Mem)
  | 0, _, _, _ => .error .endless
  | rounds + 1, value, p, m => do
      let remainder := value % base
      let m ← store bufferSize m p (if remainder < 10 then (remainder + 48).toUInt8
        else (remainder + 65 - 10).toUInt8)
      let value := value / base
      if value = 0 then .ok (p + 1, m) else putDigits base rounds value (p + 1) m

/-- The loop that swaps the ends. -/
def swapEnds : ℕ → ℕ → ℕ → Mem → Except Fault Mem
  | 0, _, _, _ => .error .endless
  | rounds + 1, p1, p2, m =>
      if p1 < p2 then do
        let tmp := m p1
        let m' ← store bufferSize m p1 (m p2)
        let m' ← store bufferSize m' p2 tmp
        swapEnds rounds (p1 + 1) (p2 - 1) m'
      else .ok m

/-- No number has more than 64 digits, and a row of `p` bytes takes less than `p` swaps. -/
def uintToBase (value : UInt64) (m : Mem) (base : UInt32) : Except Fault (UInt32 × Mem) := do
  let (p, m) ← putDigits base.toUInt64 64 value 0 m
  let m ← store bufferSize m p 0
  let m ← swapEnds p 0 (p - 1) m
  .ok (UInt32.ofNat p, m)

/-! ## Digits -/

variable {value : UInt64} {base : UInt64} {m m' : Mem} {p p' : ℕ}

/-- The character that a round stores. -/
theorem digit_eq (hbase : base.toNat ≤ 16) (hpos : 1 < base.toNat) :
    (if value % base < 10 then (value % base + 48).toUInt8 else (value % base + 65 - 10).toUInt8) =
      digitChar (value.toNat % base.toNat) := by
  have hlt : value.toNat % base.toNat < base.toNat := Nat.mod_lt _ (by omega)
  have hmod : (value % base).toNat = value.toNat % base.toNat := UInt64.toNat_mod _ _
  have hcond : value % base < 10 ↔ value.toNat % base.toNat < 10 := by
    rw [UInt64.lt_iff_toNat_lt, hmod]
    rfl
  apply UInt8.toNat_inj.mp
  rw [digitChar_toNat (by omega)]
  by_cases hless : value.toNat % base.toNat < 10
  · rw [if_pos (hcond.mpr hless), if_pos hless, UInt64.toNat_toUInt8, UInt64.toNat_add, hmod]
    change (value.toNat % base.toNat + 48) % 2 ^ 64 % 2 ^ 8 = _
    omega
  · rw [if_neg (fun h => hless (hcond.mp h)), if_neg hless, UInt64.toNat_toUInt8,
      UInt64.toNat_sub, UInt64.toNat_add, hmod]
    change (2 ^ 64 - 10 + (value.toNat % base.toNat + 65) % 2 ^ 64) % 2 ^ 64 % 2 ^ 8 = _
    omega

/-- The digits are stored, the lowest first, if there is room for them. -/
theorem putDigits_spec (hbase : base.toNat ≤ 16) (hpos : 1 < base.toNat) :
    ∀ {rounds : ℕ} {value : UInt64} {p : ℕ} {m : Mem},
      (lowDigits base.toNat value.toNat).length ≤ rounds →
        p + (lowDigits base.toNat value.toNat).length ≤ bufferSize →
          ∃ m', putDigits base rounds value p m =
              .ok (p + (lowDigits base.toNat value.toNat).length, m') ∧
            Holds m' p ((lowDigits base.toNat value.toNat).map digitChar) ∧
              ∀ x, x < p ∨ p + (lowDigits base.toNat value.toNat).length ≤ x → m' x = m x := by
  intro rounds
  induction rounds with
  | zero =>
      intro value p m hrounds _
      exact absurd hrounds (by simp [lowDigits_ne_nil])
  | succ rounds ih =>
      intro value p m hrounds hroom
      have hdiv : (value / base).toNat = value.toNat / base.toNat := UInt64.toNat_div _ _
      have hzero : value / base = 0 ↔ value.toNat / base.toNat = 0 := by
        rw [← hdiv]
        exact UInt64.toNat_inj.symm
      rw [lowDigits_cons hpos] at hrounds hroom ⊢
      simp only [putDigits, List.length_cons, List.map_cons] at *
      rw [digit_eq hbase hpos, store_ok (by omega)]
      by_cases hlast : value.toNat / base.toNat = 0
      · simp only [hlast, if_true, hzero.mpr hlast] at *
        refine ⟨_, rfl, ⟨Function.update_self _ _ _, trivial⟩, fun x hx => ?_⟩
        exact Function.update_of_ne (by omega) _ _
      · simp only [if_neg hlast] at *
        rw [← hdiv] at *
        have hnext : p + 1 + (lowDigits base.toNat (value / base).toNat).length ≤ bufferSize := by
          omega
        obtain ⟨m', hrun, hholds, hkept⟩ := ih (m := Function.update m p
          (digitChar (value.toNat % base.toNat))) (Nat.le_of_succ_le_succ hrounds) hnext
        refine ⟨m', ?_, ⟨?_, hholds⟩, fun x hx => ?_⟩
        · change (if value / base = 0 then _ else _) = _
          rw [if_neg (fun h => hlast (hdiv ▸ hzero.mp h)), hrun]
          congr 2
          omega
        · rw [hkept p (.inl (Nat.lt_succ_self p)), Function.update_self]
        · rw [hkept x (by omega), Function.update_of_ne (by omega)]

/-! ## The reversal -/

/-- The bytes between `p1` and `p2` change places. -/
theorem swapEnds_spec : ∀ {rounds p1 p2 : ℕ} {m : Mem}, p2 < bufferSize → p2 + 2 ≤ p1 + 2 * rounds →
    0 < rounds → ∃ m', swapEnds rounds p1 p2 m = .ok m' ∧
      (∀ x, p1 ≤ x → x ≤ p2 → m' x = m (p1 + p2 - x)) ∧ ∀ x, x < p1 ∨ p2 < x → m' x = m x := by
  intro rounds
  induction rounds with
  | zero => exact fun _ _ hpos => absurd hpos (lt_irrefl 0)
  | succ rounds ih =>
      intro p1 p2 m hlt hrounds _
      unfold swapEnds
      by_cases hless : p1 < p2
      · rw [if_pos hless]
        dsimp only
        rw [store_ok (by omega)]
        change ∃ m', ((store bufferSize (Function.update m p1 (m p2)) p2 (m p1)).bind fun m' =>
          swapEnds rounds (p1 + 1) (p2 - 1) m') = .ok m' ∧ _
        rw [store_ok hlt]
        by_cases hinner : rounds = 0
        · subst hinner
          omega
        obtain ⟨m', hrun, hswapped, hkept⟩ := ih
          (m := Function.update (Function.update m p1 (m p2)) p2 (m p1))
          (show p2 - 1 < bufferSize by omega) (show p2 - 1 + 2 ≤ p1 + 1 + 2 * rounds by omega)
          (Nat.pos_of_ne_zero hinner)
        refine ⟨m', hrun, fun x hlow hhigh => ?_, fun x hx => ?_⟩
        · rcases Nat.eq_or_lt_of_le hlow with rfl | hlow
          · -- the first byte comes from the other end
            rw [hkept p1 (.inl (Nat.lt_succ_self p1)), Function.update_of_ne (by omega),
              Function.update_self]
            congr 1
            omega
          · rcases Nat.eq_or_lt_of_le hhigh with rfl | hhigh
            · rw [hkept x (.inr (by omega)), Function.update_self]
              congr 1
              omega
            · rw [hswapped x hlow (by omega), Function.update_of_ne (by omega),
                Function.update_of_ne (by omega)]
              congr 1
              omega
        · rw [hkept x (by omega), Function.update_of_ne (by omega),
            Function.update_of_ne (by omega)]
      · rw [if_neg hless]
        refine ⟨m, rfl, fun x hlow hhigh => ?_, fun _ _ => rfl⟩
        congr 1
        omega

/-- A row of bytes is reversed in its place. -/
theorem swapEnds_reverse {s : List UInt8} (hs : Holds m 0 s) (hne : s ≠ [])
    (hroom : s.length ≤ bufferSize) : ∃ m', swapEnds s.length 0 (s.length - 1) m = .ok m' ∧
      Holds m' 0 s.reverse ∧ ∀ x, s.length ≤ x → m' x = m x := by
  have hpos : 0 < s.length := List.length_pos_iff.mpr hne
  obtain ⟨m', hrun, hswapped, hkept⟩ := swapEnds_spec (m := m)
    (show s.length - 1 < bufferSize by omega)
      (show s.length - 1 + 2 ≤ 0 + 2 * s.length by omega) hpos
  refine ⟨m', hrun, holds_of_getElem fun i hi => ?_, fun x hx => hkept x (.inr (by omega))⟩
  rw [List.length_reverse] at hi
  have hread := holds_getElem hs (s.length - 1 - i) (by omega)
  rw [List.getElem_reverse, ← hread, hswapped (0 + i) (by omega) (by omega)]
  congr 1
  omega

/-! ## The whole function -/

variable {b : UInt32}

/-- The buffer holds the numeral and its terminator, the number of digits is returned, and nothing
else is written. -/
structure Written (value : UInt64) (b : UInt32) (m : Mem) (digits : UInt32) (m' : Mem) : Prop where
  text : Holds m' 0 (numeral b.toNat value.toNat ++ [0])
  count : digits.toNat = (numeral b.toNat value.toNat).length
  kept : ∀ x, (numeral b.toNat value.toNat).length < x → m' x = m x

theorem length_digits (value : UInt64) (hpos : 1 < b.toNat) :
    (lowDigits b.toNat value.toNat).length ≤ 64 := by
  refine (length_lowDigits_le hpos (by decide)).mpr (lt_of_lt_of_le (UInt64.toNat_lt value) ?_)
  exact Nat.pow_le_pow_left hpos 64

/-- **With room for the terminator** the number is written. -/
theorem uintToBase_writes (m : Mem) (hbase : b.toNat ≤ 16) (hpos : 1 < b.toNat)
    (hroom : (numeral b.toNat value.toNat).length < bufferSize) :
    ∃ digits m', uintToBase value m b = .ok (digits, m') ∧ Written value b m digits m' := by
  rw [length_numeral] at hroom
  have hsame : b.toUInt64.toNat = b.toNat := rfl
  obtain ⟨m₁, hdigits, hlow, hkept₁⟩ := putDigits_spec (p := 0) (m := m)
    (show b.toUInt64.toNat ≤ 16 from hbase) hpos (length_digits value hpos)
    (by rw [hsame]; omega)
  rw [hsame, Nat.zero_add] at hdigits hkept₁
  rw [hsame] at hlow
  generalize hn : (lowDigits b.toNat value.toNat).length = n at *
  have hlength : ((lowDigits b.toNat value.toNat).map digitChar).length = n := by
    rw [List.length_map, hn]
  have hended : Holds (Function.update m₁ n 0) 0 ((lowDigits b.toNat value.toNat).map digitChar) :=
    holds_congr (fun x _ hx => Function.update_of_ne (by omega) _ _) hlow
  obtain ⟨m₂, hswap, htext, hkept₂⟩ := swapEnds_reverse hended (by simp [lowDigits_ne_nil])
    (by omega)
  rw [hlength] at hswap hkept₂
  refine ⟨UInt32.ofNat n, m₂, ?_, ⟨holds_append.mpr ⟨htext, ?_, trivial⟩, ?_, fun x hx => ?_⟩⟩
  · unfold uintToBase
    rw [hdigits]
    change ((store bufferSize m₁ n 0).bind fun m => (swapEnds n 0 (n - 1) m).bind fun m =>
      Except.ok (UInt32.ofNat n, m)) = _
    rw [store_ok hroom]
    change ((swapEnds n 0 (n - 1) (Function.update m₁ n 0)).bind fun m =>
      Except.ok (UInt32.ofNat n, m)) = _
    rw [hswap]
    rfl
  · rw [length_numeral, hn, Nat.zero_add, hkept₂ n (le_refl n), Function.update_self]
  · rw [length_numeral, hn, UInt32.toNat_ofNat']
    exact Nat.mod_eq_of_lt (lt_trans hroom (by decide))
  · rw [length_numeral, hn] at hx
    rw [hkept₂ x (by omega), Function.update_of_ne (by omega), hkept₁ x (.inr (by omega))]

/-- With 64 digits the terminator is written behind the buffer. -/
theorem uintToBase_overflows (m : Mem) (hbase : b.toNat ≤ 16) (hpos : 1 < b.toNat)
    (hfull : bufferSize ≤ (numeral b.toNat value.toNat).length) :
    uintToBase value m b = .error .outside := by
  rw [length_numeral] at hfull
  have hn : (lowDigits b.toNat value.toNat).length = bufferSize :=
    le_antisymm (length_digits value hpos) hfull
  obtain ⟨m₁, hdigits, -, -⟩ := putDigits_spec (p := 0) (m := m)
    (show b.toUInt64.toNat ≤ 16 from hbase) hpos (length_digits value hpos)
    (by rw [Nat.zero_add]; exact hn.le)
  have hsame : (lowDigits b.toUInt64.toNat value.toNat).length = bufferSize := hn
  rw [hsame, Nat.zero_add] at hdigits
  unfold uintToBase
  rw [hdigits]
  rfl

/-- Only a number of 64 binary digits is too long. -/
theorem length_numeral_lt (value : UInt64) (hpos : 1 < b.toNat) :
    (numeral b.toNat value.toNat).length < bufferSize ↔ (b = 2 → value.toNat < 2 ^ 63) := by
  have hvalue := UInt64.toNat_lt value
  change _ < 63 + 1 ↔ _
  rw [length_numeral, Nat.lt_succ_iff, length_lowDigits_le hpos (by decide)]
  by_cases hb : b = 2
  · subst hb
    exact ⟨fun h _ => h, fun h => h rfl⟩
  · have hthree : 3 ≤ b.toNat := by
      have hne : b.toNat ≠ 2 := fun h => hb (UInt32.toNat_inj.mp h)
      omega
    refine iff_of_true (lt_of_lt_of_le hvalue ?_) fun h => absurd h hb
    exact le_trans (by norm_num : 2 ^ 64 ≤ 3 ^ 63) (Nat.pow_le_pow_left hthree 63)

/-- **`uintToBase` is exact** for every number and every base from 2 to 16, except for numbers of 64
binary digits, and writes nothing outside of the buffer then. -/
theorem uintToBase_exact (value : UInt64) (base : UInt32) (m : Mem) (hlow : 2 ≤ base.toNat)
    (hhigh : base.toNat ≤ 16) :
    (∃ digits m', uintToBase value m base = .ok (digits, m') ∧ Written value base m digits m') ↔
      (base = 2 → value.toNat < 2 ^ 63) := by
  rw [← length_numeral_lt value hlow]
  constructor
  · rintro ⟨digits, m', hrun, -⟩
    by_contra hfull
    rw [uintToBase_overflows m hhigh hlow (not_lt.mp hfull)] at hrun
    exact absurd hrun (by simp)
  · exact uintToBase_writes m hhigh hlow

theorem uintToBase_exact_hex : (∃ digits m', uintToBase 48879 (fun _ => 0) 16 = .ok (digits, m') ∧
    Written 48879 16 (fun _ => 0) digits m') :=
  (uintToBase_exact 48879 16 (fun _ => 0) (by decide) (by decide)).mpr fun h =>
    absurd h (by decide)

/-- `printBin(1 << 63)`. -/
theorem uintToBase_longest : ¬∃ digits m',
    uintToBase 9223372036854775808 (fun _ => 0) 2 = .ok (digits, m') ∧
      Written 9223372036854775808 2 (fun _ => 0) digits m' := by
  rintro ⟨digits, m', hrun, -⟩
  have hlong :
      ¬(numeral (2 : UInt32).toNat (9223372036854775808 : UInt64).toNat).length < bufferSize := by
    rw [length_numeral_lt _ (by decide)]
    exact fun hless => absurd (hless rfl) (by decide)
  rw [uintToBase_overflows _ (by decide) (by decide) (not_lt.mp hlong)] at hrun
  exact absurd hrun (by simp)

end BareKernel.Text
