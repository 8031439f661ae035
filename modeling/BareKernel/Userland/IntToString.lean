import BareKernel.Lib.ByteStrings
import BareKernel.Lib.Numerals
import BareKernel.Userland.Memmove
import BareKernel.Userland.ProcessLists

/-!
# Numbers to strings and back

`int_to_string` of `Userland/libc/string.c` and what `satoi` reads from its result.
The number is negated as an `int`, and the quotients and remainders of what stays
negative are not the digits. The negation is that of the machine.
-/

namespace BareKernel.Text

open ByteMemory ByteStrings Numerals Shell

/-! ## The code -/

theorem toInt_div_ten (num : Int32) : (num / 10).toInt = num.toInt.tdiv 10 :=
  Int32.toInt_div_of_ne_right num 10 (by decide)

theorem natAbs_div_ten (num : Int32) : (num / 10).toInt.natAbs = num.toInt.natAbs / 10 := by
  rw [toInt_div_ten, Int.natAbs_tdiv]
  rfl

/-- Each round of the two loops makes the number smaller. -/
theorem natAbs_div_ten_lt {num : Int32} (h : num ≠ 0) :
    (num / 10).toInt.natAbs < num.toInt.natAbs := by
  have hne : num.toInt ≠ 0 := fun h0 => h (Int32.toInt_inj.mp (by rw [h0]; rfl))
  rw [natAbs_div_ten]
  omega

/-- `while (temp != 0)`. -/
def countDigits (temp digitCount : Int32) : Int32 :=
  if temp ≠ 0 then countDigits (temp / 10) (digitCount + 1) else digitCount
termination_by temp.toInt.natAbs
decreasing_by exact natAbs_div_ten_lt ‹_›

/-- `str[i] = c`. -/
def setChar (str : ℕ) (i : Int32) (c : UInt8) (m : Mem) : Mem :=
  Function.update m (str + i.toInt).toNat c

/-- `while (num != 0)`. -/
def fillDigits (str : ℕ) (num i : Int32) (m : Mem) : Mem :=
  if num ≠ 0 then
    fillDigits str (num / 10) (i - 1) (setChar str i (num % 10 + 48).toUInt32.toUInt8 m)
  else m
termination_by num.toInt.natAbs
decreasing_by exact natAbs_div_ten_lt ‹_›

def intToString (num : Int32) (str : ℕ) (m : Mem) : Int32 × Mem :=
  if num = 0 then (1, setChar str 1 0 (setChar str 0 48 m))
  else
    let isNegative := num < 0
    let num := if isNegative then -num else num
    let digitCount := countDigits num 0
    let m := if isNegative then setChar str 0 45 m else m
    let i : Int32 := if isNegative then 1 else 0
    let i := i + (digitCount - 1)
    let m := setChar str (i + 1) 0 m
    let m := fillDigits str num i m
    (digitCount + if isNegative then 1 else 0, m)

/-! ## The digits -/

/-- How many digits the loops go through. -/
def digitsOf (num : Int32) : ℕ := (Nat.digits 10 num.toInt.natAbs).length

theorem natAbs_pos {num : Int32} (h : num ≠ 0) : 0 < num.toInt.natAbs := by
  have hne : num.toInt ≠ 0 := fun h0 => h (Int32.toInt_inj.mp (by rw [h0]; rfl))
  omega

theorem digitsOf_succ {num : Int32} (h : num ≠ 0) : digitsOf num = digitsOf (num / 10) + 1 := by
  unfold digitsOf
  rw [natAbs_div_ten, Nat.digits_def' (by decide) (natAbs_pos h), List.length_cons]

theorem digitsOf_zero : digitsOf 0 = 0 := rfl

/-- No `int` has more than ten digits. -/
theorem digitsOf_le (num : Int32) : digitsOf num ≤ 10 := by
  unfold digitsOf
  rw [Nat.digits_length_le_iff (by decide)]
  have hmax := num.toInt_lt
  have hmin := num.le_toInt
  omega

theorem countDigits_eq (temp digitCount : Int32) :
    countDigits temp digitCount = digitCount + Int32.ofNat (digitsOf temp) := by
  induction temp, digitCount using countDigits.induct with
  | case1 temp digitCount hne ih =>
      rw [countDigits, if_pos hne, ih, digitsOf_succ hne, Int32.ofNat_add, Int32.add_assoc,
        Int32.add_comm 1]
      rfl
  | case2 temp digitCount hzero =>
      rw [not_not] at hzero
      rw [countDigits, if_neg (not_not.mpr hzero), hzero, digitsOf_zero]
      exact (Int32.add_zero _).symm

section Filling

variable {a p : ℕ} {num i : Int32} {m : Mem}

/-- With room for its digits the index of a digit is not negative. -/
theorem index_pred (hne : num ≠ 0) (hroom : (digitsOf num : ℤ) ≤ i.toInt + 1) :
    0 ≤ i.toInt ∧ (i - 1).toInt = i.toInt - 1 := by
  have hdigits := digitsOf_succ hne
  have hpos : 0 ≤ i.toInt := by omega
  exact ⟨hpos, toInt_pred (Int32.le_iff_toInt_le.mpr hpos)⟩

/-- The bytes behind the index are left alone. -/
theorem fillDigits_kept (hroom : (digitsOf num : ℤ) ≤ i.toInt + 1) {x : ℕ}
    (hx : a + i.toInt < x) : fillDigits a num i m x = m x := by
  induction num, i, m using fillDigits.induct a with
  | case1 num i m hne ih =>
      obtain ⟨hpos, hpred⟩ := index_pred hne hroom
      have hdigits := digitsOf_succ hne
      rw [fillDigits, if_pos hne, ih (by omega) (by omega), setChar,
        Function.update_of_ne (by omega)]
  | case2 num i m hzero => rw [fillDigits, if_neg hzero]

/-- The character of a round. -/
theorem digit_char (hnum : 0 ≤ num.toInt) :
    (num % 10 + 48).toUInt32.toUInt8 = digitChar (num.toInt.toNat % 10) := by
  have hlt : num.toInt.toNat % 10 < 10 := Nat.mod_lt _ (by decide)
  have hmod : num % 10 = Int32.ofNat (num.toInt.toNat % 10) := by
    apply Int32.toInt_inj.mp
    have hten : (10 : Int32).toInt = 10 := by decide
    rw [Int32.toInt_mod, hten, Int32.toInt_ofNat_of_lt (by omega), Int.tmod_eq_emod_of_nonneg hnum]
    omega
  have hsum : num % 10 + 48 = Int32.ofNat (num.toInt.toNat % 10 + 48) := by
    rw [hmod, Int32.ofNat_add]
    rfl
  rw [hsum, Int32.toUInt32_ofNat', UInt32.toUInt8_ofNat', digitChar, if_pos hlt]

theorem toNat_div_ten (hnum : 0 ≤ num.toInt) :
    0 ≤ (num / 10).toInt ∧ (num / 10).toInt.toNat = num.toInt.toNat / 10 := by
  rw [toInt_div_ten, Int.tdiv_eq_ediv_of_nonneg hnum]
  omega

/-- **The loop writes the numeral**, from its last digit to its first. -/
theorem fillDigits_holds (hnum : 0 ≤ num.toInt) (hi : i.toInt + 1 = p + digitsOf num) :
    Holds (fillDigits a num i m) (a + p)
      ((Nat.digits 10 num.toInt.toNat).map digitChar).reverse ∧
    ∀ x, x < a + p → fillDigits a num i m x = m x := by
  induction num, i, m using fillDigits.induct a with
  | case1 num i m hne ih =>
      obtain ⟨hpos, hpred⟩ := index_pred (i := i) hne (by omega)
      have hdigits := digitsOf_succ hne
      obtain ⟨hnext, hdiv⟩ := toNat_div_ten hnum
      obtain ⟨hholds, hkept⟩ := ih hnext (by omega)
      have hlength : ((Nat.digits 10 (num / 10).toInt.toNat).map digitChar).reverse.length =
          digitsOf (num / 10) := by
        rw [List.length_reverse, List.length_map, digitsOf]
        congr 2
        omega
      have hvalue : 0 < num.toInt.toNat := by
        have := natAbs_pos hne
        omega
      rw [fillDigits, if_pos hne, Nat.digits_def' (by decide) hvalue, List.map_cons,
        List.reverse_cons, holds_append, ← hdiv, hlength]
      refine ⟨⟨hholds, ?_, trivial⟩, fun x hx => ?_⟩
      · have hplace : a + p + digitsOf (num / 10) = (a + i.toInt).toNat := by omega
        rw [fillDigits_kept (by omega) (by omega), setChar, hplace, Function.update_self,
          digit_char hnum]
      · rw [hkept x hx, setChar, Function.update_of_ne (by omega)]
  | case2 num i m hzero =>
      rw [fillDigits, if_neg hzero]
      rw [not_not] at hzero
      rw [hzero]
      exact ⟨trivial, fun _ _ => rfl⟩

end Filling

/-! ## Reading -/

section Reading

variable {s : CStr} {v : ℕ}

/-- Only decimal digits. -/
def Decimal (s : CStr) : Prop := ∀ c ∈ s, 48 ≤ c ∧ c ≤ 57

theorem satoiDigits_eq (hs : Decimal s) : satoiDigits s (Int64.ofNat v) =
    Int64.ofNat (s.foldl (fun v c => v * 10 + charDigit c) v) := by
  induction s generalizing v with
  | nil => rfl
  | cons c s ih =>
      obtain ⟨hlow, hhigh⟩ := hs c List.mem_cons_self
      have hdigit : ¬(c < 48 ∨ c > 57) := by
        rw [not_or]
        exact ⟨UInt8.not_lt.mpr hlow, UInt8.not_lt.mpr hhigh⟩
      have hlowNat : 48 ≤ c.toNat := UInt8.le_iff_toNat_le.mp hlow
      have hhighNat : c.toNat ≤ 57 := UInt8.le_iff_toNat_le.mp hhigh
      have hchar : (c - 48).toUInt64.toInt64 = Int64.ofNat (charDigit c) := by
        have hnat : (c - 48).toUInt64 = UInt64.ofNat (c.toNat - 48) := by
          apply UInt64.toNat_inj.mp
          rw [UInt8.toNat_toUInt64, UInt8.toNat_sub_of_le _ _ hlow, UInt64.toNat_ofNat']
          change c.toNat - 48 = (c.toNat - 48) % 2 ^ 64
          omega
        rw [hnat, charDigit, if_pos (by omega)]
        rfl
      have hstep : Int64.ofNat v * 10 + (c - 48).toUInt64.toInt64 =
          Int64.ofNat (v * 10 + charDigit c) := by
        rw [hchar, Int64.ofNat_add, Int64.ofNat_mul]
        rfl
      rw [satoiDigits, if_neg hdigit, hstep, ih fun d hd => hs d (List.mem_cons_of_mem c hd)]
      rfl

/-- A string that begins with no sign. -/
theorem satoi_decimal (hs : Decimal s) : satoi s = Int64.ofNat (value 10 s) := by
  have hread : satoi s = satoiDigits s 0 := by
    unfold satoi
    split
    · rename_i digits
      exact absurd (hs 45 List.mem_cons_self).1 (by decide)
    · rfl
  rw [hread]
  exact satoiDigits_eq hs

theorem satoi_negative (hs : Decimal s) : satoi (45 :: s) = Int64.ofNat (value 10 s) * -1 := by
  have hread : satoiDigits s 0 = Int64.ofNat (value 10 s) := satoiDigits_eq hs
  rw [satoi, hread]

theorem numeral_decimal (v : ℕ) : Decimal (numeral 10 v) := by
  intro c hc
  obtain ⟨d, hd, rfl⟩ := mem_numeral (by decide) hc
  have hchar := digitChar_toNat (show d < 36 by omega)
  rw [if_pos hd] at hchar
  rw [UInt8.le_iff_toNat_le, UInt8.le_iff_toNat_le, hchar]
  change 48 ≤ d + 48 ∧ d + 48 ≤ 57
  omega

end Reading

/-! ## The round trip -/

/-- The string from `a` on, with its terminator. -/
structure IsString (m : Mem) (a : ℕ) (s : CStr) : Prop where
  holds : Holds m a (s ++ [0])
  nonzero : ∀ c ∈ s, c ≠ 0

/-- Decimal digits without a leading zero, behind a sign if the number is negative. -/
def PlainNumber (n : Int32) (s : CStr) : Prop :=
  ∃ digits, s = (if n < 0 then [45] else []) ++ digits ∧ Decimal digits ∧
    (digits.head? = some 48 → digits = [48])

/-- `int_to_string` writes a plain string of the length it returns, and `satoi` reads the
number from it. -/
def RoundTrips (n : Int32) (str : ℕ) (m : Mem) : Prop :=
  ∃ s, IsString (intToString n str m).2 str s ∧ satoi s = n.toInt64 ∧
    (intToString n str m).1.toInt = s.length ∧ PlainNumber n s

section RoundTrip

variable {a p : ℕ} {num n i : Int32} {m : Mem}

theorem numeral_eq {v : ℕ} (hv : v ≠ 0) :
    numeral 10 v = ((Nat.digits 10 v).map digitChar).reverse := by
  rw [numeral, lowDigits, if_neg hv]

theorem length_numeral_int (hpos : 0 < num.toInt) :
    (numeral 10 num.toInt.toNat).length = digitsOf num := by
  have hv : num.toInt.natAbs = num.toInt.toNat := by omega
  rw [numeral_eq (by omega), List.length_reverse, List.length_map, digitsOf, hv]

theorem countDigits_toInt (num : Int32) : (countDigits num 0).toInt = digitsOf num := by
  have hle := digitsOf_le num
  rw [countDigits_eq, Int32.zero_add, Int32.toInt_ofNat_of_lt (by omega)]

/-- The index of the last digit, and the one behind it. -/
theorem lastIndex_toInt (hnum : num ≠ 0) (hp : p ≤ 1) (hi : i.toInt = p) :
    (i + (countDigits num 0 - 1)).toInt = p + digitsOf num - 1 ∧
      (i + (countDigits num 0 - 1) + 1).toInt = p + digitsOf num := by
  have hle := digitsOf_le num
  have hone := digitsOf_succ hnum
  have hunit : (1 : Int32).toInt = 1 := by decide
  have hpred : (countDigits num 0 - 1).toInt = digitsOf num - 1 := by
    rw [Int32.toInt_sub, countDigits_toInt, hunit]
    exact Int.bmod_eq_of_le (by omega) (by omega)
  have hlast : (i + (countDigits num 0 - 1)).toInt = p + digitsOf num - 1 := by
    rw [Int32.toInt_add, hpred, hi]
    rw [Int.bmod_eq_of_le (by omega) (by omega)]
    omega
  refine ⟨hlast, ?_⟩
  rw [Int32.toInt_add, hlast, hunit, Int.bmod_eq_of_le (by omega) (by omega)]
  omega

/-- The byte that is stored. -/
theorem setChar_self {c : UInt8} {x : ℕ} (hi : 0 ≤ i.toInt) (hx : x = a + i.toInt.toNat) :
    setChar a i c m x = c := by
  have hplace : (a + i.toInt).toNat = x := by omega
  rw [setChar, hplace, Function.update_self]

/-- **The digits and the terminator** behind `p` bytes that are left alone. -/
theorem written {last : Int32} (hpos : 0 < num.toInt)
    (hlast : last.toInt = p + digitsOf num - 1) (hbehind : (last + 1).toInt = p + digitsOf num) :
    Holds (fillDigits a num last (setChar a (last + 1) 0 m)) (a + p)
      (numeral 10 num.toInt.toNat ++ [0]) ∧
    ∀ x, x < a + p → fillDigits a num last (setChar a (last + 1) 0 m) x = m x := by
  have hne : num ≠ 0 := by
    rintro rfl
    exact absurd hpos (by decide)
  have hone := digitsOf_succ hne
  obtain ⟨hholds, hfront⟩ := fillDigits_holds (a := a) (m := setChar a (last + 1) 0 m)
    hpos.le (show last.toInt + 1 = p + digitsOf num by omega)
  have hplace : (a + (last + 1).toInt).toNat = a + p + digitsOf num := by omega
  constructor
  · rw [holds_append, length_numeral_int hpos, numeral_eq (by omega)]
    refine ⟨hholds, ?_, trivial⟩
    rw [fillDigits_kept (by omega) (by omega), setChar, hplace, Function.update_self]
  · intro x hx
    rw [hfront x hx, setChar, hplace, Function.update_of_ne (by omega)]

theorem intToString_zero (a : ℕ) (m : Mem) :
    (intToString 0 a m).1 = 1 ∧ IsString (intToString 0 a m).2 a [48] := by
  have hwrote : intToString 0 a m = (1, setChar a 1 0 (setChar a 0 48 m)) := by
    rw [intToString, if_pos rfl]
  have hend : setChar a 1 0 (setChar a 0 48 m) (a + 1) = 0 := setChar_self (by decide) rfl
  have hdigit : setChar a 1 0 (setChar a 0 48 m) a = 48 := by
    have hplace : (a + (1 : Int32).toInt).toNat = a + 1 := rfl
    rw [setChar, hplace, Function.update_of_ne (by omega)]
    exact setChar_self (by decide) rfl
  rw [hwrote]
  refine ⟨rfl, ⟨hdigit, hend, trivial⟩, fun c hc => ?_⟩
  rw [List.mem_singleton.mp hc]
  decide

/-- A positive number has no sign. -/
theorem intToString_pos (hpos : 0 < n.toInt) (a : ℕ) (m : Mem) :
    (intToString n a m).1 = countDigits n 0 ∧
      IsString (intToString n a m).2 a (numeral 10 n.toInt.toNat) := by
  have hne : n ≠ 0 := by
    rintro rfl
    exact absurd hpos (by decide)
  have hsign : ¬n < 0 := by
    intro hneg
    have hlt : n.toInt < 0 := Int32.lt_iff_toInt_lt.mp hneg
    omega
  obtain ⟨hlast, hbehind⟩ := lastIndex_toInt (p := 0) (i := 0) hne (by decide) (by decide)
  obtain ⟨hholds, _⟩ := written (a := a) (m := m) hpos hlast hbehind
  have hwrote : intToString n a m = (countDigits n 0 + 0,
      fillDigits a n (0 + (countDigits n 0 - 1))
        (setChar a (0 + (countDigits n 0 - 1) + 1) 0 m)) := by
    unfold intToString
    simp only [if_neg hne, if_neg hsign]
  rw [hwrote]
  refine ⟨Int32.add_zero _, hholds, fun c hc h0 => ?_⟩
  exact absurd (numeral_decimal n.toInt.toNat c hc).1 (by rw [h0]; decide)

/-- **A number that is not negative** is its numeral. -/
theorem intToString_numeral (hn : 0 ≤ n.toInt) (a : ℕ) (m : Mem) :
    IsString (intToString n a m).2 a (numeral 10 n.toInt.toNat) := by
  rcases hn.lt_or_eq with hpos | hzero
  · exact (intToString_pos hpos a m).2
  · obtain rfl : n = 0 := Int32.toInt_inj.mp hzero.symm
    exact (intToString_zero a m).2

theorem length_numeral_le (hn : 0 ≤ n.toInt) : (numeral 10 n.toInt.toNat).length ≤ 10 := by
  rcases hn.lt_or_eq with hpos | hzero
  · rw [length_numeral_int hpos]
    exact digitsOf_le n
  · rw [← hzero]
    decide

theorem roundTrips_zero : RoundTrips 0 a m := by
  obtain ⟨hlength, hstring⟩ := intToString_zero a m
  refine ⟨[48], hstring, by decide, by rw [hlength]; rfl, [48], rfl, ?_, fun _ => rfl⟩
  intro c hc
  rw [List.mem_singleton.mp hc]
  decide

/-- A positive number is its numeral. -/
theorem roundTrips_pos (hpos : 0 < n.toInt) : RoundTrips n a m := by
  have hsign : ¬n < 0 := by
    intro hneg
    have hlt : n.toInt < 0 := Int32.lt_iff_toInt_lt.mp hneg
    omega
  obtain ⟨hlength, hstring⟩ := intToString_pos hpos a m
  have hdecimal := numeral_decimal n.toInt.toNat
  refine ⟨numeral 10 n.toInt.toNat, hstring, ?_, ?_, ?_⟩
  · rw [satoi_decimal hdecimal, value_numeral (by decide) (by decide)]
    have hmax := n.toInt_lt
    apply Int64.toInt_inj.mp
    rw [Int64.toInt_ofNat_of_lt (by omega), Int32.toInt_toInt64]
    omega
  · rw [hlength, length_numeral_int hpos, countDigits_toInt]
  · refine ⟨numeral 10 n.toInt.toNat, by rw [if_neg hsign]; rfl, hdecimal, fun hhead => ?_⟩
    exact absurd hhead (head_numeral (by decide) (by decide) (by omega))

/-- A negative number that can be negated is a sign and a numeral. -/
theorem roundTrips_neg (hneg : n.toInt < 0) (hmin : n ≠ -2147483648) : RoundTrips n a m := by
  have hsign : n < 0 := Int32.lt_iff_toInt_lt.mpr hneg
  have hzero : n ≠ 0 := by
    rintro rfl
    exact absurd hneg (by decide)
  have hmagnitude : (-n).toInt = -n.toInt := by
    have hne : n.toInt ≠ -2147483648 := fun heq => hmin (Int32.toInt_inj.mp (by rw [heq]; rfl))
    have hlow := n.le_toInt
    rw [Int32.toInt_neg]
    exact Int.bmod_eq_of_le (by omega) (by omega)
  have hpos : 0 < (-n).toInt := by omega
  have hne : -n ≠ 0 := by
    intro h0
    rw [h0] at hpos
    exact absurd hpos (by decide)
  obtain ⟨hlast, hbehind⟩ := lastIndex_toInt (p := 1) (i := 1) hne (by decide) (by decide)
  obtain ⟨hholds, hfront⟩ := written (a := a) (m := setChar a 0 45 m) hpos hlast hbehind
  have hwrote : intToString n a m = (countDigits (-n) 0 + 1,
      fillDigits a (-n) (1 + (countDigits (-n) 0 - 1))
        (setChar a (1 + (countDigits (-n) 0 - 1) + 1) 0 (setChar a 0 45 m))) := by
    unfold intToString
    simp only [if_neg hzero, if_pos hsign]
  have hdecimal := numeral_decimal (-n).toInt.toNat
  refine ⟨45 :: numeral 10 (-n).toInt.toNat, ⟨⟨?_, ?_⟩, ?_⟩, ?_, ?_, ?_⟩
  · rw [hwrote]
    exact (hfront a (Nat.lt_succ_self a)).trans (setChar_self (by decide) rfl)
  · rw [hwrote]
    exact hholds
  · intro c hc
    rcases List.mem_cons.mp hc with rfl | hc
    · decide
    · intro h0
      exact absurd (hdecimal c hc).1 (by rw [h0]; decide)
  · rw [satoi_negative hdecimal, value_numeral (by decide) (by decide)]
    have hread : Int64.ofNat (-n).toInt.toNat = (-n).toInt64 := by
      have hmax := (-n).toInt_lt
      apply Int64.toInt_inj.mp
      rw [Int64.toInt_ofNat_of_lt (by omega), Int32.toInt_toInt64]
      omega
    rw [hread, Int32.toInt64_neg_of_ne hmin, Int64.mul_neg, Int64.mul_one, Int64.neg_neg]
  · have hle := digitsOf_le (-n)
    have hunit : (1 : Int32).toInt = 1 := by decide
    rw [hwrote, List.length_cons, length_numeral_int hpos]
    change (countDigits (-n) 0 + 1).toInt = _
    rw [Int32.toInt_add, countDigits_toInt, hunit]
    exact Int.bmod_eq_of_le (by omega) (by omega)
  · refine ⟨numeral 10 (-n).toInt.toNat, by rw [if_pos hsign]; rfl, hdecimal, fun hhead => ?_⟩
    exact absurd hhead (head_numeral (by decide) (by decide) (by omega))

/-- **The smallest number** is not changed by the negation, and its last digit becomes
an opening parenthesis. -/
theorem roundTrips_min (a : ℕ) (m : Mem) : ¬RoundTrips (-2147483648) a m := by
  rintro ⟨s, ⟨hholds, _⟩, _, hlength, digits, hs, hdecimal, _⟩
  have hdigits : digitsOf (-2147483648) = 10 := by
    have habs : (-2147483648 : Int32).toInt.natAbs = 2147483648 := by decide
    have hle := digitsOf_le (-2147483648)
    have hmore : ¬digitsOf (-2147483648) ≤ 9 := by
      rw [digitsOf, habs, Nat.digits_length_le_iff (by decide)]
      decide
    omega
  have hcount : countDigits (-2147483648) 0 = 10 := by
    rw [countDigits_eq, hdigits]
    rfl
  have hwrote : intToString (-2147483648) a m = (10 + 1, fillDigits a (-2147483648) 10
      (setChar a 11 0 (setChar a 0 45 m))) := by
    have hneg : -(-2147483648 : Int32) = -2147483648 := by decide
    have hsign : (-2147483648 : Int32) < 0 := by decide
    have hzero : (-2147483648 : Int32) ≠ 0 := by decide
    unfold intToString
    simp only [if_neg hzero, if_pos hsign, hneg, hcount]
    rfl
  have hstep := digitsOf_succ (show (-2147483648 : Int32) ≠ 0 by decide)
  have hten : (10 - 1 : Int32).toInt = 9 := by decide
  have hlast : (intToString (-2147483648) a m).2 (a + 10) = 40 := by
    have hchar : ((-2147483648 : Int32) % 10 + 48).toUInt32.toUInt8 = 40 := by decide
    rw [hwrote]
    change fillDigits _ _ _ _ _ = _
    rw [fillDigits, if_pos (by decide), hchar, fillDigits_kept (by omega) (by omega)]
    exact setChar_self (by decide) rfl
  have heleven : s.length = 11 := by
    rw [hwrote] at hlength
    have helevenInt : (10 + 1 : Int32).toInt = 11 := by decide
    change (10 + 1 : Int32).toInt = _ at hlength
    omega
  have hread := holds_getElem (holds_append.mp hholds).1 10 (by omega)
  rw [hlast] at hread
  have hsign : (-2147483648 : Int32) < 0 := by decide
  rw [if_pos hsign] at hs
  subst hs
  have hmem : (40 : UInt8) ∈ digits := by
    rw [hread]
    exact List.getElem_mem (l := digits) (n := 9) (by
      rw [List.length_append, List.length_singleton] at heleven
      omega)
  exact absurd (hdecimal 40 hmem).1 (by decide)

/-- **int_to_string and satoi** are inverse for every number but the smallest one. -/
theorem intToString_satoi (n : Int32) (str : ℕ) (m : Mem) :
    RoundTrips n str m ↔ n ≠ -2147483648 := by
  constructor
  · rintro htrip rfl
    exact roundTrips_min str m htrip
  · intro hmin
    rcases lt_trichotomy n.toInt 0 with hneg | hzero | hpos
    · exact roundTrips_neg hneg hmin
    · rw [show n = 0 from Int32.toInt_inj.mp hzero]
      exact roundTrips_zero
    · exact roundTrips_pos hpos

/-- `-2147483648` is written as `-./,),(-*,(`. -/
theorem intToString_satoi_min : ¬∀ (n : Int32) (str : ℕ) (m : Mem), RoundTrips n str m :=
  fun hall => roundTrips_min 0 (fun _ => 0) (hall _ _ _)

end RoundTrip

end BareKernel.Text
