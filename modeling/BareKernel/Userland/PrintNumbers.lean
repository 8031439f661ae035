import BareKernel.Userland.Vfprintf

/-!
# Printed numbers

What the integer conversions of `vfprintf` print, and for which arguments that is the usual numeral.
The code prints a minus sign before the padding and negates in 32 bits; `%o` and `%b` take a
negative number for one of 64 bits.
-/

namespace BareKernel.Text

open ByteMemory ByteStrings Numerals

/-! ## What is usual -/

inductive IntConversion : Type where
  | d
  | u
  | x
  | o
  | b
deriving DecidableEq

namespace IntConversion

def specifier : IntConversion → UInt8
  | .d => 100
  | .u => 117
  | .x => 120
  | .o => 111
  | .b => 98

def base : IntConversion → ℕ
  | .d => 10
  | .u => 10
  | .x => 16
  | .o => 8
  | .b => 2

/-- The argument, an `int` or an `unsigned int`. -/
def argument (w : UInt64) : IntConversion → ℤ
  | .u => w.toUInt32.toNat
  | .x => w.toUInt32.toNat
  | _ => w.toUInt32.toInt32.toInt

end IntConversion

def sign (v : ℤ) : List UInt8 := if v < 0 then [minusSign] else []

/-- Sign and magnitude on the side of the width that the flag says. Zeros stand behind the sign. -/
def layout (d : Directive) (base : ℕ) (v : ℤ) : List UInt8 :=
  let number := numeral base v.natAbs
  let n := d.width - ((sign v).length + number.length)
  match d.flag with
  | .none => List.replicate n spaceChar ++ (sign v ++ number)
  | .left => sign v ++ number ++ List.replicate n spaceChar
  | .zero => sign v ++ (List.replicate n zeroChar ++ number)

/-- **The usual numeral**, which has no padding in bases 8 and 2. -/
def IntConversion.usual (d : Directive) (v : ℤ) : IntConversion → List UInt8
  | .o => sign v ++ numeral 8 v.natAbs
  | .b => sign v ++ numeral 2 v.natAbs
  | k => layout d k.base v

/-- The number that a text says, whatever its padding. -/
def readBack (base : ℕ) (text : List UInt8) : ℤ :=
  (if minusSign ∈ text then -1 else 1) *
    (value base (text.filter fun c => c ≠ spaceChar ∧ c ≠ minusSign) : ℤ)

variable {base n m : ℕ} {t : List UInt8} {d : Directive} {w : UInt64} {c : UInt8}

theorem mem_numeral_ne (hb : 1 < base) (hle : base ≤ 36) (hc : c ∈ numeral base n) :
    c ≠ spaceChar ∧ c ≠ minusSign ∧ c ≠ esc ∧ c ≠ percent ∧ c ≠ 0 := by
  have hlow := (numeral_bounds hb hle hc).1
  have hne : ∀ c' : UInt8, c'.toNat < 48 → c ≠ c' := by
    rintro c' hc' rfl
    exact absurd hlow (Nat.not_le.mpr hc')
  exact ⟨hne _ (by decide), hne _ (by decide), hne _ (by decide), hne _ (by decide),
    hne _ (by decide)⟩

theorem value_zeros (base n : ℕ) (t : List UInt8) :
    value base (List.replicate n zeroChar ++ t) = value base t := by
  induction n with
  | zero => rfl
  | succ n ih =>
      rw [List.replicate_succ, List.cons_append, value, List.foldl_cons, Nat.zero_mul, Nat.zero_add]
      exact ih

/-- Padding does not count. -/
theorem filter_numeral (hb : 1 < base) (hle : base ≤ 36) (n : ℕ) :
    (numeral base n).filter (fun c => c ≠ spaceChar ∧ c ≠ minusSign) = numeral base n := by
  rw [List.filter_eq_self]
  intro c hc
  have hne := mem_numeral_ne hb hle hc
  simp [hne.1, hne.2.1]

theorem filter_spaces (n : ℕ) :
    (List.replicate n spaceChar).filter (fun c => c ≠ spaceChar ∧ c ≠ minusSign) = [] := by
  rw [List.filter_eq_nil_iff]
  intro c hc
  rw [List.eq_of_mem_replicate hc]
  decide

theorem filter_zeros (n : ℕ) : (List.replicate n zeroChar).filter
    (fun c => c ≠ spaceChar ∧ c ≠ minusSign) = List.replicate n zeroChar := by
  rw [List.filter_eq_self]
  intro c hc
  rw [List.eq_of_mem_replicate hc]
  decide

theorem filter_minus : [minusSign].filter (fun c => c ≠ spaceChar ∧ c ≠ minusSign) = [] := by decide

/-- A numeral with padding on either side. -/
theorem value_paddedText (hb : 1 < base) (hle : base ≤ 36) (v : Conversion) (left : Bool)
    (k n : ℕ) :
    value base ((paddedText left v.padChar k (numeral base n)).filter
      fun c => c ≠ spaceChar ∧ c ≠ minusSign) = n := by
  unfold paddedText Conversion.padChar
  cases left with
  | true =>
      rw [if_pos rfl, List.filter_append, filter_numeral hb hle, filter_spaces, List.append_nil,
        value_numeral hb hle]
  | false =>
      rw [if_neg (by decide), List.filter_append, filter_numeral hb hle]
      cases v.zeroPad with
      | true => rw [if_pos rfl, filter_zeros, value_zeros, value_numeral hb hle]
      | false => rw [if_neg (by decide), filter_spaces, List.nil_append, value_numeral hb hle]

theorem minus_notMem_numeral (hb : 1 < base) (hle : base ≤ 36) : minusSign ∉ numeral base n :=
  fun h => (mem_numeral_ne hb hle h).2.1 rfl

theorem minus_notMem_replicate (k : ℕ) : minusSign ∉ List.replicate k spaceChar ∧
    minusSign ∉ List.replicate k zeroChar :=
  ⟨fun h => absurd (List.eq_of_mem_replicate h) (by decide),
    fun h => absurd (List.eq_of_mem_replicate h) (by decide)⟩

theorem minus_mem_sign {v : ℤ} : minusSign ∈ sign v ↔ v < 0 := by
  unfold sign
  split
  · rename_i h
    exact iff_of_true List.mem_cons_self h
  · rename_i h
    exact iff_of_false List.not_mem_nil h

theorem filter_sign (v : ℤ) : (sign v).filter (fun c => c ≠ spaceChar ∧ c ≠ minusSign) = [] := by
  unfold sign
  split
  · exact filter_minus
  · rfl

/-- A text with a sign and the digits of a magnitude says the number. -/
theorem readBack_eq {v : ℤ} (hsign : minusSign ∈ t ↔ v < 0)
    (hvalue : value base (t.filter fun c => c ≠ spaceChar ∧ c ≠ minusSign) = v.natAbs) :
    readBack base t = v := by
  unfold readBack
  rw [hvalue, if_congr hsign rfl rfl]
  split <;> omega

/-- **Parsing the usual numeral back gives the value.** -/
theorem readBack_layout (hb : 1 < base) (hle : base ≤ 36) (d : Directive) (v : ℤ) :
    readBack base (layout d base v) = v := by
  have hnumber := minus_notMem_numeral (n := v.natAbs) hb hle
  apply readBack_eq
  · unfold layout
    dsimp only
    generalize d.width - ((sign v).length + (numeral base v.natAbs).length) = k
    obtain ⟨hspaces, hzeros⟩ := minus_notMem_replicate k
    cases d.flag <;> simp only [List.mem_append, minus_mem_sign, hnumber, hspaces, hzeros, or_false,
      false_or]
  · unfold layout
    dsimp only
    generalize d.width - ((sign v).length + (numeral base v.natAbs).length) = k
    cases d.flag with
    | none =>
        dsimp only
        rw [List.filter_append, List.filter_append, filter_spaces, filter_sign,
          filter_numeral hb hle, List.nil_append, List.nil_append, value_numeral hb hle]
    | left =>
        dsimp only
        rw [List.filter_append, List.filter_append, filter_spaces, filter_sign,
          filter_numeral hb hle, List.append_nil, List.nil_append, value_numeral hb hle]
    | zero =>
        dsimp only
        rw [List.filter_append, List.filter_append, filter_zeros, filter_sign,
          filter_numeral hb hle, List.nil_append, value_zeros, value_numeral hb hle]

theorem readBack_plain (hb : 1 < base) (hle : base ≤ 36) (v : ℤ) :
    readBack base (sign v ++ numeral base v.natAbs) = v := by
  apply readBack_eq
  · simp [minus_mem_sign, minus_notMem_numeral (n := v.natAbs) hb hle]
  · rw [List.filter_append, filter_sign, filter_numeral hb hle, List.nil_append,
      value_numeral hb hle]

theorem readBack_usual (k : IntConversion) (d : Directive) (v : ℤ) :
    readBack k.base (k.usual d v) = v := by
  cases k with
  | d => exact readBack_layout (by decide) (by decide) d v
  | u => exact readBack_layout (by decide) (by decide) d v
  | x => exact readBack_layout (by decide) (by decide) d v
  | o => exact readBack_plain (by decide) (by decide) v
  | b => exact readBack_plain (by decide) (by decide) v

/-! ## What the code prints -/

theorem numeral_plain (hb : 1 < base) (hle : base ≤ 36) : Plain (numeral base n) :=
  fun _ hc => ⟨(mem_numeral_ne hb hle hc).2.2.1, (mem_numeral_ne hb hle hc).2.2.2.1⟩

/-- The string in the buffer is what stands there before the terminator. -/
theorem text_eq {buffer : Mem} {args : List Arg} {sent : List Sys} (h : Holds buffer 0 (t ++ [0]))
    (hlen : t.length < bufferSize) (hzero : ∀ c ∈ t, c ≠ 0) :
    (Printer.mk args buffer sent).text = t := by
  obtain ⟨htext, hend, -⟩ := holds_append.mp h
  rw [Nat.zero_add] at hend
  have hsplit : bufferSize = t.length + (bufferSize - t.length - 1 + 1) := by omega
  have hfront : (List.range t.length).map buffer = t := by
    apply List.ext_getElem
    · simp
    · intro i _ hi
      have hcell := holds_getElem htext i hi
      rw [Nat.zero_add] at hcell
      simp [hcell]
  unfold Printer.text
  dsimp only
  rw [hsplit, List.range_add, List.map_append, hfront, List.takeWhile_append_of_pos
    (by simpa using hzero),
    List.range_succ_eq_map, List.map_cons, List.map_cons, Nat.add_zero, List.takeWhile_cons_of_neg,
    List.append_nil]
  simp [hend]

/-- **The buffer gets the numeral**, unless it has 64 digits. -/
theorem printer_uintToBase {b : UInt32} {value : UInt64} (hb : 1 < b.toNat) (hle : b.toNat ≤ 16)
    (hfits : b = 2 → value.toNat < 2 ^ 63) (P : Printer) :
    ∃ buffer, P.uintToBase value b = .ok ((numeral b.toNat value.toNat).length, { P with buffer }) ∧
      ∀ args sent, (Printer.mk args buffer sent).text = numeral b.toNat value.toNat := by
  have hroom := (length_numeral_lt value hb).mpr hfits
  obtain ⟨digits, buffer, hrun, hwritten⟩ := uintToBase_writes P.buffer hle hb hroom
  refine ⟨buffer, ?_, fun args sent => ?_⟩
  · unfold Printer.uintToBase
    rw [hrun, ← hwritten.count]
  · exact text_eq hwritten.text hroom fun c hc =>
      (mem_numeral_ne hb (hle.trans (by decide)) hc).2.2.2.2

variable {b : UInt32} {value : UInt64} {buffer : Mem} {fuel : ℕ}

/-- The digits in the buffer, with padding for a text of `len` characters. -/
theorem printPadded_number (hb : 1 < b.toNat) (hle : b.toNat ≤ 16)
    (htext : ∀ args sent, (Printer.mk args buffer sent).text = numeral b.toNat value.toNat)
    (hfuel : (numeral b.toNat value.toNat).length < fuel) (v : Conversion)
    (padChar : UInt8) (len : ℕ)
    (args : List Arg) (sent : List Sys) : ∃ sent',
    printPadded v padChar len (fun P => fprintf fuel P.text P) ⟨args, buffer, sent⟩ =
      .ok ⟨args, buffer, sent ++ sent'⟩ ∧
    bytes sent' = paddedText v.leftAlign padChar (v.width.toInt.toNat - len)
      (numeral b.toNat value.toNat) := by
  have hprint : ∀ sent, fprintf fuel (Printer.mk args buffer sent).text ⟨args, buffer, sent⟩ =
      .ok ⟨args, buffer, sent ++ (numeral b.toNat value.toNat).map fun c => .write [c]⟩ := by
    intro sent
    rw [htext]
    exact fprintf_plain (numeral_plain hb (hle.trans (by decide))) hfuel
  obtain ⟨sent', hpadded, hbytes⟩ := printPadded_ok (P := ⟨args, buffer, sent⟩) v padChar len
    (fun P => fprintf fuel P.text P) hprint
  refine ⟨sent', hpadded, ?_⟩
  rw [hbytes, bytes_writes]

/-- A conversion that does nothing but print a number with its padding. -/
theorem prints_padded (hc : EndsWidth c) (hb : 1 < b.toNat) (hle : b.toNat ≤ 16)
    (hfits : b = 2 → value.toNat < 2 ^ 63)
    (hconvert : ∀ fuel args buffer sent,
      convert (fprintf fuel) d.conversion c ⟨.word w :: args, buffer, sent⟩ = (do
        let (len, P) ← (Printer.mk args buffer sent).uintToBase value b
        printPadded d.conversion d.conversion.padChar len (fun P => fprintf fuel P.text P) P)) :
    Prints c d (.word w) (paddedText (d.flag = .left) d.conversion.padChar
      (d.width - (numeral b.toNat value.toNat).length) (numeral b.toNat value.toNat)) := by
  refine prints_of_convert hc ((numeral b.toNat value.toNat).length + 1)
    fun fuel hfuel args buffer sent => ?_
  obtain ⟨buffer', hrun, htext⟩ := printer_uintToBase hb hle hfits ⟨args, buffer, sent⟩
  obtain ⟨sent', hpadded, hbytes⟩ := printPadded_number hb hle htext hfuel d.conversion
    d.conversion.padChar (numeral b.toNat value.toNat).length args sent
  refine ⟨buffer', sent', ?_, ?_⟩
  · rw [hconvert, hrun]
    exact hpadded
  · rw [hbytes, d.width_conversion]
    rfl

/-- Padding is the usual layout of a number that is not negative. -/
theorem paddedText_layout {v : ℤ} (hv : 0 ≤ v) (d : Directive) (base : ℕ) :
    paddedText (d.flag = .left) d.conversion.padChar (d.width - (numeral base v.natAbs).length)
      (numeral base v.natAbs) = layout d base v := by
  have hsign : sign v = [] := if_neg (not_lt.mpr hv)
  unfold paddedText layout Conversion.padChar Directive.conversion
  rw [hsign]
  cases d.flag <;> simp

/-- `value`, as it is given to `uintToBase`. -/
theorem toNat_toUInt64 (i : Int32) : (i.toInt64.toUInt64.toNat : ℤ) = i.toInt % 2 ^ 64 := by
  have hsigned : i.toInt64.toInt = i.toInt := Int32.toInt_toInt64 i
  have hvec : (i.toInt64.toBitVec.toNat : ℤ) = i.toInt64.toBitVec.toInt % 2 ^ 64 := by
    have hlt := i.toInt64.toBitVec.isLt
    have hmod : ((i.toInt64.toBitVec.toNat : ℤ).bmod (2 ^ 64)) % ((2 ^ 64 : ℕ) : ℤ) =
        (i.toInt64.toBitVec.toNat : ℤ) % ((2 ^ 64 : ℕ) : ℤ) := Int.bmod_emod
    rw [BitVec.toInt_eq_toNat_bmod]
    omega
  rw [← hsigned]
  exact hvec

theorem endsWidth_specifier (k : IntConversion) : EndsWidth k.specifier := by
  cases k <;> decide

/-- `%u` and `%x`. -/
theorem prints_unsigned (d : Directive) (w : UInt64) :
    Prints 117 d (.word w) (layout d 10 w.toUInt32.toNat) ∧
    Prints 120 d (.word w) (layout d 16 w.toUInt32.toNat) := by
  have hvalue : w.toUInt32.toUInt64.toNat = ((w.toUInt32.toNat : ℤ)).natAbs := rfl
  constructor
  · rw [← paddedText_layout (Int.natCast_nonneg _), ← hvalue]
    exact prints_padded (b := 10) (by decide) (by decide) (by decide)
      (fun h => absurd h (by decide))
      fun fuel args buffer sent => rfl
  · rw [← paddedText_layout (Int.natCast_nonneg _), ← hvalue]
    exact prints_padded (b := 16) (by decide) (by decide) (by decide)
      (fun h => absurd h (by decide))
      fun fuel args buffer sent => rfl

/-- The value that `%d` prints behind the sign, after the negation in 32 bits. -/
def magnitude (i : Int32) : ℕ := (if i < 0 then -i else i).toInt64.toUInt64.toNat

theorem magnitude_eq {i : Int32} (hi : i.toInt ≠ -2 ^ 31) : magnitude i = i.toInt.natAbs := by
  have hlow := Int32.le_toInt i
  have hhigh := Int32.toInt_lt i
  have hvalue := toNat_toUInt64 (if i < 0 then -i else i)
  unfold magnitude
  by_cases h : i < 0
  · have hneg : i.toInt < 0 := Int32.lt_iff_toInt_lt.mp h
    rw [if_pos h] at hvalue ⊢
    rw [Int32.toInt_neg, Int.bmod_eq_of_le (by omega) (by omega)] at hvalue
    omega
  · have hpos : ¬ i.toInt < 0 := fun h' => h (Int32.lt_iff_toInt_lt.mpr h')
    rw [if_neg h] at hvalue ⊢
    omega

theorem magnitude_least : magnitude (-2147483648) = 18446744071562067968 := by decide

theorem printD_neg {fprintf : Fprintf} (h : w.toUInt32.toInt32 < 0) (v : Conversion)
    (args : List Arg)
    (buffer : Mem) (sent : List Sys) : printD fprintf v ⟨.word w :: args, buffer, sent⟩ = (do
      let (len, P) ← (Printer.mk args buffer (sent ++ [.write [minusSign]])).uintToBase
        (-w.toUInt32.toInt32).toInt64.toUInt64 10
      printPadded v v.padChar (len + 1) (fun P => fprintf P.text P) P) := if_pos h

theorem printD_nonneg {fprintf : Fprintf} (h : ¬ w.toUInt32.toInt32 < 0) (v : Conversion)
    (args : List Arg) (buffer : Mem) (sent : List Sys) :
    printD fprintf v ⟨.word w :: args, buffer, sent⟩ = (do
      let (len, P) ← (Printer.mk args buffer sent).uintToBase w.toUInt32.toInt32.toInt64.toUInt64 10
      printPadded v v.padChar len (fun P => fprintf P.text P) P) := if_neg h

/-- **`%d`**: a minus sign comes first, then the padding. -/
theorem prints_d (d : Directive) (w : UInt64) : Prints 100 d (.word w)
    (sign w.toUInt32.toInt32.toInt ++ paddedText (d.flag = .left) d.conversion.padChar
      (d.width - ((sign w.toUInt32.toInt32.toInt).length +
        (numeral 10 (magnitude w.toUInt32.toInt32)).length))
      (numeral 10 (magnitude w.toUInt32.toInt32))) := by
  generalize hi : w.toUInt32.toInt32 = i
  have hneg : i < 0 ↔ i.toInt < 0 := Int32.lt_iff_toInt_lt
  unfold magnitude sign
  by_cases h : i < 0
  · rw [if_pos h, if_pos (hneg.mp h), List.length_singleton, Nat.add_comm]
    refine prints_of_convert (endsWidth_specifier .d) (bufferSize + 1)
      fun fuel hfuel args buffer sent => ?_
    have hfits : (10 : UInt32) = 2 → (-i).toInt64.toUInt64.toNat < 2 ^ 63 :=
      fun h => absurd h (by decide)
    obtain ⟨buffer', hrun, htext⟩ := printer_uintToBase (b := 10)
      (by decide) (by decide) hfits ⟨args, buffer, sent ++ [.write [minusSign]]⟩
    have hroom := (length_numeral_lt (b := 10) (-i).toInt64.toUInt64 (by decide)).mpr hfits
    obtain ⟨sent', hpadded, hbytes⟩ := printPadded_number (b := 10) (by decide) (by decide) htext
      (hroom.trans hfuel) d.conversion d.conversion.padChar
      ((numeral 10 (-i).toInt64.toUInt64.toNat).length + 1) args (sent ++ [.write [minusSign]])
    refine ⟨buffer', [.write [minusSign]] ++ sent', ?_, ?_⟩
    · have hconvert : convert (fprintf fuel) d.conversion 100 ⟨.word w :: args, buffer, sent⟩ =
          printD (fprintf fuel) d.conversion ⟨.word w :: args, buffer, sent⟩ := rfl
      rw [hconvert, printD_neg (by rw [hi]; exact h), hi, hrun, ← List.append_assoc]
      exact hpadded
    · rw [bytes_append, bytes_write, hbytes, d.width_conversion]
      rfl
  · rw [if_neg h, if_neg (fun h' => h (hneg.mpr h')), List.length_nil, Nat.zero_add,
      List.nil_append]
    refine prints_padded (b := 10) (endsWidth_specifier .d) (by decide) (by decide)
      (fun h => absurd h (by decide)) fun fuel args buffer sent => ?_
    rw [← hi]
    exact printD_nonneg (by rw [hi]; exact h) d.conversion args buffer sent

/-- `%o` and `%b` go through `printBase`. -/
def ThroughBase (c : UInt8) (b : UInt32) : Prop :=
  ∀ fprintf v P, convert fprintf v c P = printBase fprintf b P

theorem printBase_neg {fprintf : Fprintf} (h : w.toUInt32.toInt32 < 0) (b : UInt32)
    (args : List Arg)
    (buffer : Mem) (sent : List Sys) : printBase fprintf b ⟨.word w :: args, buffer, sent⟩ = (do
      let P ← fprintf [minusSign] ⟨args, buffer, sent⟩
      let (_, P) ← P.uintToBase w.toUInt32.toInt32.toInt64.toUInt64 b
      fprintf P.text P) := by
  change (do let P ← if w.toUInt32.toInt32 < 0 then fprintf [minusSign] ⟨args, buffer, sent⟩ else _
             let (_, P) ← P.uintToBase w.toUInt32.toInt32.toInt64.toUInt64 b
             fprintf P.text P) = _
  rw [if_pos h]

theorem printBase_nonneg {fprintf : Fprintf} (h : ¬ w.toUInt32.toInt32 < 0) (b : UInt32)
    (args : List Arg) (buffer : Mem) (sent : List Sys) :
    printBase fprintf b ⟨.word w :: args, buffer, sent⟩ = (do
      let (_, P) ← (Printer.mk args buffer sent).uintToBase w.toUInt32.toInt32.toInt64.toUInt64 b
      fprintf P.text P) := by
  change (do let P ← if w.toUInt32.toInt32 < 0 then _ else Except.ok (Printer.mk args buffer sent)
             let (_, P) ← P.uintToBase w.toUInt32.toInt32.toInt64.toUInt64 b
             fprintf P.text P) = _
  rw [if_neg h]
  rfl

theorem fprintf_minus (hfuel : 1 < fuel) (args : List Arg) (buffer : Mem) (sent : List Sys) :
    fprintf fuel [minusSign] ⟨args, buffer, sent⟩ =
      .ok ⟨args, buffer, sent ++ [.write [minusSign]]⟩ := by
  have hplain : Plain [minusSign] := by
    intro c hc
    rw [List.mem_singleton.mp hc]
    decide
  exact fprintf_plain hplain hfuel

/-- **`%o` and `%b`**: the digits are those of the number as an `uint64_t`. -/
theorem prints_base (hc : EndsWidth c) (hthrough : ThroughBase c b) (hb : 1 < b.toNat)
    (hle : b.toNat ≤ 16) (d : Directive)
    (hfits : b = 2 → w.toUInt32.toInt32.toInt64.toUInt64.toNat < 2 ^ 63) :
    Prints c d (.word w) (sign w.toUInt32.toInt32.toInt ++
      numeral b.toNat w.toUInt32.toInt32.toInt64.toUInt64.toNat) := by
  have hneg : w.toUInt32.toInt32 < 0 ↔ w.toUInt32.toInt32.toInt < 0 := Int32.lt_iff_toInt_lt
  have hroom := (length_numeral_lt _ hb).mpr hfits
  have hplain := numeral_plain (n := w.toUInt32.toInt32.toInt64.toUInt64.toNat) hb
    (hle.trans (by decide))
  refine prints_of_convert hc (bufferSize + 1) fun fuel hfuel args buffer sent => ?_
  have hfuel' : 1 < fuel := lt_of_lt_of_le (by decide) hfuel
  rw [hthrough]
  generalize hdigits : numeral b.toNat w.toUInt32.toInt32.toInt64.toUInt64.toNat = digits at *
  by_cases h : w.toUInt32.toInt32 < 0
  · obtain ⟨buffer', hrun, htext⟩ := printer_uintToBase hb hle hfits
      ⟨args, buffer, sent ++ [.write [minusSign]]⟩
    refine ⟨buffer', [Sys.write [minusSign]] ++ digits.map fun c => Sys.write [c], ?_, ?_⟩
    · rw [printBase_neg h, fprintf_minus hfuel']
      change (do let (_, P) ←
        (Printer.mk args buffer (sent ++ [Sys.write [minusSign]])).uintToBase _ b
                 fprintf fuel P.text P) = _
      rw [hrun]
      change fprintf fuel (Printer.text ⟨args, buffer', _⟩) _ = _
      rw [htext, hdigits, fprintf_plain hplain (hroom.trans hfuel), List.append_assoc]
    · rw [bytes_append, bytes_write, bytes_writes, sign, if_pos (hneg.mp h)]
  · obtain ⟨buffer', hrun, htext⟩ := printer_uintToBase hb hle hfits ⟨args, buffer, sent⟩
    refine ⟨buffer', digits.map fun c => .write [c], ?_, ?_⟩
    · rw [printBase_nonneg h, hrun]
      change fprintf fuel (Printer.text ⟨args, buffer', _⟩) _ = _
      rw [htext, hdigits, fprintf_plain hplain (hroom.trans hfuel)]
    · rw [bytes_writes, sign, if_neg (fun h' => h (hneg.mpr h')), List.nil_append]

/-- **A negative `%b` has 64 digits**, which do not fit the buffer. -/
theorem not_prints_b (h : w.toUInt32.toInt32.toInt < 0) (d : Directive) (t : List UInt8) :
    ¬ Prints 98 d (.word w) t := by
  intro hprints
  have hneg : w.toUInt32.toInt32 < 0 := Int32.lt_iff_toInt_lt.mpr h
  have hvalue := toNat_toUInt64 w.toUInt32.toInt32
  have hlow := Int32.le_toInt w.toUInt32.toInt32
  have hbig : ¬ ((2 : UInt32) = 2 → w.toUInt32.toInt32.toInt64.toUInt64.toNat < 2 ^ 63) := by
    intro hsmall
    have hlt := hsmall rfl
    omega
  have hlong :
      bufferSize ≤ (numeral (2 : UInt32).toNat w.toUInt32.toInt32.toInt64.toUInt64.toNat).length :=
    Nat.le_of_not_lt fun hlt => hbig ((length_numeral_lt _ (by decide)).mp hlt)
  obtain ⟨n, hn⟩ := hprints.convert (by decide) fun _ => 0
  obtain ⟨P, hP, -⟩ := hn (n + 2) (Nat.le_add_right n 2)
  have hthrough : convert (fprintf (n + 2)) d.conversion 98 ⟨[.word w], fun _ => 0, []⟩ =
      printBase (fprintf (n + 2)) 2 ⟨[.word w], fun _ => 0, []⟩ := rfl
  have hover : ∀ sent, (Printer.mk [] (fun _ => 0) sent).uintToBase
      w.toUInt32.toInt32.toInt64.toUInt64 2 = .error .buffer := by
    intro sent
    unfold Printer.uintToBase
    rw [uintToBase_overflows _ (by decide) (by decide) hlong]
  rw [hthrough, printBase_neg hneg, fprintf_minus (by omega)] at hP
  change (do let (_, P) ← (Printer.mk [] (fun _ => 0) _).uintToBase _ 2
             fprintf (n + 2) P.text P) = _ at hP
  rw [hover] at hP
  cases hP

/-! ## Which arguments are printed as usual -/

/-- The arguments for which the code prints the usual numeral. -/
def IntConversion.Exact (d : Directive) (v : ℤ) : IntConversion → Prop
  | .d => v ≠ -2 ^ 31 ∧ (v < 0 → d.flag = .none → d.width ≤ (numeral 10 v.natAbs).length + 1)
  | .o => 0 ≤ v
  | .b => 0 ≤ v
  | _ => True

/-- What the code prints for `%d` says minus the magnitude if there is a sign. -/
theorem readBack_negative (hb : 1 < base) (hle : base ≤ 36) {v : ℤ} (hv : v < 0) (conv : Conversion)
    (left : Bool) (k : ℕ) :
    readBack base (sign v ++ paddedText left conv.padChar k (numeral base n)) = -n := by
  have hmem : minusSign ∈ sign v ++ paddedText left conv.padChar k (numeral base n) :=
    List.mem_append_left _ (minus_mem_sign.mpr hv)
  unfold readBack
  rw [if_pos hmem, List.filter_append, filter_sign, List.nil_append, value_paddedText hb hle]
  exact neg_one_mul _

/-- With the sign first, padding with spaces on the left is not usual. -/
theorem layout_negative {v : ℤ} (hv : v < 0) (d : Directive) (base : ℕ) :
    sign v ++ paddedText (d.flag = .left) d.conversion.padChar
      (d.width - ((sign v).length + (numeral base v.natAbs).length)) (numeral base v.natAbs) =
      layout d base v ↔ (d.flag = .none → d.width ≤ (numeral base v.natAbs).length + 1) := by
  have hsign : sign v = [minusSign] := if_pos hv
  unfold paddedText layout Conversion.padChar Directive.conversion
  rw [hsign, List.length_singleton]
  dsimp only
  generalize hk : d.width - (1 + (numeral base v.natAbs).length) = k
  have hcond : d.width ≤ (numeral base v.natAbs).length + 1 ↔ k = 0 := by omega
  rw [hcond]
  cases d.flag with
  | none =>
      cases k with
      | zero => exact iff_of_true (by simp) fun _ => rfl
      | succ k =>
          refine iff_of_false (fun h => ?_) fun h => absurd (h rfl) (Nat.succ_ne_zero k)
          have hhead := congrArg List.head? h
          exact absurd hhead (by simp [List.replicate_succ]; decide)
  | left => exact iff_of_true (by simp) fun h => by cases h
  | zero => exact iff_of_true (by simp) fun h => by cases h

theorem decimal_conversion (d : Directive) (w : UInt64) :
    Prints 100 d (.word w) (layout d 10 w.toUInt32.toInt32.toInt) ↔
      IntConversion.d.Exact d w.toUInt32.toInt32.toInt := by
  have hprints := prints_d d w
  generalize w.toUInt32.toInt32 = i at *
  unfold IntConversion.Exact
  by_cases hleast : i.toInt = -2 ^ 31
  · -- the negation changes nothing, and the magnitude is one of 64 bits
    refine iff_of_false (fun h => ?_) fun h => h.1 hleast
    obtain rfl : i = -2147483648 := Int32.toInt_inj.mp hleast
    have hsame := congrArg (readBack 10) (h.unique (by decide) hprints)
    rw [readBack_layout (by decide) (by decide),
      readBack_negative (by decide) (by decide) (by decide) d.conversion, magnitude_least] at hsame
    revert hsame
    decide
  · rw [magnitude_eq hleast] at hprints
    rw [and_iff_right hleast]
    by_cases hneg : i.toInt < 0
    · constructor
      · intro h _
        exact (layout_negative hneg d 10).mp (hprints.unique (by decide) h)
      · intro h
        rw [← (layout_negative hneg d 10).mpr (h hneg)]
        exact hprints
    · refine iff_of_true ?_ fun h => absurd h hneg
      rw [← paddedText_layout (not_lt.mp hneg)]
      have hsign : sign i.toInt = [] := if_neg hneg
      rw [hsign, List.nil_append, List.length_nil, Nat.zero_add] at hprints
      exact hprints

/-- The value of a number that is not negative does not change. -/
theorem toUInt64_nonneg {i : Int32} (h : 0 ≤ i.toInt) :
    i.toInt64.toUInt64.toNat = i.toInt.natAbs := by
  have hvalue := toNat_toUInt64 i
  have hhigh := Int32.toInt_lt i
  omega

theorem octal_conversion (d : Directive) (w : UInt64) :
    Prints 111 d (.word w)
      (sign w.toUInt32.toInt32.toInt ++ numeral 8 w.toUInt32.toInt32.toInt.natAbs) ↔
      0 ≤ w.toUInt32.toInt32.toInt := by
  have hprints : Prints 111 d (.word w) (sign w.toUInt32.toInt32.toInt ++
      numeral 8 w.toUInt32.toInt32.toInt64.toUInt64.toNat) :=
    prints_base (b := 8) (by decide) (fun _ _ _ => rfl) (by decide) (by decide) d
      fun h => absurd h (by decide)
  generalize w.toUInt32.toInt32 = i at *
  constructor
  · intro h
    by_contra hneg
    have hsame := congrArg (readBack 8) (h.unique (by decide) hprints)
    have hvalue := toNat_toUInt64 i
    have hlow := Int32.le_toInt i
    have hback : readBack 8 (sign i.toInt ++ paddedText true d.conversion.padChar 0
        (numeral 8 i.toInt64.toUInt64.toNat)) = -i.toInt64.toUInt64.toNat :=
      readBack_negative (by decide) (by decide) (lt_of_not_ge hneg) d.conversion true 0
    rw [readBack_plain (by decide) (by decide)] at hsame
    simp only [paddedText, if_true, List.replicate_zero, List.append_nil] at hback
    rw [hback] at hsame
    omega
  · intro h
    rw [← toUInt64_nonneg h]
    exact hprints

theorem binary_conversion (d : Directive) (w : UInt64) :
    Prints 98 d (.word w)
      (sign w.toUInt32.toInt32.toInt ++ numeral 2 w.toUInt32.toInt32.toInt.natAbs) ↔
      0 ≤ w.toUInt32.toInt32.toInt := by
  constructor
  · intro h
    by_contra hneg
    exact not_prints_b (lt_of_not_ge hneg) d _ h
  · intro h
    rw [← toUInt64_nonneg h]
    refine prints_base (b := 2) (by decide) (fun _ _ _ => rfl) (by decide) (by decide) d fun _ => ?_
    rw [toUInt64_nonneg h]
    have hhigh := Int32.toInt_lt w.toUInt32.toInt32
    omega

/-- **Integer conversions are exact** for every `unsigned int`, for every `int` that is not
negative, and with `%d` for those negative ones that can be negated and need no spaces on the
left. -/
theorem integer_conversion (k : IntConversion) (d : Directive) (w : UInt64) :
    (Prints k.specifier d (.word w) (k.usual d (k.argument w)) ∧
      readBack k.base (k.usual d (k.argument w)) = k.argument w) ↔ k.Exact d (k.argument w) := by
  rw [and_iff_left (readBack_usual k d _)]
  cases k with
  | d => exact decimal_conversion d w
  | u => exact iff_of_true (prints_unsigned d w).1 trivial
  | x => exact iff_of_true (prints_unsigned d w).2 trivial
  | o => exact octal_conversion d w
  | b => exact binary_conversion d w

/-- `%5d` with -5, `%d` with the least `int`, `%o` and `%b` with -1. -/
theorem integer_conversion_negative :
    ¬ Prints 100 (.five .none) (.word 0xFFFFFFFB)
      (IntConversion.d.usual (.five .none) (-5)) ∧
    ¬ Prints 100 .bare (.word 0x80000000)
      (IntConversion.d.usual .bare (-2 ^ 31)) ∧
    ¬ Prints 111 .bare (.word 0xFFFFFFFF)
      (IntConversion.o.usual .bare (-1)) ∧
    ¬ Prints 98 .bare (.word 0xFFFFFFFF)
      (IntConversion.b.usual .bare (-1)) := by
  refine ⟨fun h => ?_, fun h => ?_, fun h => ?_, fun h => ?_⟩
  · have hwide : 5 ≤ (numeral 10 5).length + 1 := ((decimal_conversion _ _).mp h).2 (by decide) rfl
    have hshort : (numeral 10 5).length ≤ 1 := by
      rw [length_numeral, length_lowDigits_le (by decide) (by decide)]
      decide
    omega
  · exact ((decimal_conversion _ _).mp h).1 rfl
  · exact absurd ((octal_conversion _ _).mp h) (by decide)
  · exact absurd ((binary_conversion _ _).mp h) (by decide)

end BareKernel.Text
