import BareKernel.Userland.CommandLine
import BareKernel.Userland.UintToBase
import Mathlib.Algebra.Order.Ring.Int

/-!
# Formatted output

`vfprintf` of `stdio.c`, with `parseANSI` of `ansiColors.c`. The format is read through what is
left of it, without the `NUL` that ends it; to move on behind that `NUL` is a fault, since the
code reads there next. Positions and lengths are natural numbers, and widths are of type `int`.
What goes to the kernel is kept in a list, without the descriptor, which is the same all the time.
-/

namespace BareKernel.Text

open ByteMemory ByteStrings Numerals
open Shell (CStr)

/-! ## The code -/

def esc : UInt8 := 27

def percent : UInt8 := 37

def minusSign : UInt8 := 45

def zeroChar : UInt8 := 48

def nineChar : UInt8 := 57

def spaceChar : UInt8 := 32

/-- A word of the argument list, or a pointer to a string. -/
inductive Arg : Type where
  | word (w : UInt64)
  | string (s : CStr)

/-- The system calls that `vfprintf` makes. -/
inductive Sys : Type where
  | write (bytes : List UInt8)
  | textColor (color : UInt32)
  | backgroundColor (color : UInt32)
deriving DecidableEq

/-- Why a call does not end as it should: the format is read behind its end, or for ever; an
argument is not there; a numeral does not fit the buffer. -/
inductive FormatFault : Type where
  | beyond
  | endless
  | argument
  | buffer
deriving DecidableEq

/-- The arguments that are left, the static buffer, and what went to the kernel so far. -/
structure Printer : Type where
  args : List Arg
  buffer : Mem
  sent : List Sys

namespace Printer

def write (P : Printer) (bytes : List UInt8) : Printer :=
  { P with sent := P.sent ++ [.write bytes] }

/-- `for (j = 0; j < n; j++) sys_write(fd, &c, 1)`. -/
def writeMany (P : Printer) (n : ℕ) (c : UInt8) : Printer :=
  { P with sent := P.sent ++ List.replicate n (.write [c]) }

def vaWord (P : Printer) : Except FormatFault (UInt64 × Printer) :=
  match P.args with
  | .word w :: args => .ok (w, { P with args })
  | _ => .error .argument

def vaString (P : Printer) : Except FormatFault (CStr × Printer) :=
  match P.args with
  | .string s :: args => .ok (s, { P with args })
  | _ => .error .argument

/-- The string that the buffer holds. -/
def text (P : Printer) : CStr := ((List.range bufferSize).map P.buffer).takeWhile (· ≠ 0)

/-- `len = uintToBase(value, buffer, base)`. -/
def uintToBase (P : Printer) (value : UInt64) (base : UInt32) : Except FormatFault (ℕ × Printer) :=
  match Text.uintToBase value P.buffer base with
  | .ok (digits, buffer) => .ok (digits.toNat, { P with buffer })
  | .error _ => .error .buffer

end Printer

/-- `fprintf(fd, str)` with no further arguments. -/
abbrev Fprintf : Type := CStr → Printer → Except FormatFault Printer

/-- What comes before the specifier. -/
structure Conversion : Type where
  leftAlign : Bool
  zeroPad : Bool
  width : Int32
  isLong : Bool

/-- The loop that reads the width. -/
def scanWidth : Int32 → CStr → Int32 × CStr
  | width, [] => (width, [])
  | width, c :: rest =>
      if zeroChar ≤ c ∧ c ≤ nineChar then scanWidth (width * 10 + Int32.ofNat (c.toNat - 48)) rest
      else (width, c :: rest)

/-- The conversion that begins behind a `%`, and the format from its specifier on. -/
def scanConversion (rest : CStr) : Conversion × CStr :=
  let leftAlign := rest.headD 0 = minusSign
  let zeroPad := rest.headD 0 = zeroChar
  let rest := if leftAlign ∨ zeroPad then rest.tail else rest
  let (width, rest) := scanWidth 0 rest
  let isLong := rest.headD 0 = 108
  let rest := if isLong then rest.tail else rest
  (⟨leftAlign, zeroPad, width, isLong⟩, rest)

/-- The padding around what a conversion prints, which the source has for each of them. -/
def printPadded (v : Conversion) (padChar : UInt8) (len : ℕ)
    (print : Printer → Except FormatFault Printer)
    (P : Printer) : Except FormatFault Printer :=
  if (len : ℤ) < v.width.toInt then do
    let padding := v.width.toInt.toNat - len
    let P ← print (if v.leftAlign then P else P.writeMany padding padChar)
    return if v.leftAlign then P.writeMany padding spaceChar else P
  else print P

/-- The padding of a number. -/
def Conversion.padChar (v : Conversion) : UInt8 := if v.zeroPad then zeroChar else spaceChar

def printX (fprintf : Fprintf) (v : Conversion) (P : Printer) : Except FormatFault Printer := do
  let (w, P) ← P.vaWord
  let (len, P) ← P.uintToBase (if v.isLong then w else w.toUInt32.toUInt64) 16
  printPadded v v.padChar len (fun P => fprintf P.text P) P

def printD (fprintf : Fprintf) (v : Conversion) (P : Printer) : Except FormatFault Printer := do
  let (w, P) ← P.vaWord
  let value := w.toUInt32.toInt32
  if value < 0 then
    let P := P.write [minusSign]
    let (len, P) ← P.uintToBase (-value).toInt64.toUInt64 10
    printPadded v v.padChar (len + 1) (fun P => fprintf P.text P) P
  else
    let (len, P) ← P.uintToBase value.toInt64.toUInt64 10
    printPadded v v.padChar len (fun P => fprintf P.text P) P

def printU (fprintf : Fprintf) (v : Conversion) (P : Printer) : Except FormatFault Printer := do
  let (w, P) ← P.vaWord
  let (len, P) ← P.uintToBase w.toUInt32.toUInt64 10
  printPadded v v.padChar len (fun P => fprintf P.text P) P

/-- `printBase(fd, va_arg(args, int), base)`. -/
def printBase (fprintf : Fprintf) (base : UInt32) (P : Printer) : Except FormatFault Printer := do
  let (w, P) ← P.vaWord
  let num := w.toUInt32.toInt32
  let P ← if num < 0 then fprintf [minusSign] P else .ok P
  let (_, P) ← P.uintToBase num.toInt64.toUInt64 base
  fprintf P.text P

def printC (P : Printer) : Except FormatFault Printer := do
  let (w, P) ← P.vaWord
  return P.write [w.toUInt8]

def printS (fprintf : Fprintf) (v : Conversion) (P : Printer) : Except FormatFault Printer := do
  let (s, P) ← P.vaString
  printPadded v spaceChar s.length (fun P => fprintf s P) P

/-- `switch (format[i])`, at the specifier. -/
def convert (fprintf : Fprintf) (v : Conversion) (c : UInt8) (P : Printer) :
    Except FormatFault Printer :=
  if c = 120 then printX fprintf v P
  else if c = 100 then printD fprintf v P
  else if c = 117 then printU fprintf v P
  else if c = 111 then printBase fprintf 8 P
  else if c = 98 then printBase fprintf 2 P
  else if c = 99 then printC P
  else if c = 115 then printS fprintf v P
  else if c = percent then .ok (P.write [percent])
  else .ok P

/-- What follows a `%`, up to the character behind the specifier. -/
def directive (fprintf : Fprintf) (rest : CStr) (P : Printer) :
    Except FormatFault (Printer × CStr) := do
  let (v, rest) := scanConversion rest
  let P ← convert fprintf v (rest.headD 0) P
  match rest with
  | [] => .error .beyond
  | _ :: rest => .ok (P, rest)

/-- 90 has no `break` and goes on with 91. -/
def setANSIProp (prop : UInt8) : List Sys :=
  let background := 40 ≤ prop ∧ prop ≤ 47 ∨ 100 ≤ prop ∧ prop ≤ 107
  let prop := if background then prop - 10 else prop
  let setFn : UInt32 → Sys := if background then .backgroundColor else .textColor
  if prop = 0 then [.textColor 0x00FFFFFF, .backgroundColor 0x00000000]
  else if prop = 30 then [setFn 0x00000000]
  else if prop = 31 then [setFn 0x00DE382B]
  else if prop = 32 then [setFn 0x0039B54A]
  else if prop = 33 then [setFn 0x00FFC706]
  else if prop = 34 then [setFn 0x00006FB8]
  else if prop = 35 then [setFn 0x00762671]
  else if prop = 36 then [setFn 0x002CB5E9]
  else if prop = 37 then [setFn 0x00CCCCCC]
  else if prop = 90 then [setFn 0x00808080, setFn 0x00FF0000]
  else if prop = 91 then [setFn 0x00FF0000]
  else if prop = 92 then [setFn 0x0000FF00]
  else if prop = 93 then [setFn 0x00FFFF00]
  else if prop = 94 then [setFn 0x000000FF]
  else if prop = 95 then [setFn 0x00FF00FF]
  else if prop = 96 then [setFn 0x0000FFFF]
  else if prop = 97 then [setFn 0x00FFFFFF]
  else []

/-- The loop of `parseANSI`. The `NUL` is taken for a digit, like every other character. -/
def scanProps : UInt8 → CStr → Except FormatFault (List Sys × CStr)
  | _, [] => .error .beyond
  | prop, c :: rest =>
      let calls := if c = 59 ∨ c = 109 then setANSIProp prop else []
      if c = 109 then .ok (calls, rest)
      else do
        let (more, rest) ← scanProps (if c = 59 then 0 else prop * 10 + (c - 48)) rest
        return (calls ++ more, rest)

/-- `string` begins with the escape character. -/
def parseANSI (string : CStr) : Except FormatFault (List Sys × CStr) :=
  if string.tail.headD 0 ≠ 91 ∨ string.tail.tail.headD 0 = 0 then .ok ([], string)
  else scanProps 0 string.tail.tail

/-- The loop over the format, with the number of rounds it may take, also in every call of
`fprintf`. -/
def vfprintf : ℕ → CStr → Printer → Except FormatFault Printer
  | 0, _, _ => .error .endless
  | _ + 1, [], P => .ok P
  | fuel + 1, c :: rest, P =>
      if c = esc then do
        let P := P.write []
        let (calls, rest) ← parseANSI (c :: rest)
        vfprintf fuel rest { P with sent := P.sent ++ calls }
      else if c = percent then do
        let fprintf : Fprintf := fun s P => do
          let P' ← vfprintf fuel s { P with args := [] }
          return { P' with args := P.args }
        let (P, rest) ← directive fprintf rest P
        vfprintf fuel rest P
      else vfprintf fuel rest (P.write [c])

/-! ## Plain text -/

/-- The bytes that went to `sys_write`. -/
def bytes (sent : List Sys) : List UInt8 :=
  sent.flatMap fun call => match call with
    | .write bytes => bytes
    | _ => []

@[simp] theorem bytes_nil : bytes [] = [] := rfl

@[simp] theorem bytes_append (sent sent' : List Sys) :
    bytes (sent ++ sent') = bytes sent ++ bytes sent' :=
  List.flatMap_append

@[simp] theorem bytes_write (s : List UInt8) : bytes [.write s] = s := List.append_nil s

@[simp] theorem bytes_writes (s : List UInt8) : bytes (s.map fun c => .write [c]) = s := by
  induction s with
  | nil => rfl
  | cons c s ih =>
      rw [List.map_cons, ← List.singleton_append, bytes_append, ih]
      rfl

@[simp] theorem bytes_replicate (n : ℕ) (c : UInt8) :
    bytes (List.replicate n (.write [c])) = List.replicate n c := by
  rw [← List.map_replicate (f := fun c => Sys.write [c]), bytes_writes]

/-- Text without conversions and colours. -/
def Plain (s : CStr) : Prop := ∀ c ∈ s, c ≠ esc ∧ c ≠ percent

variable {fuel : ℕ} {P : Printer} {s rest : CStr} {c : UInt8}

theorem vfprintf_char (hc : c ≠ esc ∧ c ≠ percent) :
    vfprintf (fuel + 1) (c :: rest) P = vfprintf fuel rest (P.write [c]) := by
  rw [vfprintf, if_neg hc.1, if_neg hc.2]

/-- **Plain text goes out as it is**, one byte at a time. -/
theorem vfprintf_plain (hs : Plain s) (hfuel : s.length < fuel) :
    vfprintf fuel s P = .ok { P with sent := P.sent ++ s.map fun c => .write [c] } := by
  induction s generalizing fuel P with
  | nil =>
      obtain ⟨fuel, rfl⟩ := Nat.exists_eq_add_one_of_ne_zero (Nat.ne_of_gt hfuel)
      rw [List.map_nil, List.append_nil]
      rfl
  | cons c s ih =>
      obtain ⟨fuel, rfl⟩ :=
        Nat.exists_eq_add_one_of_ne_zero (Nat.ne_of_gt (Nat.zero_lt_of_lt hfuel))
      have hrest : Plain s := fun c' hc' => hs c' (List.mem_cons_of_mem c hc')
      rw [vfprintf_char (hs c List.mem_cons_self), ih hrest (Nat.lt_of_succ_lt_succ hfuel)]
      unfold Printer.write
      dsimp only
      rw [List.append_assoc]
      rfl

/-- `fprintf` with no further arguments, as `vfprintf` calls it. -/
def fprintf (fuel : ℕ) : Fprintf := fun s P => do
  let P' ← vfprintf fuel s { P with args := [] }
  return { P' with args := P.args }

theorem vfprintf_directive (fuel : ℕ) (rest : CStr) (P : Printer) :
    vfprintf (fuel + 1) (percent :: rest) P = (do
      let (P, rest) ← directive (fprintf fuel) rest P
      vfprintf fuel rest P) := by
  rw [vfprintf, if_neg (by decide), if_pos rfl]
  rfl

theorem fprintf_plain (hs : Plain s) (hfuel : s.length < fuel) :
    fprintf fuel s P = .ok { P with sent := P.sent ++ s.map fun c => .write [c] } := by
  unfold fprintf
  rw [vfprintf_plain hs hfuel]
  rfl

/-! ## Directives -/

inductive Flag : Type where
  | none
  | left
  | zero
deriving DecidableEq

def Flag.text : Flag → CStr
  | .none => []
  | .left => [minusSign]
  | .zero => [zeroChar]

/-- Flag and width of a conversion. A width that begins with 0 has that for a flag, and a width is
an `int`. -/
structure Directive : Type where
  flag : Flag
  digits : CStr
  decimal : ∀ c ∈ digits, zeroChar ≤ c ∧ c ≤ nineChar
  first : flag = .none → digits.head? ≠ some zeroChar
  fits : value 10 digits < 2147483648

namespace Directive

variable (d : Directive)

def width : ℕ := value 10 d.digits

/-- What stands behind the `%`. -/
def text (specifier : UInt8) : CStr := d.flag.text ++ d.digits ++ [specifier]

/-- The conversion that is read from it. -/
def conversion : Conversion := ⟨d.flag = .left, d.flag = .zero, Int32.ofNat d.width, false⟩

/-- No flag and no width. -/
def bare : Directive where
  flag := .none
  digits := []
  decimal c hc := absurd hc List.not_mem_nil
  first _ := by decide
  fits := by decide +kernel

/-- A width of 5. -/
def five (flag : Flag) : Directive where
  flag := flag
  digits := [53]
  decimal c hc := by
    rw [List.mem_singleton.mp hc]
    decide
  first _ := by decide
  fits := by decide +kernel

theorem width_conversion : d.conversion.width.toInt = d.width := Int32.toInt_ofNat_of_lt d.fits

end Directive

/-- The digits of a width are read as a number. -/
theorem scanWidth_digits {digits : CStr} (hdigits : ∀ c ∈ digits, zeroChar ≤ c ∧ c ≤ nineChar)
    (hrest : ¬ (zeroChar ≤ rest.headD 0 ∧ rest.headD 0 ≤ nineChar)) (n : ℕ) :
    scanWidth (Int32.ofNat n) (digits ++ rest) =
      (Int32.ofNat (digits.foldl (fun v c => v * 10 + charDigit c) n), rest) := by
  induction digits generalizing n with
  | nil =>
      cases rest with
      | nil => rfl
      | cons c rest => exact if_neg hrest
  | cons c digits ih =>
      have hc := hdigits c List.mem_cons_self
      have hlt : c.toNat < 58 := Nat.lt_succ_of_le (UInt8.le_iff_toNat_le.mp hc.2)
      have hstep :
          Int32.ofNat n * 10 + Int32.ofNat (c.toNat - 48) = Int32.ofNat (n * 10 + charDigit c) := by
        rw [Int32.ofNat_add, Int32.ofNat_mul, charDigit, if_pos hlt]
        rfl
      rw [List.cons_append, scanWidth, if_pos hc, hstep, List.foldl_cons]
      exact ih (fun c' hc' => hdigits c' (List.mem_cons_of_mem c hc')) _

/-- A character that ends flags and width. -/
def EndsWidth (c : UInt8) : Prop := c ≠ minusSign ∧ ¬ (zeroChar ≤ c ∧ c ≤ nineChar) ∧ c ≠ 108

instance (c : UInt8) : Decidable (EndsWidth c) := inferInstanceAs (Decidable (_ ∧ _ ∧ _))

theorem scanConversion_directive (d : Directive) (hc : EndsWidth c) (rest : CStr) :
    scanConversion (d.text c ++ rest) = (d.conversion, c :: rest) := by
  obtain ⟨flag, digits, hdigits, hfirst, hfits⟩ := d
  obtain ⟨hminus, hdigit, hlong⟩ := hc
  have hends : ¬ (zeroChar ≤ (c :: rest).headD 0 ∧ (c :: rest).headD 0 ≤ nineChar) := hdigit
  have hwidth : scanWidth 0 (digits ++ c :: rest) = (Int32.ofNat (value 10 digits), c :: rest) :=
    scanWidth_digits hdigits hends 0
  unfold scanConversion Directive.text Directive.conversion Directive.width
  dsimp only
  rw [List.append_assoc, List.append_assoc, List.singleton_append]
  cases flag with
  | none =>
      -- the first character is no flag
      have hhead :
          (digits ++ c :: rest).headD 0 ≠ minusSign ∧ (digits ++ c :: rest).headD 0 ≠ zeroChar := by
        cases digits with
        | nil =>
            refine ⟨hminus, ?_⟩
            rintro rfl
            exact hdigit (by decide)
        | cons b digits =>
            refine ⟨?_, fun h => hfirst rfl (congrArg some h)⟩
            rintro rfl
            have hb := hdigits minusSign List.mem_cons_self
            exact absurd hb.1 (by decide)
      generalize hb : (digits ++ c :: rest).headD 0 = b at hhead
      rw [Flag.text, List.nil_append, hb, if_neg (by simpa using hhead), hwidth]
      simp [hhead.1, hhead.2, hlong]
  | left =>
      rw [Flag.text, List.singleton_append, if_pos (.inl rfl), List.tail_cons, hwidth]
      simp [hlong]
      decide
  | zero =>
      rw [Flag.text, List.singleton_append, if_pos (.inr rfl), List.tail_cons, hwidth]
      simp [hlong]
      decide

/-! ## What a conversion prints -/

/-- **A conversion prints a text**, wherever it stands: the call goes on behind it, with one
argument less, and has sent just these bytes. The number of rounds has to be large enough. -/
def Prints (specifier : UInt8) (d : Directive) (arg : Arg) (text : List UInt8) : Prop :=
  ∃ n, ∀ fuel ≥ n, ∀ rest args buffer sent, ∃ buffer' sent',
    vfprintf (fuel + 1) (percent :: (d.text specifier ++ rest)) ⟨arg :: args, buffer, sent⟩ =
      vfprintf fuel rest ⟨args, buffer', sent ++ sent'⟩ ∧ bytes sent' = text

variable {d : Directive} {arg : Arg} {t t' : List UInt8}

theorem vfprintf_conversion (hc : EndsWidth c) (fuel : ℕ) (rest : CStr) (P : Printer) :
    vfprintf (fuel + 1) (percent :: (d.text c ++ rest)) P = (do
      let P ← convert (fprintf fuel) d.conversion c P
      vfprintf fuel rest P) := by
  rw [vfprintf_directive, directive, scanConversion_directive d hc]
  dsimp only [List.headD_cons]
  cases convert (fprintf fuel) d.conversion c P with
  | error f => rfl
  | ok P' => rfl

theorem prints_of_convert (hc : EndsWidth c) (n : ℕ)
    (h : ∀ fuel ≥ n, ∀ args buffer sent, ∃ buffer' sent',
    convert (fprintf fuel) d.conversion c ⟨arg :: args, buffer, sent⟩ =
      .ok ⟨args, buffer', sent ++ sent'⟩ ∧ bytes sent' = t) : Prints c d arg t := by
  refine ⟨n, fun fuel hfuel rest args buffer sent => ?_⟩
  obtain ⟨buffer', sent', hconvert, hbytes⟩ := h fuel hfuel args buffer sent
  refine ⟨buffer', sent', ?_, hbytes⟩
  rw [vfprintf_conversion hc, hconvert]
  rfl

/-- What was printed can be seen at the end of a format that is nothing but the conversion. -/
theorem Prints.convert (hc : EndsWidth c) (h : Prints c d arg t) (buffer : Mem) :
    ∃ n, ∀ fuel ≥ n, ∃ P, Text.convert (fprintf fuel) d.conversion c ⟨[arg], buffer, []⟩ = .ok P ∧
      bytes P.sent = t := by
  obtain ⟨n, hn⟩ := h
  refine ⟨n + 1, fun fuel hfuel => ?_⟩
  obtain ⟨buffer', sent', heq, hbytes⟩ := hn fuel (Nat.le_of_succ_le hfuel) [] [] buffer []
  obtain ⟨fuel, rfl⟩ := Nat.exists_eq_add_one_of_ne_zero (Nat.ne_of_gt (Nat.zero_lt_of_lt hfuel))
  rw [vfprintf_conversion hc] at heq
  cases hconvert : Text.convert (fprintf (fuel + 1)) d.conversion c ⟨[arg], buffer, []⟩ with
  | error f =>
      rw [hconvert] at heq
      cases heq
  | ok P =>
      rw [hconvert] at heq
      injection heq with heq
      refine ⟨P, rfl, ?_⟩
      rw [heq]
      exact hbytes

/-- Only one text is printed. -/
theorem Prints.unique (hc : EndsWidth c) (h : Prints c d arg t) (h' : Prints c d arg t') :
    t = t' := by
  obtain ⟨n, hn⟩ := h.convert hc fun _ => 0
  obtain ⟨n', hn'⟩ := h'.convert hc fun _ => 0
  obtain ⟨P, hP, hbytes⟩ := hn (max n n') (le_max_left n n')
  obtain ⟨P', hP', hbytes'⟩ := hn' (max n n') (le_max_right n n')
  rw [hP] at hP'
  injection hP' with hsame
  rw [← hbytes, ← hbytes', hsame]

/-- A text with its padding. -/
def paddedText (left : Bool) (padChar : UInt8) (n : ℕ) (s : List UInt8) : List UInt8 :=
  if left then s ++ List.replicate n spaceChar else List.replicate n padChar ++ s

/-- **Padding**, around anything that is printed. -/
theorem printPadded_ok (v : Conversion) (padChar : UInt8) (len : ℕ)
    (print : Printer → Except FormatFault Printer) {calls : List Sys}
    (hprint : ∀ sent, print { P with sent } = .ok { P with sent := sent ++ calls }) :
    ∃ sent', printPadded v padChar len print P = .ok { P with sent := P.sent ++ sent' } ∧
      bytes sent' = paddedText v.leftAlign padChar (v.width.toInt.toNat - len) (bytes calls) := by
  unfold printPadded paddedText
  by_cases hlen : (len : ℤ) < v.width.toInt
  · rw [if_pos hlen]
    generalize v.width.toInt.toNat - len = n
    cases v.leftAlign with
    | true =>
        refine ⟨calls ++ List.replicate n (.write [spaceChar]), ?_, by simp⟩
        have hhere : print P = .ok { P with sent := P.sent ++ calls } := hprint P.sent
        change (do let P ← print P; return P.writeMany n spaceChar) = _
        rw [hhere, ← List.append_assoc]
        rfl
    | false =>
        refine ⟨List.replicate n (.write [padChar]) ++ calls, ?_, by simp⟩
        have hhere : print (P.writeMany n padChar) = .ok _ := hprint _
        simp only [Bool.false_eq_true, if_false]
        rw [hhere, ← List.append_assoc]
        rfl
  · have hnone : v.width.toInt.toNat - len = 0 := by omega
    refine ⟨calls, ?_, ?_⟩
    · rw [if_neg hlen]
      exact hprint P.sent
    · rw [hnone]
      simp

/-! ## Strings -/

theorem endsWidth_s : EndsWidth 115 := by decide

/-- A string without `%` is printed as it is. -/
theorem prints_plain (d : Directive) (hs : Plain s) : Prints 115 d (.string s)
    (paddedText (d.flag = .left) spaceChar (d.width - s.length) s) := by
  refine prints_of_convert endsWidth_s (s.length + 1) fun fuel hfuel args buffer sent => ?_
  have hprint : ∀ sent, fprintf fuel s ⟨args, buffer, sent⟩ =
      .ok ⟨args, buffer, sent ++ s.map fun c => .write [c]⟩ :=
    fun sent => fprintf_plain hs hfuel
  obtain ⟨sent', hpadded, hbytes⟩ := printPadded_ok (P := ⟨args, buffer, sent⟩) d.conversion
    spaceChar s.length (fun P => fprintf fuel s P) hprint
  refine ⟨buffer, sent', hpadded, ?_⟩
  rw [hbytes, d.width_conversion, bytes_writes]
  rfl

theorem scanWidth_suffix (width : Int32) (rest : CStr) : (scanWidth width rest).2 <:+ rest := by
  induction rest generalizing width with
  | nil => exact List.suffix_rfl
  | cons c rest ih =>
      unfold scanWidth
      split
      · exact (ih _).trans (List.suffix_cons c rest)
      · exact List.suffix_rfl

theorem scanConversion_suffix (rest : CStr) : (scanConversion rest).2 <:+ rest := by
  have htail : ∀ (p : Prop) [Decidable p] (s : CStr), (if p then s.tail else s) <:+ s := by
    intro p _ s
    split
    · exact List.tail_suffix s
    · exact List.suffix_rfl
  unfold scanConversion
  dsimp only
  exact (htail _ _).trans ((scanWidth_suffix 0 _).trans (htail _ rest))

/-- The specifiers that take a word. -/
def wordSpecifiers : List UInt8 := [120, 100, 117, 111, 98, 99]

/-- A conversion fails if its argument is not there. -/
theorem convert_missing {v : Conversion} (h : c ∈ wordSpecifiers ∧ P.vaWord = .error .argument ∨
    c = 115 ∧ P.vaString = .error .argument) (fprintf : Fprintf) :
    convert fprintf v c P = .error .argument := by
  rcases h with ⟨hc, hword⟩ | ⟨rfl, hstring⟩
  · simp only [wordSpecifiers, List.mem_cons, List.not_mem_nil, or_false] at hc
    rcases hc with rfl | rfl | rfl | rfl | rfl | rfl
    · change printX fprintf v P = _
      rw [printX, hword]
      rfl
    · change printD fprintf v P = _
      rw [printD, hword]
      rfl
    · change printU fprintf v P = _
      rw [printU, hword]
      rfl
    · change printBase fprintf 8 P = _
      rw [printBase, hword]
      rfl
    · change printBase fprintf 2 P = _
      rw [printBase, hword]
      rfl
    · change printC P = _
      rw [printC, hword]
      rfl
  · change printS fprintf v P = _
    rw [printS, hstring]
    rfl

/-- Other specifiers take no argument, and print at most one byte. -/
theorem convert_other (hword : c ∉ wordSpecifiers) (hstring : c ≠ 115) (fprintf : Fprintf)
    (v : Conversion) (P : Printer) : ∃ P', convert fprintf v c P = .ok P' ∧ P'.args = P.args ∧
      (bytes P'.sent).length ≤ (bytes P.sent).length + 1 := by
  simp only [wordSpecifiers, List.mem_cons, List.not_mem_nil, or_false, not_or] at hword
  obtain ⟨hx, hd, hu, ho, hb, hc⟩ := hword
  unfold convert
  rw [if_neg hx, if_neg hd, if_neg hu, if_neg ho, if_neg hb, if_neg hc, if_neg hstring]
  split
  · refine ⟨_, rfl, rfl, ?_⟩
    rw [Printer.write, bytes_append, List.length_append, bytes_write]
    exact le_refl _
  · exact ⟨P, rfl, rfl, Nat.le_succ _⟩

/-- Without arguments, a conversion prints at most one byte. -/
theorem convert_noArgs (hargs : P.args = []) (fprintf : Fprintf) (v : Conversion) (c : UInt8) :
    convert fprintf v c P = .error .argument ∨ ∃ P', convert fprintf v c P = .ok P' ∧ P'.args = [] ∧
      (bytes P'.sent).length ≤ (bytes P.sent).length + 1 := by
  have hword : P.vaWord = .error .argument := by
    unfold Printer.vaWord
    rw [hargs]
  have hstring : P.vaString = .error .argument := by
    unfold Printer.vaString
    rw [hargs]
  by_cases hc : c ∈ wordSpecifiers
  · exact .inl (convert_missing (.inl ⟨hc, hword⟩) fprintf)
  by_cases hs : c = 115
  · exact .inl (convert_missing (.inr ⟨hs, hstring⟩) fprintf)
  · obtain ⟨P', hP', hsame, hlen⟩ := convert_other hc hs fprintf v P
    exact .inr ⟨P', hP', hsame.trans hargs, hlen⟩

/-- **A `%` in a string gets lost**: as a format, a string with one prints less than its own
length, if it prints anything at all. -/
theorem vfprintf_percent (hesc : esc ∉ s) {P P' : Printer} (hargs : P.args = [])
    (h : vfprintf fuel s P = .ok P') : P'.args = [] ∧
      (bytes P'.sent).length + (if percent ∈ s then 1 else 0) ≤ (bytes P.sent).length +
        s.length := by
  induction fuel generalizing s P with
  | zero => cases h
  | succ fuel ih =>
      cases s with
      | nil =>
          cases h
          exact ⟨hargs, le_refl _⟩
      | cons c s =>
          have hne : c ≠ esc := fun h => hesc (h ▸ List.mem_cons_self)
          have hrest : esc ∉ s := fun h => hesc (List.mem_cons_of_mem c h)
          by_cases hc : c = percent
          · subst hc
            rw [vfprintf_directive] at h
            unfold directive at h
            have hsuffix := scanConversion_suffix s
            cases hscan : scanConversion s with
            | mk v after =>
                rw [hscan] at h hsuffix
                dsimp only at h hsuffix
                rcases convert_noArgs hargs (fprintf fuel) v (after.headD 0) with
                  hconvert | ⟨P₁, hconvert, hargs₁, hlen₁⟩
                · rw [hconvert] at h
                  cases h
                · rw [hconvert] at h
                  cases after with
                  | nil => cases h
                  | cons b after =>
                      have hsuf : after <:+ s := (List.suffix_cons b after).trans hsuffix
                      have hesc' : esc ∉ after := fun h => hrest (hsuf.subset h)
                      obtain ⟨hargs₂, hlen₂⟩ := ih hesc' hargs₁ h
                      refine ⟨hargs₂, ?_⟩
                      have hlong := hsuffix.length_le
                      rw [List.length_cons] at hlong
                      rw [if_pos List.mem_cons_self, List.length_cons]
                      omega
          · rw [vfprintf_char ⟨hne, hc⟩] at h
            obtain ⟨hargs', hlen⟩ := ih hrest (P := P.write [c]) hargs h
            refine ⟨hargs', ?_⟩
            have hmem : percent ∈ c :: s ↔ percent ∈ s := by simp [Ne.symm hc]
            rw [if_congr hmem rfl rfl, List.length_cons]
            rw [Printer.write, bytes_append, List.length_append, bytes_write,
              List.length_singleton] at hlen
            omega

/-- What padding adds to what is printed. -/
theorem printPadded_length {v : Conversion} {padChar : UInt8} {len : ℕ}
    {print : Printer → Except FormatFault Printer} {P P' : Printer} {k : ℕ}
    (hprint : ∀ P₁ P₂, print P₁ = .ok P₂ → (bytes P₂.sent).length < (bytes P₁.sent).length + k)
    (h : printPadded v padChar len print P = .ok P') :
    (bytes P'.sent).length < (bytes P.sent).length + (v.width.toInt.toNat - len) + k := by
  have hmany : ∀ (P : Printer) (n : ℕ) (c : UInt8),
      (bytes (P.writeMany n c).sent).length = (bytes P.sent).length + n := by
    intro P n c
    rw [Printer.writeMany, bytes_append, List.length_append, bytes_replicate, List.length_replicate]
  unfold printPadded at h
  split at h
  · generalize v.width.toInt.toNat - len = n at h ⊢
    dsimp only at h
    cases hleft : v.leftAlign with
    | true =>
        simp only [hleft, if_true] at h
        cases hprinted : print P with
        | error f =>
            rw [hprinted] at h
            cases h
        | ok P₂ =>
            rw [hprinted] at h
            cases h
            have hlen := hprint P P₂ hprinted
            rw [hmany]
            omega
    | false =>
        simp only [hleft, Bool.false_eq_true, if_false] at h
        cases hprinted : print (P.writeMany n padChar) with
        | error f =>
            rw [hprinted] at h
            cases h
        | ok P₂ =>
            rw [hprinted] at h
            cases h
            have hlen := hprint _ _ hprinted
            rw [hmany] at hlen
            exact hlen
  · have hlen := hprint P P' h
    omega

/-- **`%s` prints its argument literally** exactly if there is no `%` in it. -/
theorem string_conversion (d : Directive) (s : CStr) (hs : esc ∉ s) : Prints 115 d (.string s)
    (paddedText (d.flag = .left) spaceChar (d.width - s.length) s) ↔ percent ∉ s := by
  constructor
  · intro h hmem
    obtain ⟨n, hn⟩ := h.convert endsWidth_s fun _ => 0
    obtain ⟨P, hP, hbytes⟩ := hn n (le_refl n)
    have hprint : ∀ P₁ P₂, fprintf n s P₁ = .ok P₂ →
        (bytes P₂.sent).length < (bytes P₁.sent).length + s.length := by
      intro P₁ P₂ h
      unfold fprintf at h
      cases hrun : vfprintf n s { P₁ with args := [] } with
      | error f =>
          rw [hrun] at h
          cases h
      | ok P₃ =>
          rw [hrun] at h
          cases h
          have hlen := (vfprintf_percent hs rfl hrun).2
          rw [if_pos hmem] at hlen
          exact hlen
    have hlen := printPadded_length (P := ⟨[], fun _ => 0, []⟩) hprint hP
    rw [hbytes, d.width_conversion, Int.toNat_natCast] at hlen
    unfold paddedText at hlen
    split at hlen
    · simp at hlen
      omega
    · simp at hlen
  · intro hmem
    exact prints_plain d fun c hc => ⟨fun h => hs (h ▸ hc), fun h => hmem (h ▸ hc)⟩

/-- `%-5s` with `ab`. -/
theorem string_conversion_left : Prints 115 (.five .left)
    (.string [97, 98]) (paddedText true spaceChar 3 [97, 98]) :=
  (string_conversion (.five .left) [97, 98] (by decide)).mpr (by decide)

/-- `%s` with `100%` reads behind the end of its argument. -/
theorem string_conversion_percent : ¬ Prints 115 .bare
    (.string [49, 48, 48, 37]) [49, 48, 48, 37] := by
  intro h
  obtain ⟨n, hn⟩ := h.convert endsWidth_s fun _ => 0
  obtain ⟨P, hP, -⟩ := hn (n + 5) (Nat.le_add_right n 5)
  have hbeyond : convert (fprintf (n + 5)) Directive.bare.conversion 115
      ⟨[.string [49, 48, 48, 37]], fun _ => 0, []⟩ = .error .beyond := rfl
  rw [hbeyond] at hP
  cases hP

end BareKernel.Text
