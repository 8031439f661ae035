import BareKernel.Userland.PrintNumbers
import Mathlib.Data.List.Forall2

/-!
# Scanning a string

`vsscanf` of `stdio.c`, and what it makes of values that were printed with the same format. Every
pointer of the argument list leads to a block of its own. Both strings are read through what is
left of them, without their `NUL`, and there is no result if one of them is read behind it, or if
an argument is missing or of the wrong kind.

A space in the format takes nothing from the string, so the second conversion stands before the
space that follows the first value; and `%s` stores to every second byte only.
-/

namespace BareKernel.Text

open ByteMemory ByteStrings Numerals
open Shell (CStr)

/-! ## The code -/

/-- What a pointer leads to, an `int` or characters. -/
inductive Block : Type where
  | int (value : Int32)
  | chars (m : Mem)

/-- The loop of `%s`: what is in the string's block, the place behind, and the rest of the
buffer. -/
def scanWord : CStr → Mem → ℕ → Mem × ℕ × CStr
  | [], m, p => (m, p, [])
  | c :: buffer, m, p =>
      if c ≠ spaceChar ∧ c ≠ 10 ∧ c ≠ 0 then scanWord buffer (Function.update m p c) (p + 2)
      else (m, p, c :: buffer)

/-- `%d`, with the digits read like those of a width. Without a digit or a minus sign, no argument
is taken. -/
def scanInt (buffer : CStr) : Option (Int32 × ℕ × CStr) :=
  if buffer.headD 0 ≠ minusSign ∧ ¬ (zeroChar ≤ buffer.headD 0 ∧ buffer.headD 0 ≤ nineChar) then
    none
  else
    let negative := buffer.headD 0 = minusSign
    let buffer := if negative then buffer.tail else buffer
    let (num, rest) := scanWidth 0 buffer
    some (num * (if negative then -1 else 1), if rest.length < buffer.length then 1 else 0, rest)

/-- The loop over the format. It tells how many conversions were read, and what the pointers lead to
after it. The buffer is `none` when `%c` took its `NUL`. -/
def vsscanf : CStr → Option CStr → List Block → Option (ℕ × List Block)
  | [], _, args => some (0, args)
  | [c], _, args => if c = percent then none else some (0, args)
  | c :: conversion :: format, buffer, args =>
      if c ≠ percent then vsscanf (conversion :: format) buffer args
      else if conversion = 100 then do
        let buffer ← buffer
        match scanInt buffer with
        | none => vsscanf format (some buffer) args
        | some (num, read, rest) =>
            match args with
            | .int _ :: args => do
                let (n, args) ← vsscanf format (some rest) args
                return (read + n, .int num :: args)
            | _ => none
      else if conversion = 99 then do
        let buffer ← buffer
        match args with
        | .chars m :: args => do
            let rest := if buffer = [] then none else some buffer.tail
            let (n, args) ← vsscanf format rest args
            return (1 + n, .chars (Function.update m 0 (buffer.headD 0)) :: args)
        | _ => none
      else if conversion = 115 then do
        let buffer ← buffer
        match args with
        | .chars m :: args => do
            let (m, p, rest) := scanWord buffer m 0
            let (n, args) ← vsscanf format (some rest) args
            return (1 + n, .chars (Function.update m p 0) :: args)
        | _ => none
      else vsscanf format buffer args

/-! ## What was printed -/

/-- A number of type `int` that is not negative, or a word. -/
inductive Item : Type where
  | number (n : ℕ) (fits : n < 2147483648)
  | word (w : CStr) (nonempty : w ≠ []) (plain : ∀ c ∈ w, c ≠ spaceChar ∧ c ≠ 0)

namespace Item

def conversion : Item → CStr
  | .number _ _ => [percent, 100]
  | .word _ _ _ => [percent, 115]

def text : Item → CStr
  | .number n _ => numeral 10 n
  | .word w _ _ => w

/-- Room for the value. -/
def Fits : Item → Block → Prop
  | .number _ _, .int _ => True
  | .word _ _ _, .chars _ => True
  | _, _ => False

/-- The value, a word with its terminator. -/
def Stored : Item → Block → Prop
  | .number n _, .int value => value.toInt = n
  | .word w _ _, .chars m => Holds m 0 (w ++ [0])
  | _, _ => False

end Item

/-- Texts with single spaces between them. -/
def joined : List CStr → CStr
  | [] => []
  | [s] => s
  | s :: s' :: texts => s ++ spaceChar :: joined (s' :: texts)

/-- **Scanning undoes printing**, whatever the blocks held before. -/
def ScansBack (items : List Item) : Prop :=
  ∀ args, List.Forall₂ Item.Fits items args → ∃ args',
    vsscanf (joined (items.map Item.conversion)) (some (joined (items.map Item.text))) args =
      some (items.length, args') ∧ List.Forall₂ Item.Stored items args'

/-! ## One conversion -/

variable {format buffer rest : CStr} {args : List Block} {m : Mem} {p n : ℕ}

theorem vsscanf_number {num : Int32} {read : ℕ} (h : scanInt buffer = some (num, read, rest))
    (v : Int32) :
    vsscanf (percent :: 100 :: format) (some buffer) (.int v :: args) =
      (vsscanf format (some rest) args).map fun r => (read + r.1, .int num :: r.2) := by
  rw [vsscanf, if_neg (by decide), if_pos rfl, Option.bind_eq_bind, Option.bind_some, h]
  cases hrest : vsscanf format (some rest) args with
  | none => simp [hrest]
  | some r => simp [hrest]

theorem vsscanf_noNumber (h : scanInt buffer = none) (args : List Block) :
    vsscanf (percent :: 100 :: format) (some buffer) args = vsscanf format (some buffer) args := by
  rw [vsscanf, if_neg (by decide), if_pos rfl, Option.bind_eq_bind, Option.bind_some, h]

theorem vsscanf_word (m : Mem) :
    vsscanf (percent :: 115 :: format) (some buffer) (.chars m :: args) =
    (vsscanf format (some (scanWord buffer m 0).2.2) args).map fun r =>
      (1 + r.1,
        .chars (Function.update (scanWord buffer m 0).1 (scanWord buffer m 0).2.1 0) :: r.2) := by
  rw [vsscanf, if_neg (by decide), if_neg (by decide), if_neg (by decide), if_pos rfl]
  cases hrest : vsscanf format (some (scanWord buffer m 0).2.2) args with
  | none => simp [hrest]
  | some r => simp [hrest]

/-- A space in the format takes nothing. -/
theorem vsscanf_space (format : CStr) (buffer : Option CStr) (args : List Block) :
    vsscanf (spaceChar :: format) buffer args = vsscanf format buffer args := by
  cases format with
  | nil => exact if_neg (by decide)
  | cons c format => rw [vsscanf, if_pos (by decide)]

/-- No number begins with a space. -/
theorem scanInt_space (rest : CStr) : scanInt (spaceChar :: rest) = none := by
  have hspace : spaceChar ≠ minusSign ∧ ¬ (zeroChar ≤ spaceChar ∧ spaceChar ≤ nineChar) := by decide
  exact if_pos hspace

theorem scanWord_space (rest : CStr) (m : Mem) (p : ℕ) :
    scanWord (spaceChar :: rest) m p = (m, p, spaceChar :: rest) := if_neg (by decide)

/-- Only cells from the place on are stored to. -/
theorem scanWord_below (buffer : CStr) (m : Mem) (p : ℕ) :
    p ≤ (scanWord buffer m p).2.1 ∧ ∀ x < p, (scanWord buffer m p).1 x = m x := by
  induction buffer generalizing m p with
  | nil => exact ⟨le_refl p, fun _ _ => rfl⟩
  | cons c buffer ih =>
      unfold scanWord
      split
      · obtain ⟨hle, hkept⟩ := ih (Function.update m p c) (p + 2)
        refine ⟨Nat.le_of_add_right_le hle, fun x hx => ?_⟩
        rw [hkept x (Nat.lt_add_right 2 hx)]
        exact Function.update_of_ne (Nat.ne_of_lt hx) _ _
      · exact ⟨le_refl p, fun _ _ => rfl⟩

/-- A numeral is read as its number. -/
theorem scanInt_numeral (fits : n < 2147483648)
    (hrest : ¬ (zeroChar ≤ rest.headD 0 ∧ rest.headD 0 ≤ nineChar)) :
    ∃ num, scanInt (numeral 10 n ++ rest) = some (num, 1, rest) ∧ num.toInt = n := by
  have hdigits : ∀ c ∈ numeral 10 n, zeroChar ≤ c ∧ c ≤ nineChar := by
    intro c hc
    obtain ⟨d, hd, rfl⟩ := mem_numeral (by decide) hc
    have hchar := digitChar_toNat (hd.trans (by decide))
    rw [if_pos hd] at hchar
    constructor
    · exact UInt8.le_iff_toNat_le.mpr (by rw [hchar]; exact Nat.le_add_left 48 d)
    · exact UInt8.le_iff_toNat_le.mpr
        (by rw [hchar]; exact Nat.add_le_add_right (Nat.le_of_lt_succ hd) 48)
  have hscan : scanWidth 0 (numeral 10 n ++ rest) = (Int32.ofNat n, rest) := by
    have hwidth := scanWidth_digits hdigits hrest 0
    have hvalue : (numeral 10 n).foldl (fun v c => v * 10 + charDigit c) 0 = n :=
      value_numeral (by decide) (by decide) n
    rw [hvalue] at hwidth
    exact hwidth
  obtain ⟨c, digits, hcons⟩ := List.exists_cons_of_ne_nil (numeral_ne_nil 10 n)
  rw [hcons] at hdigits hscan ⊢
  have hc := hdigits c List.mem_cons_self
  have hminus : ¬ c = minusSign := by
    rintro rfl
    exact absurd hc.1 (by decide)
  have hhead : ((c :: digits) ++ rest).headD 0 = c := rfl
  have hlong : rest.length < ((c :: digits) ++ rest).length := by simp
  refine ⟨Int32.ofNat n, ?_, Int32.toInt_ofNat_of_lt fits⟩
  unfold scanInt
  rw [hhead, if_neg (fun h => h.2 hc)]
  simp only [hminus, if_false, hscan, hlong, if_true, Int32.mul_one]

/-! ## Lists of values -/

/-- The format from one conversion on. -/
def formatFrom (items : List Item) : CStr := joined (items.map Item.conversion)

theorem formatFrom_cons (i : Item) (items : List Item) : formatFrom (i :: items) =
    i.conversion ++ if items = [] then [] else spaceChar :: formatFrom items := by
  cases items with
  | nil => exact (List.append_nil _).symm
  | cons i' items => rfl

/-- The next conversion is reached over a space, if there is one. -/
theorem vsscanf_next (items : List Item) (buffer : Option CStr) (args : List Block) :
    vsscanf (if items = [] then [] else spaceChar :: formatFrom items) buffer args =
      vsscanf (formatFrom items) buffer args := by
  split
  · rename_i h
    rw [h]
    rfl
  · exact vsscanf_space _ _ _

/-- **Before a space, a conversion takes nothing**: no number is read, and every word is empty. -/
theorem vsscanf_stuck (items : List Item) (rest : CStr) (args args' : List Block) {k : ℕ}
    (h : vsscanf (formatFrom items) (some (spaceChar :: rest)) args = some (k, args')) :
    k ≤ items.length := by
  induction items generalizing args args' k with
  | nil =>
      cases h
      exact le_refl _
  | cons i items ih =>
      rw [formatFrom_cons] at h
      cases i with
      | number n fits =>
          rw [Item.conversion, List.cons_append, List.cons_append, List.nil_append,
            vsscanf_noNumber (scanInt_space rest), vsscanf_next] at h
          exact Nat.le_succ_of_le (ih args args' h)
      | word w hne hplain =>
          rw [Item.conversion, List.cons_append, List.cons_append, List.nil_append] at h
          cases args with
          | nil => cases h
          | cons block args =>
              cases block with
              | int value => cases h
              | chars m =>
                  rw [vsscanf_word, scanWord_space, vsscanf_next] at h
                  obtain ⟨r, hr, heq⟩ := Option.map_eq_some_iff.mp h
                  obtain ⟨k', args''⟩ := r
                  cases heq
                  have hle := ih args args'' hr
                  rw [List.length_cons]
                  omega

/-- A block for every value, with the same byte everywhere in those of words. -/
def Item.blank (b : UInt8) : Item → Block
  | .number _ _ => .int 0
  | .word _ _ _ => .chars fun _ => b

theorem forall₂_blank (b : UInt8) (items : List Item) :
    List.Forall₂ Item.Fits items (items.map (Item.blank b)) := by
  induction items with
  | nil => exact .nil
  | cons i items ih =>
      refine .cons ?_ ih
      cases i <;> trivial

/-- **A word is not stored as it stands in the string**: its second byte is left out, or the word
ends before its first. -/
theorem not_stored_word {w : CStr} {hne : w ≠ []} {hplain : ∀ c ∈ w, c ≠ spaceChar ∧ c ≠ 0}
    {b : UInt8}
    (hb : (w ++ [0])[1]? ≠ some b) (rest : CStr) :
    ¬ (Item.word w hne hplain).Stored (.chars (Function.update
      (scanWord (w ++ rest) (fun _ => b) 0).1 (scanWord (w ++ rest) (fun _ => b) 0).2.1 0)) := by
  obtain ⟨c, w, rfl⟩ := List.exists_cons_of_ne_nil hne
  obtain ⟨hspace, hzero⟩ := hplain c List.mem_cons_self
  intro hstored
  have hlen : 1 < (c :: w ++ [0]).length := by simp
  have hfirst := holds_getElem hstored 0 (Nat.zero_lt_of_lt hlen)
  have hsecond := holds_getElem hstored 1 hlen
  have hget := List.getElem?_eq_getElem hlen
  rw [Nat.zero_add] at hfirst hsecond
  by_cases hend : c = 10
  · have hscan : scanWord (c :: w ++ rest) (fun _ => b) 0 = (fun _ => b, 0, c :: w ++ rest) :=
      if_neg fun h => h.2.1 hend
    rw [hscan, Function.update_self] at hfirst
    exact hzero hfirst.symm
  · have hscan : scanWord (c :: w ++ rest) (fun _ => b) 0 =
        scanWord (w ++ rest) (Function.update (fun _ => b) 0 c) 2 := if_pos ⟨hspace, hend, hzero⟩
    obtain ⟨hle, hkept⟩ := scanWord_below (w ++ rest) (Function.update (fun _ => b) 0 c) 2
    have hcell : (scanWord (w ++ rest) (Function.update (fun _ => b) 0 c) 2).1 1 = b := by
      rw [hkept 1 (by decide)]
      exact Function.update_of_ne (by decide) _ _
    rw [hscan, Function.update_of_ne (by omega), hcell] at hsecond
    rw [hget, ← hsecond] at hb
    exact hb rfl

/-- A byte that is not the second one. -/
theorem exists_other (w : CStr) : ∃ b : UInt8, (w ++ [0])[1]? ≠ some b := by
  by_cases h : (w ++ [0])[1]? = some 1
  · exact ⟨2, by rw [h]; decide⟩
  · exact ⟨1, h⟩

/-- **Scanning undoes printing** only for nothing and for a single number. -/
theorem vsscanf_scansBack (items : List Item) :
    ScansBack items ↔ items = [] ∨ ∃ n fits, items = [.number n fits] := by
  constructor
  · intro h
    cases items with
    | nil => exact .inl rfl
    | cons i items =>
        refine .inr ?_
        cases i with
        | word w hne hplain =>
            exfalso
            obtain ⟨b, hb⟩ := exists_other w
            obtain ⟨args', hrun, hstored⟩ := h _ (forall₂_blank b (.word w hne hplain :: items))
            obtain ⟨rest, htext⟩ :
                ∃ rest, joined ((Item.word w hne hplain :: items).map Item.text) =
                w ++ rest := by
              cases items with
              | nil => exact ⟨[], (List.append_nil w).symm⟩
              | cons i items => exact ⟨_, rfl⟩
            have hformat : joined ((Item.word w hne hplain :: items).map Item.conversion) =
              percent :: 115 ::
                if items = [] then [] else spaceChar :: formatFrom items := formatFrom_cons _ items
            rw [htext, hformat, List.map_cons, Item.blank, vsscanf_word] at hrun
            obtain ⟨r, -, heq⟩ := Option.map_eq_some_iff.mp hrun
            injection heq with _ hargs
            rw [← hargs] at hstored
            obtain ⟨hfirst, -⟩ := List.forall₂_cons.mp hstored
            exact not_stored_word hb rest hfirst
        | number n fits =>
            refine ⟨n, fits, ?_⟩
            cases items with
            | nil => rfl
            | cons i' items =>
                exfalso
                obtain ⟨args', hrun, hstored⟩ :=
                  h _ (forall₂_blank 1 (.number n fits :: i' :: items))
                have hends :
                    ¬ (zeroChar ≤ (spaceChar :: joined ((i' :: items).map Item.text)).headD 0 ∧
                    (spaceChar :: joined ((i' :: items).map Item.text)).headD 0 ≤ nineChar) := by
                  have hspace : ¬ (zeroChar ≤ spaceChar ∧ spaceChar ≤ nineChar) := by decide
                  exact hspace
                obtain ⟨num, hscan, -⟩ := scanInt_numeral fits hends
                change vsscanf (percent :: 100 :: spaceChar :: formatFrom (i' :: items))
                  (some (numeral 10 n ++ spaceChar :: joined ((i' :: items).map Item.text)))
                  (.int 0 :: (i' :: items).map (Item.blank 1)) = _ at hrun
                rw [vsscanf_number hscan, vsscanf_space] at hrun
                obtain ⟨⟨k, more⟩, hmore, heq⟩ := Option.map_eq_some_iff.mp hrun
                injection heq with hcount hargs
                rw [List.length_cons, List.length_cons] at hcount
                rw [formatFrom_cons] at hmore
                -- the second conversion stands before the space
                cases i' with
                | number n' fits' =>
                    rw [Item.conversion, List.cons_append, List.cons_append, List.nil_append,
                      vsscanf_noNumber (scanInt_space _), vsscanf_next] at hmore
                    have hle := vsscanf_stuck items _ _ _ hmore
                    omega
                | word w hne hplain =>
                    change vsscanf _ _ (.chars (fun _ => 1) :: items.map (Item.blank 1)) =
                      _ at hmore
                    rw [Item.conversion, List.cons_append, List.cons_append, List.nil_append,
                      vsscanf_word, scanWord_space] at hmore
                    obtain ⟨r, -, heq'⟩ := Option.map_eq_some_iff.mp hmore
                    injection heq' with _ hargs'
                    rw [← hargs, ← hargs'] at hstored
                    obtain ⟨-, htail⟩ := List.forall₂_cons.mp hstored
                    obtain ⟨hword, -⟩ := List.forall₂_cons.mp htail
                    obtain ⟨c, w, rfl⟩ := List.exists_cons_of_ne_nil hne
                    exact (hplain c List.mem_cons_self).2
                      (hword.1.symm.trans (Function.update_self _ _ _))
  · rintro (rfl | ⟨n, fits, rfl⟩)
    · rintro args ⟨⟩
      exact ⟨[], rfl, .nil⟩
    · rintro args hargs
      obtain ⟨block, rest, hblock, hrest, rfl⟩ := List.forall₂_cons_left_iff.mp hargs
      cases hrest
      cases block with
      | chars m => exact hblock.elim
      | int v =>
          have hend :
              ¬ (zeroChar ≤ ([] : CStr).headD 0 ∧ ([] : CStr).headD 0 ≤ nineChar) := by decide
          obtain ⟨num, hscan, hnum⟩ := scanInt_numeral fits hend
          rw [List.append_nil] at hscan
          refine ⟨[.int num], ?_, .cons hnum .nil⟩
          change vsscanf (percent :: 100 :: []) (some (numeral 10 n)) [.int v] = _
          rw [vsscanf_number hscan]
          rfl

/-- The word `ab`. -/
def wordAb : Item := .word [97, 98] (by simp) fun c hc => by
  rcases List.mem_cons.mp hc with rfl | hc
  · decide
  · rw [List.mem_singleton.mp hc]
    decide

/-- `%s` with `ab` stores `a`, nothing, `b`; and `%d %d` with `1 2` reads one number. -/
theorem vsscanf_scansBack_not : ¬ ScansBack [wordAb] ∧
    ¬ ScansBack [.number 1 (by decide), .number 2 (by decide)] := by
  constructor
  · intro h
    obtain ⟨args', hrun, hstored⟩ := h [.chars fun _ => 0] (.cons trivial .nil)
    injection hrun with hrun
    injection hrun with _ hargs
    rw [← hargs] at hstored
    obtain ⟨⟨-, hsecond, -⟩, -⟩ := List.forall₂_cons.mp hstored
    exact absurd hsecond (by decide)
  · intro h
    obtain ⟨args', hrun, -⟩ := h [.int 0, .int 0] (.cons trivial (.cons trivial .nil))
    have htwo : joined ([Item.number 1 (by decide), .number 2 (by decide)].map Item.text) =
      [49, 32, 50] := by
      decide +kernel
    rw [htwo] at hrun
    injection hrun with hrun
    injection hrun with hcount _
    exact absurd hcount (by decide)

end BareKernel.Text
