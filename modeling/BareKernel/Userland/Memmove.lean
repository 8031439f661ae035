import BareKernel.Userland.CommandLine
import Mathlib.Algebra.Order.Ring.Nat

/-!
# memmove

`memmove` of `Userland/libc/string.c`. Addresses are those of the machine, and a
range of them may wrap. Either loop reads bytes that it has not yet overwritten,
because of the direction in which it goes. `parse_pipe_command` moves its right
command over the spaces in front of it.
-/

namespace BareKernel.Text

/-- The bytes of the machine. -/
abbrev Memory : Type := UInt64 → UInt8

/-! ## Counters of type int -/

/-- A counter below another `int` can be increased. -/
theorem toInt_succ {i n : Int32} (h : i < n) : (i + 1).toInt = i.toInt + 1 := by
  have hlt := Int32.lt_iff_toInt_lt.mp h
  have hmax := n.toInt_lt
  have hmin := i.le_toInt
  rw [Int32.toInt_add]
  exact Int.bmod_eq_of_le (by change _ ≤ i.toInt + 1; omega) (by change i.toInt + 1 < _; omega)

/-- A counter that is not negative can be decreased. -/
theorem toInt_pred {i : Int32} (h : 0 ≤ i) : (i - 1).toInt = i.toInt - 1 := by
  have hle : 0 ≤ i.toInt := Int32.le_iff_toInt_le.mp h
  have hmax := i.toInt_lt
  rw [Int32.toInt_sub]
  exact Int.bmod_eq_of_le (by change _ ≤ i.toInt - 1; omega) (by change i.toInt - 1 < _; omega)

/-! ## The code -/

/-- The address of `p[i]`. -/
def element (p : UInt64) (i : Int32) : UInt64 := p + i.toInt64.toUInt64

/-- `d[i] = s[i]`. -/
def copyByte (d s : UInt64) (i : Int32) (m : Memory) : Memory :=
  Function.update m (element d i) (m (element s i))

/-- `for (; i < n; i++)`. -/
def copyForward (d s : UInt64) (n i : Int32) (m : Memory) : Memory :=
  if i < n then copyForward d s n (i + 1) (copyByte d s i m) else m
termination_by (n.toInt - i.toInt).toNat
decreasing_by
  rename_i hlt
  have hnext := toInt_succ hlt
  rw [Int32.lt_iff_toInt_lt] at hlt
  omega

/-- `for (; i >= 0; i--)`. -/
def copyBackward (d s : UInt64) (i : Int32) (m : Memory) : Memory :=
  if 0 ≤ i then copyBackward d s (i - 1) (copyByte d s i m) else m
termination_by (i.toInt + 1).toNat
decreasing_by
  rename_i hle
  have hnext := toInt_pred hle
  have hpos : 0 ≤ i.toInt := Int32.le_iff_toInt_le.mp hle
  omega

/-- The pointer that is returned, and the memory. -/
def memmove (dest src : UInt64) (n : Int32) (m : Memory) : UInt64 × Memory :=
  if dest = src ∨ n = 0 then (dest, m)
  else if dest < src then (dest, copyForward dest src n 0 m)
  else (dest, copyBackward dest src (n - 1) m)

/-! ## Ranges -/

/-- The byte `j` of a range. -/
def byteAt (p : UInt64) (j : ℕ) : UInt64 := p + UInt64.ofNat j

theorem byteAt_toNat {p : UInt64} {j k : ℕ} (h : p.toNat + k ≤ 2 ^ 64) (hj : j < k) :
    (byteAt p j).toNat = p.toNat + j := by
  unfold byteAt
  rw [UInt64.toNat_add, UInt64.toNat_ofNat']
  omega

/-- An index that is not negative is the number of a byte. -/
theorem element_eq {p : UInt64} {i : Int32} (h : 0 ≤ i.toInt) :
    element p i = byteAt p i.toInt.toNat := by
  have hindex : i.toInt64.toUInt64 = UInt64.ofNat i.toInt.toNat := by
    have hnat : i.toInt64 = Int64.ofNat i.toInt.toNat := by
      apply Int64.toInt_inj.mp
      have hmax := i.toInt_lt
      rw [Int32.toInt_toInt64, Int64.toInt_ofNat_of_lt (by omega)]
      omega
    rw [hnat, Int64.toUInt64_ofNat']
  rw [element, byteAt, hindex]

theorem copyByte_eq {d s : UInt64} {i : Int32} {m : Memory} (h : 0 ≤ i.toInt) :
    copyByte d s i m =
      Function.update m (byteAt d i.toInt.toNat) (m (byteAt s i.toInt.toNat)) := by
  rw [copyByte, element_eq h, element_eq h]

/-- The bytes with the numbers from `lo` up to `hi` are those of the other range, and
all the others are as before. -/
structure Moved (d s : UInt64) (lo hi : ℕ) (m m' : Memory) : Prop where
  copied : ∀ j, lo ≤ j → j < hi → m' (byteAt d j) = m (byteAt s j)
  kept : ∀ a, (∀ j, lo ≤ j → j < hi → a ≠ byteAt d j) → m' a = m a

section Directions

variable {d s : UInt64} {n i : Int32} {m m' : Memory} {k lo hi lo' hi' : ℕ}

theorem Moved.refl (h : hi ≤ lo) : Moved d s lo hi m m :=
  ⟨fun j hlo hhi => absurd hhi (by omega), fun _ _ => rfl⟩

/-- **One byte before the others**: it is none of those that are still written, and it
does not overwrite any that is still read. -/
theorem Moved.step (hrest : Moved d s lo' hi' (Function.update m (byteAt d k) (m (byteAt s k))) m')
    (hrange : ∀ j, lo ≤ j ∧ j < hi ↔ j = k ∨ lo' ≤ j ∧ j < hi')
    (hself : ∀ j, lo' ≤ j → j < hi' → byteAt d k ≠ byteAt d j)
    (hunread : ∀ j, lo' ≤ j → j < hi' → byteAt s j ≠ byteAt d k) : Moved d s lo hi m m' := by
  constructor
  · intro j hlo hhi
    rcases (hrange j).mp ⟨hlo, hhi⟩ with rfl | ⟨hlo', hhi'⟩
    · rw [hrest.kept _ hself, Function.update_self]
    · rw [hrest.copied j hlo' hhi', Function.update_of_ne (hunread j hlo' hhi')]
  · intro a ha
    have hk : a ≠ byteAt d k := by
      obtain ⟨hlo, hhi⟩ := (hrange k).mpr (.inl rfl)
      exact ha k hlo hhi
    rw [hrest.kept a fun j hlo' hhi' => ?_, Function.update_of_ne hk]
    obtain ⟨hlo, hhi⟩ := (hrange j).mpr (.inr ⟨hlo', hhi'⟩)
    exact ha j hlo hhi

/-- Two bytes of ranges that do not wrap. -/
theorem byteAt_ne {p q : UInt64} {j c : ℕ} (hp : p.toNat + c ≤ 2 ^ 64) (hq : q.toNat + c ≤ 2 ^ 64)
    (hj : j < c) (hk : k < c) (hne : p.toNat + j ≠ q.toNat + k) : byteAt p j ≠ byteAt q k := by
  intro heq
  apply hne
  rw [← byteAt_toNat hp hj, ← byteAt_toNat hq hk, heq]

/-- **Forwards**, the bytes still to be read lie behind the one just written. -/
theorem copyForward_moved (hdir : d < s) (hd : d.toNat + n.toInt.toNat ≤ 2 ^ 64)
    (hs : s.toNat + n.toInt.toNat ≤ 2 ^ 64) (hi : 0 ≤ i.toInt) :
    Moved d s i.toInt.toNat n.toInt.toNat m (copyForward d s n i m) := by
  have hbelow : d.toNat < s.toNat := UInt64.lt_iff_toNat_lt.mp hdir
  induction i, m using copyForward.induct (d := d) (s := s) (n := n) with
  | case1 i m hlt ih =>
      have hnext := toInt_succ hlt
      have hltInt := Int32.lt_iff_toInt_lt.mp hlt
      rw [copyForward, if_pos hlt]
      have hrest := ih (by omega)
      rw [copyByte_eq hi] at hrest ⊢
      apply hrest.step
      · intro j
        omega
      · intro j hlo hhi
        exact byteAt_ne hd hd (by omega) hhi (by omega)
      · intro j hlo hhi
        exact byteAt_ne hs hd hhi (by omega) (by omega)
  | case2 i m hge =>
      have hle := Int32.le_iff_toInt_le.mp (Int32.not_lt.mp hge)
      rw [copyForward, if_neg hge]
      exact Moved.refl (by omega)

/-- **Backwards**, they lie before it. -/
theorem copyBackward_moved {c : ℕ} (hdir : s < d) (hd : d.toNat + c ≤ 2 ^ 64)
    (hs : s.toNat + c ≤ 2 ^ 64) (hi : i.toInt < c) :
    Moved d s 0 (i.toInt + 1).toNat m (copyBackward d s i m) := by
  have habove : s.toNat < d.toNat := UInt64.lt_iff_toNat_lt.mp hdir
  induction i, m using copyBackward.induct (d := d) (s := s) with
  | case1 i m hle ih =>
      have hnext := toInt_pred hle
      have hpos : 0 ≤ i.toInt := Int32.le_iff_toInt_le.mp hle
      rw [copyBackward, if_pos hle]
      have hrest := ih (by omega)
      rw [copyByte_eq hpos] at hrest ⊢
      apply hrest.step
      · intro j
        omega
      · intro j hlo hhi
        exact byteAt_ne hd hd (by omega) (by omega) (by omega)
      · intro j hlo hhi
        exact byteAt_ne hs hd (by omega) (by omega) (by omega)
  | case2 i m hlt =>
      have hneg : i.toInt < 0 := Int32.lt_iff_toInt_lt.mp (Int32.not_le.mp hlt)
      rw [copyBackward, if_neg hlt]
      exact Moved.refl (by omega)

end Directions

/-- The whole range is moved, in the direction that suits it. -/
theorem memmove_moved (m : Memory) (dest src : UInt64) (n : Int32) (hn : 0 ≤ n)
    (hdest : dest.toNat + n.toInt.toNat ≤ 2 ^ 64) (hsrc : src.toNat + n.toInt.toNat ≤ 2 ^ 64) :
    Moved dest src 0 n.toInt.toNat m (memmove dest src n m).2 ∧
      (memmove dest src n m).1 = dest := by
  unfold memmove
  by_cases hnone : dest = src ∨ n = 0
  · rw [if_pos hnone]
    refine ⟨⟨fun j _ hj => ?_, fun _ _ => rfl⟩, rfl⟩
    rcases hnone with rfl | rfl
    · rfl
    · exact absurd hj (Nat.not_lt_zero j)
  · rw [if_neg hnone]
    rw [not_or] at hnone
    obtain ⟨hne, hzero⟩ := hnone
    by_cases hdir : dest < src
    · rw [if_pos hdir]
      have hstart : (0 : Int32).toInt = 0 := by decide
      have hmoved := copyForward_moved (m := m) (i := 0) hdir hdest hsrc
        (Int.le_of_eq hstart.symm)
      rw [hstart] at hmoved
      exact ⟨hmoved, rfl⟩
    · rw [if_neg hdir]
      have habove : src < dest := by
        rw [UInt64.lt_iff_toNat_lt] at hdir ⊢
        have hnat : dest.toNat ≠ src.toNat := fun heq => hne (UInt64.toNat_inj.mp heq)
        omega
      have hpred := toInt_pred hn
      have hnonneg : 0 ≤ n.toInt := Int32.le_iff_toInt_le.mp hn
      have hmoved := copyBackward_moved (m := m) habove hdest hsrc
        (show (n - 1).toInt < n.toInt.toNat by omega)
      have hlength : ((n - 1).toInt + 1).toNat = n.toInt.toNat := by omega
      rw [hlength] at hmoved
      exact ⟨hmoved, rfl⟩

/-- **memmove**: whatever the overlap, the bytes of the destination are those that were
at the source, and no other byte is changed. -/
theorem memmove_correct (m : Memory) (dest src : UInt64) (n : Int32) (hn : 0 ≤ n)
    (hdest : dest.toNat + n.toInt.toNat ≤ 2 ^ 64) (hsrc : src.toNat + n.toInt.toNat ≤ 2 ^ 64) :
    (memmove dest src n m).1 = dest ∧
    (∀ j < n.toInt.toNat, (memmove dest src n m).2 (dest + UInt64.ofNat j) =
      m (src + UInt64.ofNat j)) ∧
    ∀ a, (∀ j < n.toInt.toNat, a ≠ dest + UInt64.ofNat j) → (memmove dest src n m).2 a = m a := by
  obtain ⟨⟨hcopied, hkept⟩, hpointer⟩ := memmove_moved m dest src n hn hdest hsrc
  exact ⟨hpointer, fun j hj => hcopied j (Nat.zero_le j) hj,
    fun a ha => hkept a fun j _ hj => ha j hj⟩

/-- Three bytes that are moved up by one. -/
theorem memmove_correct_up : (memmove 1 0 3 fun a => a.toUInt8).2 3 = 2 := by
  have hmoved := (memmove_correct (fun a => a.toUInt8) 1 0 3 (by decide) (by decide)
    (by decide)).2.1 2 (by decide)
  exact hmoved

/-! ## The right command of a pipe -/

section RightCommand

open Shell

/-- The string from `p` on, with its terminator. -/
structure HasString (m : Memory) (p : UInt64) (s : CStr) : Prop where
  bytes : ∀ j (hj : j < s.length), m (byteAt p j) = s[j]
  terminator : m (byteAt p s.length) = 0
  nonzero : ∀ c ∈ s, c ≠ 0

/-- The loop that steps over the spaces, with the rounds it may take. -/
def skipSpaces (m : Memory) : ℕ → UInt64 → Option UInt64
  | 0, _ => none
  | rounds + 1, p => if isSpace (m p) then skipSpaces m rounds (p + 1) else some p

def strlenFrom (m : Memory) : ℕ → UInt64 → Option ℕ
  | 0, _ => none
  | rounds + 1, p => if m p = 0 then some 0 else (strlenFrom m rounds (p + 1)).map (· + 1)

/-- `parse_pipe_command`, where it trims the start of the right command. -/
def trimRightCommand (rounds : ℕ) (rightCmd : UInt64) (m : Memory) : Option Memory := do
  let rightStart ← skipSpaces m rounds rightCmd
  if rightStart ≠ rightCmd then
    let length ← strlenFrom m rounds rightStart
    some (memmove rightCmd rightStart (Int32.ofNat (length + 1)) m).2
  else some m

variable {m : Memory} {p : UInt64} {s : CStr} {rounds : ℕ}

theorem byteAt_zero (p : UInt64) : byteAt p 0 = p := UInt64.add_zero p

theorem byteAt_succ (p : UInt64) (j : ℕ) : byteAt (p + 1) j = byteAt p (j + 1) := by
  unfold byteAt
  rw [UInt64.ofNat_add, UInt64.add_assoc, UInt64.add_comm 1]
  rfl

theorem HasString.head (h : HasString m p s) : m p = s.headD 0 := by
  cases s with
  | nil =>
      have hend := h.terminator
      rwa [List.length_nil, byteAt_zero] at hend
  | cons c s =>
      have hfirst := h.bytes 0 (Nat.succ_pos _)
      rwa [byteAt_zero] at hfirst

theorem HasString.tail {c : UInt8} (h : HasString m p (c :: s)) : HasString m (p + 1) s := by
  refine ⟨fun j hj => ?_, ?_, fun b hb => h.nonzero b (List.mem_cons_of_mem c hb)⟩
  · rw [byteAt_succ]
    exact h.bytes (j + 1) (Nat.succ_lt_succ hj)
  · rw [byteAt_succ]
    exact h.terminator

/-- The loop stops at the first character that is no space. -/
theorem skipSpaces_eq (h : HasString m p s) (hrounds : s.length < rounds) :
    skipSpaces m rounds p = some (byteAt p (s.takeWhile isSpace).length) ∧
      HasString m (byteAt p (s.takeWhile isSpace).length) (s.dropWhile isSpace) := by
  induction rounds generalizing p s with
  | zero => exact absurd hrounds (Nat.not_lt_zero _)
  | succ rounds ih =>
      rw [skipSpaces, h.head]
      cases s with
      | nil => exact ⟨by rw [List.takeWhile_nil, List.length_nil, byteAt_zero]; rfl,
          by rw [List.takeWhile_nil, List.length_nil, byteAt_zero]; exact h⟩
      | cons c s =>
          rw [List.headD_cons]
          cases hc : isSpace c with
          | false =>
              rw [List.takeWhile_cons_of_neg (by rw [hc]; exact Bool.false_ne_true),
                List.dropWhile_cons_of_neg (by rw [hc]; exact Bool.false_ne_true),
                List.length_nil, byteAt_zero]
              exact ⟨rfl, h⟩
          | true =>
              obtain ⟨hskip, hrest⟩ := ih h.tail (Nat.lt_of_succ_lt_succ hrounds)
              rw [List.takeWhile_cons_of_pos hc, List.dropWhile_cons_of_pos hc,
                List.length_cons, ← byteAt_succ]
              exact ⟨hskip, hrest⟩

theorem strlenFrom_eq (h : HasString m p s) (hrounds : s.length < rounds) :
    strlenFrom m rounds p = some s.length := by
  induction rounds generalizing p s with
  | zero => exact absurd hrounds (Nat.not_lt_zero _)
  | succ rounds ih =>
      rw [strlenFrom, h.head]
      cases s with
      | nil => rfl
      | cons c s =>
          rw [List.headD_cons, if_neg (h.nonzero c List.mem_cons_self),
            ih h.tail (Nat.lt_of_succ_lt_succ hrounds)]
          rfl

/-- **The right command loses the spaces in front of it**, although it is moved over
itself. -/
theorem trimRightCommand_eq (h : HasString m p s) (hrounds : s.length < rounds)
    (hwrap : p.toNat + s.length + 1 ≤ 2 ^ 64) (hint : s.length + 1 < 2 ^ 31) :
    ∃ m', trimRightCommand rounds p m = some m' ∧ HasString m' p (s.dropWhile isSpace) ∧
      ∀ a, (∀ j ≤ s.length, a ≠ byteAt p j) → m' a = m a := by
  obtain ⟨hskip, hrest⟩ := skipSpaces_eq h hrounds
  have hlength : (s.takeWhile isSpace).length + (s.dropWhile isSpace).length = s.length := by
    rw [← List.length_append, List.takeWhile_append_dropWhile]
  unfold trimRightCommand
  rw [hskip, Option.bind_eq_bind, Option.bind_some]
  by_cases hnone : (s.takeWhile isSpace).length = 0
  · rw [hnone, byteAt_zero] at hrest ⊢
    exact ⟨m, by rw [if_neg (fun hne => hne rfl)], hrest, fun _ _ => rfl⟩
  · have hstart : (byteAt p (s.takeWhile isSpace).length).toNat =
        p.toNat + (s.takeWhile isSpace).length :=
      byteAt_toNat (k := s.length + 1) hwrap (by omega)
    have hne : byteAt p (s.takeWhile isSpace).length ≠ p := by
      intro heq
      rw [heq] at hstart
      omega
    have hn : (Int32.ofNat ((s.dropWhile isSpace).length + 1)).toInt =
        ((s.dropWhile isSpace).length + 1 : ℕ) := Int32.toInt_ofNat_of_lt (by omega)
    rw [if_pos hne, strlenFrom_eq hrest (by omega), Option.bind_eq_bind, Option.bind_some]
    obtain ⟨⟨hcopied, hkept⟩, _⟩ := memmove_moved m p
      (byteAt p (s.takeWhile isSpace).length) (Int32.ofNat ((s.dropWhile isSpace).length + 1))
      (by rw [Int32.le_iff_toInt_le, hn]; exact Int.natCast_nonneg _)
      (by rw [hn, Int.toNat_natCast]; omega) (by rw [hn, Int.toNat_natCast, hstart]; omega)
    rw [hn, Int.toNat_natCast] at hcopied hkept
    refine ⟨_, rfl, ⟨fun j hj => ?_, ?_, hrest.nonzero⟩, fun a ha => hkept a fun j _ hj => ?_⟩
    · exact (hcopied j (Nat.zero_le j) (Nat.lt_succ_of_lt hj)).trans (hrest.bytes j hj)
    · exact (hcopied _ (Nat.zero_le _) (Nat.lt_succ_self _)).trans hrest.terminator
    · exact ha j (by omega)

end RightCommand

end BareKernel.Text
