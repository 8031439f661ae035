import BareKernel.Lib.ByteMemory

/-!
# A fragment of x86-64

The registers, the stack and the interrupts of a CPU in long mode that never
leaves ring 0, with the instructions an interrupt handler is written in. A
handler is a list of instructions with forward jumps. Functions compiled from
another language are parameters: a call is one step, and `Abi` says what it
owes its caller. Only interrupts and returns write `rip`, which is where an
interrupted program goes on; an instruction does not count its own address.

The laws are about words on the stack: what a sequence of pushes leaves in
memory, what a sequence of pops takes from there, and that a frame of an
interrupt under the pushed registers is all of the context that was
interrupted.
-/

namespace X86

open ByteMemory

inductive Reg : Type where
  | rax | rbx | rcx | rdx | rsi | rdi | rbp | rsp
  | r8 | r9 | r10 | r11 | r12 | r13 | r14 | r15
deriving DecidableEq, Repr

/-- What the code that runs can see of the CPU. -/
@[ext]
structure Context where
  reg : Reg → UInt64
  rip : UInt64
  cs : UInt64
  rflags : UInt64
  ss : UInt64

/-- The CPU with its memory, and the bytes written to ports, the latest first. -/
structure Cpu extends Context where
  mem : Mem
  ports : List (UInt8 × UInt8)

/-! ## Words of memory -/

def word (m : Mem) (a : ℕ) : UInt64 := UInt64.ofNat (load m a 8)

def putWord (m : Mem) (a : ℕ) (v : UInt64) : Mem := store m a 8 v.toNat

theorem word_putWord (m : Mem) (a : ℕ) (v : UInt64) : word (putWord m a v) a = v := by
  have hv : v.toNat < 256 ^ 8 := v.toNat_lt
  rw [word, putWord, load_store_eq m hv, UInt64.ofNat_toNat]

theorem word_putWord_disjoint (m : Mem) {a b : ℕ} (h : b + 8 ≤ a ∨ a + 8 ≤ b) (v : UInt64) :
    word (putWord m a v) b = word m b := by
  rw [word, putWord, load_store_disjoint m h, word]

theorem putWord_outside (m : Mem) {a x : ℕ} (h : x < a ∨ a + 8 ≤ x) (v : UInt64) :
    putWord m a v x = m x :=
  store_outside m h

theorem word_congr {m m' : Mem} {a : ℕ} (h : AgreeOn m m' a 8) : word m' a = word m a := by
  rw [word, load_congr h, word]

theorem toNat_offset {a n : UInt64} (h : a.toNat + n.toNat < 2 ^ 64) :
    (a + n).toNat = a.toNat + n.toNat := by
  rw [UInt64.toNat_add]
  exact Nat.mod_eq_of_lt h

/-- The words from `a` on. -/
def Words (m : Mem) : ℕ → List UInt64 → Prop
  | _, [] => True
  | a, w :: ws => word m a = w ∧ Words m (a + 8) ws

theorem Words.congr {m m' : Mem} : ∀ {ws : List UInt64} {a : ℕ},
    Words m a ws → AgreeOn m m' a (8 * ws.length) → Words m' a ws
  | [], _, _, _ => trivial
  | w :: ws, a, ⟨hw, hws⟩, h => by
      rw [List.length_cons] at h
      refine ⟨?_, hws.congr (h.mono (Nat.le_add_right a 8) (by omega))⟩
      rw [← hw]
      exact word_congr (h.mono (le_refl a) (by omega))

theorem words_append {m : Mem} : ∀ {ws ws' : List UInt64} {a : ℕ},
    Words m a (ws ++ ws') ↔ Words m a ws ∧ Words m (a + 8 * ws.length) ws'
  | [], ws', a => by simp [Words]
  | w :: ws, ws', a => by
      have hnext : a + 8 + 8 * ws.length = a + 8 * (w :: ws).length := by
        rw [List.length_cons]
        omega
      rw [List.cons_append, Words, Words, words_append, hnext, and_assoc]

/-- One of the words. -/
theorem Words.get {m : Mem} : ∀ {ws : List UInt64} {a : ℕ}, Words m a ws →
    ∀ (i : ℕ) (hi : i < ws.length), word m (a + 8 * i) = ws[i]
  | w :: ws, a, ⟨hw, hws⟩, 0, _ => hw
  | w :: ws, a, ⟨hw, hws⟩, i + 1, hi => by
      have hnext : a + 8 * (i + 1) = a + 8 + 8 * i := by ring
      rw [hnext, List.getElem_cons_succ]
      exact hws.get i (Nat.lt_of_succ_lt_succ hi)

/-- The memory after words were written from `a` on. -/
def putWords : Mem → ℕ → List UInt64 → Mem
  | m, _, [] => m
  | m, a, w :: ws => putWords (putWord m a w) (a + 8) ws

theorem putWords_append : ∀ (ws ws' : List UInt64) (m : Mem) (a : ℕ),
    putWords m a (ws ++ ws') = putWords (putWords m a ws) (a + 8 * ws.length) ws'
  | [], ws', m, a => by simp [putWords]
  | w :: ws, ws', m, a => by
      have hnext : a + 8 + 8 * ws.length = a + 8 * (w :: ws).length := by
        rw [List.length_cons]
        omega
      rw [List.cons_append, putWords, putWords, putWords_append, hnext]

theorem putWords_outside : ∀ {ws : List UInt64} {m : Mem} {a x : ℕ},
    x < a ∨ a + 8 * ws.length ≤ x → putWords m a ws x = m x
  | [], _, _, _, _ => rfl
  | w :: ws, m, a, x, h => by
      rw [List.length_cons] at h
      rw [putWords, putWords_outside (by omega), putWord_outside m (by omega)]

/-- **Words that were written are there.** -/
theorem words_putWords : ∀ (ws : List UInt64) (m : Mem) (a : ℕ), Words (putWords m a ws) a ws
  | [], _, _ => trivial
  | w :: ws, m, a => by
      refine ⟨?_, words_putWords ws _ (a + 8)⟩
      have hkeep : AgreeOn (putWord m a w) (putWords m a (w :: ws)) a 8 :=
        fun x _ hx => putWords_outside (.inl hx)
      rw [word_congr hkeep, word_putWord]

/-- `n` words from `a` to `d`, the lowest first. -/
def copyWords : ℕ → Mem → ℕ → ℕ → Mem
  | 0, m, _, _ => m
  | n + 1, m, d, a => copyWords n (putWord m d (word m a)) (d + 8) (a + 8)

/-- **Copying** between places that share no byte. -/
theorem copyWords_eq : ∀ {ws : List UInt64} {m : Mem} {d a : ℕ}, Words m a ws →
    d + 8 * ws.length ≤ a ∨ a + 8 * ws.length ≤ d → copyWords ws.length m d a = putWords m d ws
  | [], _, _, _, _, _ => rfl
  | w :: ws, m, d, a, ⟨hw, hws⟩, h => by
      rw [List.length_cons] at h
      have hrest : Words (putWord m d w) (a + 8) ws := by
        apply hws.congr
        intro x hx hx'
        exact putWord_outside m (by omega) w
      rw [List.length_cons, copyWords, hw, copyWords_eq hrest (by omega), putWords]

theorem word_putWords {ws : List UInt64} {m : Mem} {a b : ℕ}
    (h : b + 8 ≤ a ∨ a + 8 * ws.length ≤ b) : word (putWords m a ws) b = word m b :=
  word_congr fun _ _ _ => putWords_outside (by omega)

/-! ## Registers and flags -/

namespace Cpu

def rsp (c : Cpu) : UInt64 := c.reg .rsp

def set (c : Cpu) (r : Reg) (v : UInt64) : Cpu :=
  { c with reg := Function.update c.reg r v }

@[simp] theorem set_mem (c : Cpu) (r : Reg) (v : UInt64) : (c.set r v).mem = c.mem := rfl

@[simp] theorem set_reg (c : Cpu) (r s : Reg) (v : UInt64) :
    (c.set r v).reg s = if s = r then v else c.reg s :=
  Function.update_apply _ _ _ _

theorem set_rsp (c : Cpu) {r : Reg} (hr : r ≠ .rsp) (v : UInt64) : (c.set r v).rsp = c.rsp :=
  Function.update_of_ne (Ne.symm hr) _ _

end Cpu

/-- The flags that arithmetic writes: CF, PF, AF, ZF, SF and OF. -/
def statusFlags : UInt64 := 0x8D5

def zeroFlag : UInt64 := 0x40

def interruptFlag : UInt64 := 0x200

/-- What a gate of an interrupt clears: TF, IF, NT and RF. -/
def gateFlags : UInt64 := 0x14300

/-- RF, which a fault sets in the flags that it saves. -/
def resumeFlag : UInt64 := 0x10000

def flagIf (p : Prop) [Decidable p] (bit : UInt64) : UInt64 := if p then bit else 0

/-- The low byte has an even number of ones. -/
def evenParity (v : UInt64) : Prop :=
  let x := v ^^^ (v >>> 4)
  let x := x ^^^ (x >>> 2)
  (x ^^^ (x >>> 1)) &&& 1 = 0

instance (v : UInt64) : Decidable (evenParity v) := inferInstanceAs (Decidable (_ = _))

/-- The flags other than `ZF` after an operation on `a` and `b` with result `r`,
with the carry and the overflow it had. -/
def restFlags (a b r carry overflow : UInt64) : UInt64 :=
  carry ||| flagIf (evenParity r) 0x4 ||| ((a ^^^ b ^^^ r) &&& 0x10) |||
    flagIf (r >>> 63 ≠ 0) 0x80 ||| overflow

def withStatus (rflags r rest : UInt64) : UInt64 :=
  rflags &&& ~~~statusFlags ||| rest &&& ~~~zeroFlag ||| flagIf (r = 0) zeroFlag

def subFlags (rflags a b : UInt64) : UInt64 :=
  let r := a - b
  withStatus rflags r (restFlags a b r (flagIf (a < b) 0x1)
    (flagIf (((a ^^^ b) &&& (a ^^^ r)) >>> 63 ≠ 0) 0x800))

def addFlags (rflags a b : UInt64) : UInt64 :=
  let r := a + b
  withStatus rflags r (restFlags a b r (flagIf (r < a) 0x1)
    (flagIf (((a ^^^ r) &&& (b ^^^ r)) >>> 63 ≠ 0) 0x800))

theorem or_and_right (a b c : UInt64) : (a ||| b) &&& c = a &&& c ||| b &&& c := by
  apply UInt64.toBitVec_inj.mp
  ext i
  simp [Bool.and_or_distrib_right]

/-- The low byte after it was written, which is `al` for `rax`. -/
theorem setByte_low (x : UInt64) (v : UInt8) : (x &&& ~~~0xFF ||| v.toUInt64).toUInt8 = v := by
  apply UInt8.toBitVec_inj.mp
  ext i hi
  simp

/-- A comparison sets `ZF` exactly when the operands are equal. -/
theorem subFlags_zero (rflags a b : UInt64) : subFlags rflags a b &&& zeroFlag ≠ 0 ↔ a = b := by
  have hbits : ∀ rest, withStatus rflags (a - b) rest &&& zeroFlag =
      flagIf (a - b = 0) zeroFlag := by
    intro rest
    have hold : rflags &&& ~~~statusFlags &&& zeroFlag = 0 := by
      have hnone : ~~~statusFlags &&& zeroFlag = 0 := by decide
      rw [UInt64.and_assoc, hnone, UInt64.and_zero]
    have hrest : rest &&& ~~~zeroFlag &&& zeroFlag = 0 := by
      have hnone : ~~~zeroFlag &&& zeroFlag = 0 := by decide
      rw [UInt64.and_assoc, hnone, UInt64.and_zero]
    have hflag : flagIf (a - b = 0) zeroFlag &&& zeroFlag = flagIf (a - b = 0) zeroFlag := by
      unfold flagIf
      split
      · decide
      · decide
    rw [withStatus, or_and_right, or_and_right, hold, hrest, hflag]
    simp
  rw [subFlags, hbits, flagIf]
  have hzero : a - b = 0 ↔ a = b := by
    constructor
    · intro h
      have hback : a - b + b = b := by rw [h, UInt64.zero_add]
      rwa [UInt64.sub_add_cancel] at hback
    · rintro rfl
      exact UInt64.sub_self _
  split
  · rename_i h
    exact ⟨fun _ => hzero.mp h, fun _ => by decide⟩
  · rename_i h
    exact ⟨fun hne => absurd rfl hne, fun heq => absurd (hzero.mpr heq) h⟩

theorem map_regs {rs : List Reg} (hrsp : .rsp ∉ rs) {f g : Reg → UInt64}
    (h : ∀ r, r ≠ .rsp → f r = g r) : rs.map f = rs.map g := by
  apply List.map_congr_left
  rintro r hr
  apply h
  rintro rfl
  exact hrsp hr

/-! ## The stack -/

/-- What the CPU pushes when it takes an interrupt, the last word first. -/
def Context.frame (k : Context) : List UInt64 :=
  [k.rip, k.cs, k.rflags, k.reg .rsp, k.ss]

/-- A context as a fault saves it. -/
def Context.faulting (k : Context) : Context := { k with rflags := k.rflags ||| resumeFlag }

/-- The words that hold all of a context: the registers over the frame. -/
def Context.saved (rs : List Reg) (k : Context) : List UInt64 :=
  (rs.map k.reg).reverse ++ k.frame

namespace Cpu

def push (c : Cpu) (v : UInt64) : Cpu :=
  let top := c.rsp - 8
  { c.set .rsp top with mem := putWord c.mem top.toNat v }

def pop (c : Cpu) (r : Reg) : Cpu :=
  (c.set .rsp (c.rsp + 8)).set r (word c.mem c.rsp.toNat)

/-- The registers of a list, one push after the other. -/
def pushAll (rs : List Reg) (c : Cpu) : Cpu := rs.foldl (fun c r => c.push (c.reg r)) c

def popAll (rs : List Reg) (c : Cpu) : Cpu := rs.foldl pop c

/-- `c'` is `c` after some pushes: `ws` lies on the stack, the last word that
was pushed at the top. -/
structure Pushed (c c' : Cpu) (ws : List UInt64) : Prop where
  top : c'.rsp.toNat + 8 * ws.length = c.rsp.toNat
  words : Words c'.mem c'.rsp.toNat ws
  outside : ∀ x, x < c'.rsp.toNat ∨ c.rsp.toNat ≤ x → c'.mem x = c.mem x
  ports : c'.ports = c.ports
  regs : ∀ r, r ≠ .rsp → c'.reg r = c.reg r

theorem Pushed.refl (c : Cpu) : Pushed c c [] :=
  ⟨by simp, trivial, fun _ _ => rfl, rfl, fun _ _ => rfl⟩

theorem push_rsp (c : Cpu) (v : UInt64) : (c.push v).rsp = c.rsp - 8 := by
  simp [push, rsp]

theorem push_mem (c : Cpu) (v : UInt64) : (c.push v).mem = putWord c.mem (c.rsp - 8).toNat v := rfl

/-- **One push.** -/
theorem Pushed.push {c c' : Cpu} {ws : List UInt64} (h : Pushed c c' ws)
    (hroom : 8 ≤ c'.rsp.toNat) (v : UInt64) : Pushed c (c'.push v) (v :: ws) := by
  have htop : (c'.rsp - 8).toNat + 8 = c'.rsp.toNat := by
    have hle : (8 : UInt64) ≤ c'.rsp := UInt64.le_iff_toNat_le.mpr (by simpa using hroom)
    rw [UInt64.toNat_sub_of_le _ _ hle]
    exact Nat.sub_add_cancel hroom
  have hbelow := h.top
  refine ⟨?_, ?_, ?_, h.ports, ?_⟩
  · rw [push_rsp, List.length_cons]
    omega
  · rw [push_rsp, push_mem]
    refine ⟨word_putWord _ _ _, ?_⟩
    rw [htop]
    apply h.words.congr
    intro x hx _
    exact putWord_outside _ (.inr (by omega)) v
  · intro x hx
    rw [push_rsp] at hx
    rw [push_mem, putWord_outside _ (by omega) v]
    exact h.outside x (by omega)
  · intro r hr
    rw [← h.regs r hr]
    exact Function.update_of_ne hr _ _

theorem pushAll_cons (r : Reg) (rs : List Reg) (c : Cpu) :
    pushAll (r :: rs) c = pushAll rs (c.push (c.reg r)) := rfl

/-- Pushes change no more of the context than `rsp`. -/
theorem pushAll_context : ∀ (rs : List Reg) (c : Cpu),
    (c.pushAll rs).toContext = { c.toContext with reg := (c.pushAll rs).reg }
  | [], _ => rfl
  | _ :: rs, c => by
      rw [pushAll_cons, pushAll_context rs]
      rfl

/-- **Pushing a list of registers.** -/
theorem Pushed.pushAll {c : Cpu} : ∀ {rs : List Reg} {c' : Cpu} {ws : List UInt64},
    Pushed c c' ws → .rsp ∉ rs → 8 * rs.length ≤ c'.rsp.toNat →
      Pushed c (c'.pushAll rs) ((rs.map c.reg).reverse ++ ws)
  | [], c', ws, h, _, _ => h
  | r :: rs, c', ws, h, hrsp, hroom => by
      obtain ⟨hr, hrs⟩ := not_or.mp (mt List.mem_cons.mpr hrsp)
      rw [List.length_cons] at hroom
      have hone : Pushed c (c'.push (c'.reg r)) (c'.reg r :: ws) := h.push (by omega) _
      have hall := hone.pushAll hrs (by
        have := hone.top
        have := h.top
        rw [List.length_cons] at *
        omega)
      rw [h.regs r (Ne.symm hr)] at hall
      rw [pushAll_cons, List.map_cons, List.reverse_cons, List.append_assoc]
      rw [h.regs r (Ne.symm hr)]
      exact hall

/-! ## Interrupts -/

/-- The stack pointer at an address that 16 divides. -/
def aligned (c : Cpu) : Cpu := c.set .rsp (c.rsp - c.rsp % 16)

/-- An interrupt through a gate with this selector and offset. -/
def interrupt (c : Cpu) (selector offset : UInt64) : Cpu :=
  let c' := ((((c.aligned.push c.ss).push c.rsp).push c.rflags).push c.cs).push c.rip
  { c' with rip := offset, cs := selector, rflags := c.rflags &&& ~~~gateFlags }

/-- A fault through a gate: an interrupt that saves the flags with RF set. -/
def fault (c : Cpu) (selector offset : UInt64) : Cpu :=
  ({ c with rflags := c.rflags ||| resumeFlag } : Cpu).interrupt selector offset

/-- The return from an interrupt. -/
def iretq (c : Cpu) : Cpu :=
  let a := c.rsp.toNat
  { c with
    reg := Function.update c.reg .rsp (word c.mem (a + 24))
    rip := word c.mem a
    cs := word c.mem (a + 8)
    rflags := word c.mem (a + 16)
    ss := word c.mem (a + 32) }

theorem iretq_reg (c : Cpu) (r : Reg) :
    c.iretq.reg r = if r = .rsp then word c.mem (c.rsp.toNat + 24) else c.reg r :=
  Function.update_apply _ _ _ _

theorem aligned_le (c : Cpu) : c.aligned.rsp.toNat ≤ c.rsp.toNat ∧
    c.rsp.toNat < c.aligned.rsp.toNat + 16 := by
  have hrsp : c.aligned.rsp = c.rsp - c.rsp % 16 := by simp [aligned, rsp]
  have hmod : (c.rsp % 16).toNat = c.rsp.toNat % 16 := by simp
  have hle : c.rsp % 16 ≤ c.rsp := by
    rw [UInt64.le_iff_toNat_le, hmod]
    exact Nat.mod_le _ _
  rw [hrsp, UInt64.toNat_sub_of_le _ _ hle, hmod]
  omega

/-- **An interrupt** leaves its frame on the stack, and the registers as they were. -/
theorem pushed_interrupt (c : Cpu) (selector offset : UInt64) (hroom : 56 ≤ c.rsp.toNat) :
    Pushed c.aligned (c.interrupt selector offset) c.frame := by
  have halign := c.aligned_le
  have hone := (Pushed.refl c.aligned).push (by omega) c.ss
  have htwo := hone.push (by have := hone.top; simp at *; omega) c.rsp
  have hthree := htwo.push (by have := htwo.top; simp at *; omega) c.rflags
  have hfour := hthree.push (by have := hthree.top; simp at *; omega) c.cs
  have hfive := hfour.push (by have := hfour.top; simp at *; omega) c.rip
  exact ⟨hfive.top, hfive.words, hfive.outside, hfive.ports, hfive.regs⟩

theorem interrupt_rsp (c : Cpu) (selector offset : UInt64) (hroom : 56 ≤ c.rsp.toNat) :
    (c.interrupt selector offset).rsp = c.aligned.rsp - 40 := by
  have htop := (pushed_interrupt c selector offset hroom).top
  have hlen : 8 * c.frame.length = (40 : UInt64).toNat := rfl
  have hle : (40 : UInt64) ≤ c.aligned.rsp := by
    rw [UInt64.le_iff_toNat_le, ← hlen]
    omega
  apply UInt64.toNat_inj.mp
  rw [UInt64.toNat_sub_of_le _ _ hle, ← hlen]
  omega

/-- **A fault** leaves the frame of an interrupt, with RF in its flags. -/
theorem pushed_fault (c : Cpu) (selector offset : UInt64) (hroom : 56 ≤ c.rsp.toNat) :
    Pushed c.aligned (c.fault selector offset) c.faulting.frame := by
  have hpush := pushed_interrupt { c with rflags := c.rflags ||| resumeFlag } selector offset hroom
  exact ⟨hpush.top, hpush.words, hpush.outside, hpush.ports, hpush.regs⟩

theorem fault_rsp (c : Cpu) (selector offset : UInt64) (hroom : 56 ≤ c.rsp.toNat) :
    (c.fault selector offset).rsp = c.aligned.rsp - 40 :=
  interrupt_rsp { c with rflags := c.rflags ||| resumeFlag } selector offset hroom

theorem popAll_cons (r : Reg) (rs : List Reg) (c : Cpu) :
    popAll (r :: rs) c = popAll rs (c.pop r) := rfl

/-- `c'` is `c` after the registers `rs` were popped, which get the values `v`. -/
structure Popped (c c' : Cpu) (rs : List Reg) (v : Reg → UInt64) : Prop where
  top : c'.rsp.toNat = c.rsp.toNat + 8 * rs.length
  mem : c'.mem = c.mem
  ports : c'.ports = c.ports
  regs : ∀ r, r ≠ .rsp → c'.reg r = if r ∈ rs then v r else c.reg r

/-- **Popping a list of registers.** -/
theorem popped_all {v : Reg → UInt64} : ∀ {rs : List Reg} {c : Cpu},
    Words c.mem c.rsp.toNat (rs.map v) → rs.Nodup → .rsp ∉ rs →
      c.rsp.toNat + 8 * rs.length < 2 ^ 64 → Popped c (c.popAll rs) rs v
  | [], c, _, _, _, _ => ⟨by simp [popAll], rfl, rfl, fun _ _ => by simp [popAll]⟩
  | r :: rs, c, ⟨hw, hws⟩, hnodup, hrsp, hroom => by
      obtain ⟨hr, hrs⟩ := not_or.mp (mt List.mem_cons.mpr hrsp)
      obtain ⟨hout, hnodup⟩ := List.nodup_cons.mp hnodup
      rw [List.length_cons] at hroom
      have hnext : (c.pop r).rsp.toNat = c.rsp.toNat + 8 := by
        have hval : (c.pop r).rsp = c.rsp + 8 := by simp [pop, rsp, hr]
        have height : (8 : UInt64).toNat = 8 := rfl
        rw [hval, toNat_offset (by omega), height]
      have hrest : Popped (c.pop r) ((c.pop r).popAll rs) rs v := by
        apply popped_all
        · rw [hnext]
          exact hws
        · exact hnodup
        · exact hrs
        · omega
      refine ⟨?_, hrest.mem, hrest.ports, fun q hq => ?_⟩
      · rw [popAll_cons, hrest.top, hnext, List.length_cons]
        omega
      · rw [popAll_cons, hrest.regs q hq]
        by_cases hqr : q = r
        · subst hqr
          rw [if_neg hout, if_pos List.mem_cons_self, ← hw]
          simp [pop]
        · simp [pop, hqr, hq]

/-- **The return from an interrupt** over the frame of a context: everything but
the registers comes from the frame. -/
theorem iretq_frame {c : Cpu} {k : Context} (h : Words c.mem c.rsp.toNat k.frame) :
    c.iretq.toContext = { k with reg := fun r => if r = .rsp then k.reg .rsp else c.reg r } := by
  obtain ⟨hrip, hcs, hflags, hsp, hss, _⟩ := h
  apply Context.ext
  · funext r
    show c.iretq.reg r = if r = .rsp then k.reg .rsp else c.reg r
    rw [iretq_reg]
    by_cases hr : r = .rsp
    · rw [if_pos hr, if_pos hr]
      exact hsp
    · rw [if_neg hr, if_neg hr]
  · exact hrip
  · exact hcs
  · exact hflags
  · exact hss

/-- **The way into a handler**: an interrupt and the pushes that follow leave all
of the context on the stack. -/
theorem pushed_saved (c : Cpu) (selector offset : UInt64) {rs : List Reg} (hrsp : .rsp ∉ rs)
    (hroom : 56 + 8 * rs.length ≤ c.rsp.toNat) :
    Pushed c.aligned ((c.interrupt selector offset).pushAll rs) (c.saved rs) := by
  have halign := c.aligned_le
  have hframe := pushed_interrupt c selector offset (by omega)
  have htop := hframe.top
  have hlen : c.frame.length = 5 := rfl
  have hpush := hframe.pushAll hrsp (by omega)
  have hregs : rs.map c.aligned.reg = rs.map c.reg :=
    map_regs hrsp fun _ hr => Function.update_of_ne hr _ _
  rwa [hregs] at hpush

/-- Popping registers that were pushed last, under which other words lie. -/
theorem popped_pushed {rs : List Reg} {c : Cpu} {v : Reg → UInt64} {ws : List UInt64}
    (hwords : Words c.mem c.rsp.toNat ((rs.map v).reverse ++ ws)) (hnodup : rs.Nodup)
    (hrsp : .rsp ∉ rs) (hroom : c.rsp.toNat + 8 * rs.length < 2 ^ 64) :
    Popped c (c.popAll rs.reverse) rs.reverse v ∧
      Words (c.popAll rs.reverse).mem (c.popAll rs.reverse).rsp.toNat ws := by
  obtain ⟨hregs, hrest⟩ := words_append.mp hwords
  rw [← List.map_reverse] at hregs
  have hpop : Popped c (c.popAll rs.reverse) rs.reverse v := by
    apply popped_all hregs
    · exact List.pairwise_reverse.mpr (hnodup.imp Ne.symm)
    · simpa using hrsp
    · simpa using hroom
  have htop : (c.popAll rs.reverse).rsp.toNat = c.rsp.toNat + 8 * rs.length := by
    simpa using hpop.top
  rw [List.length_reverse, List.length_map, ← htop, ← hpop.mem] at hrest
  exact ⟨hpop, hrest⟩

/-- **The way out of a handler**: popping what is saved of a context, then
returning, gives the context back. -/
theorem restored {rs : List Reg} {c : Cpu} {k : Context}
    (hsaved : Words c.mem c.rsp.toNat (k.saved rs)) (hnodup : rs.Nodup) (hrsp : .rsp ∉ rs)
    (hall : ∀ r, r ≠ .rsp → r ∈ rs) (hroom : c.rsp.toNat + 8 * rs.length < 2 ^ 64) :
    (c.popAll rs.reverse).iretq.toContext = k ∧ (c.popAll rs.reverse).iretq.mem = c.mem := by
  obtain ⟨hpop, hframe⟩ := popped_pushed hsaved hnodup hrsp hroom
  refine ⟨?_, hpop.mem⟩
  rw [iretq_frame hframe]
  apply Context.ext
  · funext r
    by_cases hr : r = .rsp
    · simp [hr]
    · simp [hr, hpop.regs r hr, hall r hr]
  · rfl
  · rfl
  · rfl
  · rfl

end Cpu

/-! ## Code -/

/-- The instructions of a handler; `call` is a function that comes from elsewhere
and works on the CPU and on a state of its own. The target of a jump is the
number of instructions it jumps over. -/
inductive Instr (σ : Type) : Type where
  | push (r : Reg)
  | pushImm (v : UInt64)
  | pushfq
  | pop (r : Reg)
  | mov (d s : Reg)
  | movImm (d : Reg) (v : UInt64)
  | movByte (d : Reg) (v : UInt8)
  | load (d base : Reg) (off : UInt64)
  | store (base : Reg) (off : UInt64) (s : Reg)
  | storeImm (base : Reg) (off v : UInt64)
  | storeAt (a : UInt64) (s : Reg)
  | storeByteAt (a : UInt64) (v : UInt8)
  | addImm (d : Reg) (v : UInt64)
  | cmpImm (d : Reg) (v : UInt64)
  | jne (n : ℕ)
  | out (port : UInt8)
  | cli
  | sti
  | call (f : Cpu × σ → Cpu × σ)
  | ret
  | iretq

/-- A piece of code. -/
abbrev Code (σ : Type) : Type := List (Instr σ)

namespace Instr

variable {σ : Type}

/-- One instruction that does not jump. -/
def exec : Instr σ → Cpu → Cpu
  | .push r, c => c.push (c.reg r)
  | .pushImm v, c => c.push v
  | .pushfq, c => c.push c.rflags
  | .pop r, c => c.pop r
  | .mov d s, c => c.set d (c.reg s)
  | .movImm d v, c => c.set d v
  | .movByte d v, c => c.set d (c.reg d &&& ~~~0xFF ||| v.toUInt64)
  | .load d base off, c => c.set d (word c.mem (c.reg base + off).toNat)
  | .store base off s, c => { c with mem := putWord c.mem (c.reg base + off).toNat (c.reg s) }
  | .storeImm base off v, c => { c with mem := putWord c.mem (c.reg base + off).toNat v }
  | .storeAt a s, c => { c with mem := putWord c.mem a.toNat (c.reg s) }
  | .storeByteAt a v, c => { c with mem := ByteMemory.store c.mem a.toNat 1 v.toNat }
  | .addImm d v, c => { c.set d (c.reg d + v) with rflags := addFlags c.rflags (c.reg d) v }
  | .cmpImm d v, c => { c with rflags := subFlags c.rflags (c.reg d) v }
  | .out port, c => { c with ports := (port, (c.reg .rax).toUInt8) :: c.ports }
  | .cli, c => { c with rflags := c.rflags &&& ~~~interruptFlag }
  | .sti, c => { c with rflags := c.rflags ||| interruptFlag }
  | .ret, c => { c.set .rsp (c.rsp + 8) with rip := word c.mem c.rsp.toNat }
  | .iretq, c => c.iretq
  | .jne _, c | .call _, c => c

/-- A list of instructions, of which the next `skip` are jumped over. -/
def run : List (Instr σ) → ℕ → Cpu × σ → Cpu × σ
  | [], _, m => m
  | _ :: is, skip + 1, m => run is skip m
  | .jne n :: is, 0, m => run is (if m.1.rflags &&& zeroFlag ≠ 0 then 0 else n) m
  | .call f :: is, 0, m => run is 0 (f m)
  | i :: is, 0, m => run is 0 (i.exec m.1, m.2)

/-- Neither a jump nor a call. -/
def plain : Instr σ → Bool
  | .jne _ | .call _ => false
  | _ => true

/-- Instructions without jumps and calls, one after the other. -/
def execAll (is : List (Instr σ)) (c : Cpu) : Cpu := is.foldl (fun c i => i.exec c) c

theorem execAll_append (is js : List (Instr σ)) (c : Cpu) :
    execAll (is ++ js) c = execAll js (execAll is c) :=
  List.foldl_append

theorem execAll_push (rs : List Reg) (c : Cpu) :
    execAll (rs.map .push : List (Instr σ)) c = c.pushAll rs :=
  List.foldl_map

theorem execAll_pop (rs : List Reg) (c : Cpu) :
    execAll (rs.map .pop : List (Instr σ)) c = c.popAll rs :=
  List.foldl_map

/-- `mov [a + 8 * i], r` for the registers of a list, from the index `i` on. -/
def storeRegs (a : UInt64) : ℕ → List Reg → Code σ
  | _, [] => []
  | i, r :: rs => .storeAt (a + 8 * UInt64.ofNat i) r :: storeRegs a (i + 1) rs

theorem execAll_storeRegs {a : UInt64} : ∀ {rs : List Reg} {i : ℕ} {c : Cpu},
    a.toNat + 8 * (i + rs.length) < 2 ^ 64 →
      execAll (storeRegs a i rs : Code σ) c =
        { c with mem := putWords c.mem (a.toNat + 8 * i) (rs.map c.reg) }
  | [], _, _, _ => rfl
  | r :: rs, i, c, h => by
      rw [List.length_cons] at h
      have hindex : (8 * UInt64.ofNat i).toNat = 8 * i := by
        rw [UInt64.toNat_mul, UInt64.toNat_ofNat_of_lt' (by unfold UInt64.size; omega)]
        exact Nat.mod_eq_of_lt (by simp; omega)
      have hat : (a + 8 * UInt64.ofNat i).toNat = a.toNat + 8 * i := by
        rw [toNat_offset (by omega), hindex]
      have hnext : a.toNat + 8 * (i + 1) = a.toNat + 8 * i + 8 := by ring
      have hfirst : execAll (storeRegs a i (r :: rs) : Code σ) c =
          execAll (storeRegs a (i + 1) rs)
            { c with mem := putWord c.mem (a + 8 * UInt64.ofNat i).toNat (c.reg r) } := rfl
      rw [hfirst, execAll_storeRegs (by omega), hat, hnext]
      rfl

theorem run_plain : ∀ {is : List (Instr σ)}, is.all plain → ∀ (js : List (Instr σ)) (c : Cpu)
    (s : σ), run (is ++ js) 0 (c, s) = run js 0 (execAll is c, s)
  | [], _, _, _, _ => rfl
  | i :: is, h, js, c, s => by
      rw [List.all_cons, Bool.and_eq_true] at h
      cases i with
      | jne n => exact absurd h.1 Bool.false_ne_true
      | call f => exact absurd h.1 Bool.false_ne_true
      | _ => exact run_plain h.2 js _ s

/-- Code without jumps and calls runs through. -/
theorem run_through {is : Code σ} (h : is.all plain) (c : Cpu) (s : σ) :
    run is 0 (c, s) = (execAll is c, s) := by
  have hrun := run_plain h [] c s
  rwa [List.append_nil] at hrun

theorem exec_addImm_rsp (c : Cpu) (v : UInt64) :
    (exec (.addImm .rsp v : Instr σ) c).rsp = c.rsp + v := by
  simp [exec, Cpu.rsp]

theorem exec_storeByteAt_rsp (a : UInt64) (v : UInt8) (c : Cpu) :
    (exec (.storeByteAt a v : Instr σ) c).rsp = c.rsp := rfl

theorem exec_storeByteAt_ports (a : UInt64) (v : UInt8) (c : Cpu) :
    (exec (.storeByteAt a v : Instr σ) c).ports = c.ports := rfl

theorem exec_addImm_reg (c : Cpu) (d r : Reg) (v : UInt64) (hr : r ≠ d) :
    (exec (.addImm d v : Instr σ) c).reg r = c.reg r := by
  simp [exec, hr]

/-- **The way out of a handler that has one more word on the stack**: it is skipped,
and the registers that were not popped stay as they are. -/
theorem leave_skipping {rs : List Reg} {c : Cpu} {k : Context} {w : UInt64}
    (hwords : Words c.mem c.rsp.toNat ((rs.map k.reg).reverse ++ w :: k.frame))
    (hnodup : rs.Nodup) (hrsp : .rsp ∉ rs) (hroom : c.rsp.toNat + 8 * rs.length + 8 < 2 ^ 64) :
    let c' := execAll (rs.reverse.map .pop ++ [.addImm .rsp 8, .iretq] : Code σ) c
    c'.toContext = { k with reg := fun r =>
      if r = .rsp then k.reg .rsp else if r ∈ rs then k.reg r else c.reg r } ∧
      c'.mem = c.mem ∧ c'.ports = c.ports := by
  obtain ⟨hpop, _, hframe⟩ := Cpu.popped_pushed hwords hnodup hrsp (by omega)
  rw [execAll_append, execAll_pop]
  generalize c.popAll rs.reverse = c₂ at hpop hframe
  have hskip : (exec (.addImm .rsp 8 : Instr σ) c₂).rsp.toNat = c₂.rsp.toNat + 8 := by
    have htop := hpop.top
    rw [List.length_reverse] at htop
    have height : (8 : UInt64).toNat = 8 := rfl
    rw [exec_addImm_rsp, toNat_offset (by omega), height]
  have hsame : (exec (.addImm .rsp 8 : Instr σ) c₂).mem = c₂.mem := rfl
  rw [← hskip, ← hsame] at hframe
  have hlast : execAll ([.addImm .rsp 8, .iretq] : Code σ) c₂ =
      (exec (.addImm .rsp 8 : Instr σ) c₂).iretq := rfl
  rw [hlast]
  refine ⟨?_, hpop.mem, hpop.ports⟩
  rw [Cpu.iretq_frame hframe, Context.mk.injEq]
  refine ⟨?_, rfl, rfl, rfl, rfl⟩
  funext r
  by_cases hr : r = .rsp
  · rw [if_pos hr, if_pos hr]
  · rw [if_neg hr, if_neg hr, exec_addImm_reg _ _ _ _ hr, hpop.regs r hr]
    simp only [List.mem_reverse]

theorem run_call (f : Cpu × σ → Cpu × σ) (is : List (Instr σ)) (m : Cpu × σ) :
    run (.call f :: is) 0 m = run is 0 (f m) := rfl

theorem run_jne (n : ℕ) (is : List (Instr σ)) (m : Cpu × σ) :
    run (.jne n :: is) 0 m = run is (if m.1.rflags &&& zeroFlag ≠ 0 then 0 else n) m := rfl

/-- The instructions after a jump that is taken. -/
theorem run_skip : ∀ (is js : List (Instr σ)) (m : Cpu × σ),
    run (is ++ js) is.length m = run js 0 m
  | [], _, _ => rfl
  | _ :: is, js, m => run_skip is js m

end Instr

/-! ## Functions -/

def calleeSaved : List Reg := [.rbx, .rbp, .rsp, .r12, .r13, .r14, .r15]

/-- What a function owes its caller: it gives the registers of `calleeSaved` back
and does not touch the bytes that `keeps` names, which are not its own. -/
structure Abi {σ : Type} (keeps : Cpu → σ → ℕ → Prop) (f : Cpu × σ → Cpu × σ) : Prop where
  callee : ∀ m, ∀ r ∈ calleeSaved, (f m).1.reg r = m.1.reg r
  mem : ∀ m x, keeps m.1 m.2 x → (f m).1.mem x = m.1.mem x

theorem Abi.mono {σ : Type} {keeps keeps' : Cpu → σ → ℕ → Prop} {f : Cpu × σ → Cpu × σ}
    (h : Abi keeps f) (himp : ∀ c s x, keeps' c s x → keeps c s x) : Abi keeps' f :=
  ⟨h.callee, fun m x hx => h.mem m x (himp _ _ _ hx)⟩

/-- A function that does nothing to the CPU but answer. -/
theorem abi_answer {σ : Type} (keeps : Cpu → σ → ℕ → Prop) (answer : Cpu × σ → UInt64)
    (next : Cpu × σ → σ) : Abi keeps fun m => (m.1.set .rax (answer m), next m) := by
  refine ⟨fun m r hr => ?_, fun _ _ _ => rfl⟩
  have hne : r ≠ .rax := by
    rintro rfl
    exact absurd hr (by decide)
  exact Function.update_of_ne hne _ _

end X86
