import BareKernel.Lib.X86
import Mathlib.Algebra.Order.Ring.Nat

/-!
# The interrupt handlers

`Kernel/asm/interrupts.asm`, instruction by instruction, with the functions of C
that it calls as parameters. Every handler pushes all registers but `rsp` over
the frame of the CPU, so that what lies on the stack is the interrupted context;
`syscallDispatcher` reads it as a `Registers`, `switchContext` keeps its address
for later, and the handler of the keyboard copies it for whoever asks.
-/

namespace BareKernel.Kernel.Interrupts

open X86 ByteMemory

variable {σ : Type}

/-- The functions that `interrupts.asm` declares `EXTERN`. -/
structure Externs (σ : Type) where
  irqDispatcher : Cpu × σ → Cpu × σ
  syscallDispatcher : Cpu × σ → Cpu × σ
  switchContext : Cpu × σ → Cpu × σ
  exceptionDispatcher : Cpu × σ → Cpu × σ
  getStackBase : Cpu × σ → Cpu × σ

/-- Where the linker put what `section .bss` reserves. -/
structure Labels where
  exceptionRegisterSnapshot : UInt64
  registerSnapshot : UInt64
  registerSnapshotTaken : UInt64

/-- `REGISTER_SNAPSHOT_KEY_SCANCODE`, which is F12. -/
def snapshotKeyScancode : UInt64 := 0x58

/-- `USERLAND`, where the module of the shell begins. -/
def userland : UInt64 := 0x400000

/-! ## The code -/

/-- The registers in the order in which `pushState` pushes them. -/
def stateRegs : List Reg :=
  [.rax, .rbx, .rcx, .rdx, .rbp, .rdi, .rsi, .r8, .r9, .r10, .r11, .r12, .r13, .r14, .r15]

def pushState : Code σ := stateRegs.map .push

def popStateButRAX : Code σ :=
  [.pop .r15, .pop .r14, .pop .r13, .pop .r12, .pop .r11, .pop .r10, .pop .r9, .pop .r8,
    .pop .rsi, .pop .rdi, .pop .rbp, .pop .rdx, .pop .rcx, .pop .rbx]

def popState : Code σ := popStateButRAX ++ [.pop .rax]

/-- `mov [label + 0x08 * i], r` for each register of the state. -/
def storeState (label : UInt64) : Code σ := Instr.storeRegs label 0 stateRegs

/-- The end of an interrupt, told to the PIC. -/
def signalEoi : Code σ := [.movByte .rax 0x20, .out 0x20]

def irqHandlerMaster (F : Externs σ) (irq : UInt64) : Code σ :=
  pushState ++
    ([.movImm .rdi irq, .call F.irqDispatcher, .movImm .rdi irq, .cmpImm .rdi 0, .jne 3,
      .mov .rdi .rsp, .call F.switchContext, .mov .rsp .rax] : Code σ) ++
    signalEoi ++ popState ++ ([.iretq] : Code σ)

/-- The handler of the timer. -/
def irq00Handler (F : Externs σ) : Code σ := irqHandlerMaster F 0

/-- `rsp` and two words from the stack, over the registers that are stored at `label`. -/
def storeFrame (label rip rflags : UInt64) : Code σ :=
  [.storeAt (label + 0x78) .rsp, .load .rax .rsp rip, .storeAt (label + 0x80) .rax,
    .load .rax .rsp rflags, .storeAt (label + 0x88) .rax]

/-- What the handler of the keyboard does when the key is F12. -/
def takeSnapshot (L : Labels) : Code σ :=
  popState ++ pushState ++ storeState L.registerSnapshot ++
    storeFrame L.registerSnapshot 0x80 0x78 ++
    ([.storeByteAt L.registerSnapshotTaken 0x01] : Code σ)

/-- The handler of the keyboard. -/
def irq01Handler (F : Externs σ) (L : Labels) : Code σ :=
  ([.pushfq] : Code σ) ++ pushState ++
    ([.movImm .rdi 1, .call F.irqDispatcher, .cmpImm .rax snapshotKeyScancode,
      .jne (takeSnapshot L : Code σ).length] : Code σ) ++
    takeSnapshot L ++ signalEoi ++ popState ++ ([.addImm .rsp 8, .iretq] : Code σ)

/-- The handler of the system calls. -/
def irq80Handler (F : Externs σ) : Code σ :=
  pushState ++ ([.mov .rdi .rsp, .call F.syscallDispatcher, .mov .rbx .rax] : Code σ) ++
    signalEoi ++ ([.mov .rax .rbx] : Code σ) ++ popStateButRAX ++
    ([.addImm .rsp 8, .iretq] : Code σ)

def exceptionHandler (F : Externs σ) (L : Labels) (exception : UInt64) : Code σ :=
  ([.cli] : Code σ) ++ storeState L.exceptionRegisterSnapshot ++
    storeFrame L.exceptionRegisterSnapshot 0x00 0x10 ++
    ([.movImm .rdi exception, .movImm .rsi L.exceptionRegisterSnapshot,
      .call F.exceptionDispatcher, .call F.getStackBase, .store .rsp 0x18 .rax,
      .storeImm .rsp 0x00 userland, .sti, .iretq] : Code σ)

/-- Division by zero. -/
def exceptionHandler00 (F : Externs σ) (L : Labels) : Code σ := exceptionHandler F L 0

/-- Invalid opcode. -/
def exceptionHandler06 (F : Externs σ) (L : Labels) : Code σ := exceptionHandler F L 6

/-- The stack of a new process, with what it will be resumed from. Arguments come in
`rdi`, `rsi`, `rdx`, `rcx` and `r8`. -/
def setupStack : Code σ :=
  ([.push .rbp, .mov .rbp .rsp, .mov .rsp .rcx, .pushImm 0x0, .push .rcx, .pushImm 0x202,
    .pushImm 0x8, .push .r8] : Code σ) ++ pushState ++
    ([.mov .rax .rsp, .mov .rsp .rbp, .pop .rbp] : Code σ)

/-! ## What the handlers rest on -/

theorem popState_eq : (popState : Code σ) = stateRegs.reverse.map .pop := rfl

theorem stateRegs_nodup : stateRegs.Nodup := by decide

theorem stateRegs_length : stateRegs.length = 15 := rfl

theorem rsp_notMem_stateRegs : Reg.rsp ∉ stateRegs := by decide

/-- `pushState` misses no register but `rsp`. -/
theorem mem_stateRegs (r : Reg) (hr : r ≠ .rsp) : r ∈ stateRegs := by
  cases r with
  | rsp => exact absurd rfl hr
  | _ => decide

/-- The CPU once a handler has pushed the state. -/
def entered (c : Cpu) (offset : UInt64) : Cpu := (c.interrupt 8 offset).pushAll stateRegs

theorem pushed_entered (c : Cpu) (offset : UInt64) (hroom : 176 ≤ c.rsp.toNat) :
    Cpu.Pushed c.aligned (entered c offset) (c.saved stateRegs) :=
  c.pushed_saved 8 offset rsp_notMem_stateRegs hroom

theorem pushAll_entered (c : Cpu) (offset : UInt64) :
    (c.interrupt 8 offset).pushAll stateRegs = entered c offset := rfl

-- from here on only the two laws above speak of it
attribute [irreducible] entered

/-- The frame of the CPU and the registers over it. -/
def savedSize : ℕ := 160

theorem savedSize_eq (k : Context) : 8 * (k.saved stateRegs).length = savedSize := rfl

/-- The bytes over the frame of a function of C: the state of the interrupted
program, which is not the function's to write. -/
def InSaved (size : ℕ) (c : Cpu) (_ : σ) (x : ℕ) : Prop :=
  c.rsp.toNat ≤ x ∧ x < c.rsp.toNat + size

/-- A kernel of which only the answers are looked at: the PID of the shell, F12, no
switch, and the top of its own stack. -/
def answers : Externs Unit :=
  { irqDispatcher := fun m => (m.1.set .rax snapshotKeyScancode, m.2)
    syscallDispatcher := fun m => (m.1.set .rax 2, m.2)
    switchContext := fun m => (m.1.set .rax (m.1.reg .rdi), m.2)
    exceptionDispatcher := fun m => (m.1.set .rax 0, m.2)
    getStackBase := fun m => (m.1.set .rax 0x117FF8, m.2) }

/-- A program in the module of the shell. -/
def program : Cpu :=
  { reg := fun r => if r = .rsp then 0xF01000 else 5
    rip := 0x400010, cs := 8, rflags := 0x202, ss := 0, mem := fun _ => 0, ports := [] }

def labels : Labels := ⟨0x110000, 0x110090, 0x110120⟩

/-! ## New processes -/

/-- What a process starts with: the registers of `createProcess` at its call of
`setupStack`, on the new stack, at the function that was given. -/
def freshContext (k : Context) : Context :=
  { reg := fun r =>
      if r = .rsp then k.reg .rcx else if r = .rbp then k.reg .rsp - 8 else k.reg r
    rip := k.reg .r8
    cs := 0x8
    rflags := 0x202
    ss := 0x0 }

/-- **`setupStack`** puts the context of the new process on its stack and answers
where; for its caller only `rax` changes. -/
theorem setupStack_exec {c : Cpu} (hown : 8 ≤ c.rsp.toNat) (hnew : savedSize ≤ (c.reg .rcx).toNat)
    (hapart : c.rsp.toNat ≤ (c.reg .rcx).toNat - savedSize ∨
      (c.reg .rcx).toNat ≤ c.rsp.toNat - 8) :
    let c' := Instr.execAll (setupStack : Code σ) c
    (c'.reg .rax).toNat = (c.reg .rcx).toNat - savedSize ∧
      Words c'.mem (c'.reg .rax).toNat ((freshContext c.toContext).saved stateRegs) ∧
      c'.toContext = { c.toContext with reg := Function.update c.reg .rax (c'.reg .rax) } ∧
      ∀ x, x < (c.reg .rcx).toNat - savedSize ∨ (c.reg .rcx).toNat ≤ x →
        x < c.rsp.toNat - 8 ∨ c.rsp.toNat ≤ x → c'.mem x = c.mem x := by
  have hsize : savedSize = 160 := rfl
  rw [hsize] at hnew hapart ⊢
  -- on the stack of the caller
  let c₁ := c.push (c.reg .rbp)
  have hone : Cpu.Pushed c c₁ [c.reg .rbp] := (Cpu.Pushed.refl c).push hown _
  let c₂ := (c₁.set .rbp c₁.rsp).set .rsp (c.reg .rcx)
  have hrsp₁ : c₁.rsp = c.rsp - 8 := c.push_rsp _
  have hregs₂ : ∀ r, r ≠ .rsp → r ≠ .rbp → c₂.reg r = c.reg r := by
    intro r hr hr'
    rw [← hone.regs r hr]
    simp [c₂, hr, hr']
  have hrbp₂ : c₂.reg .rbp = c.rsp - 8 := by
    rw [← hrsp₁]
    simp [c₂]
  have htop₂ : c₂.rsp = c.reg .rcx := by simp [c₂, Cpu.rsp]
  -- on the stack of the new process
  let p₁ := c₂.push 0x0
  let p₂ := p₁.push (p₁.reg .rcx)
  let p₃ := p₂.push 0x202
  let p₄ := p₃.push 0x8
  let c₃ := p₄.push (p₄.reg .r8)
  have hframe : Cpu.Pushed c₂ c₃ (freshContext c.toContext).frame := by
    have h₁ : Cpu.Pushed c₂ p₁ [0x0] := (Cpu.Pushed.refl c₂).push (by rw [htop₂]; omega) 0x0
    have hrcx : p₁.reg .rcx = c.reg .rcx :=
      (h₁.regs .rcx (by decide)).trans (hregs₂ .rcx (by decide) (by decide))
    have t₁ := h₁.top
    have h₂ := h₁.push (by rw [htop₂] at t₁; simp at t₁; omega) (p₁.reg .rcx)
    have t₂ := h₂.top
    have h₃ := h₂.push (by rw [htop₂] at t₂; simp at t₂; omega) 0x202
    have t₃ := h₃.top
    have h₄ := h₃.push (by rw [htop₂] at t₃; simp at t₃; omega) 0x8
    have t₄ := h₄.top
    have hr8 : p₄.reg .r8 = c.reg .r8 :=
      (h₄.regs .r8 (by decide)).trans (hregs₂ .r8 (by decide) (by decide))
    have h₅ := h₄.push (by rw [htop₂] at t₄; simp at t₄; omega) (p₄.reg .r8)
    rw [hrcx, hr8] at h₅
    exact h₅
  have hframeTop := hframe.top
  have hframeSize : 8 * (freshContext c.toContext).frame.length = 40 := rfl
  have hregsSize : 8 * stateRegs.length = 120 := rfl
  rw [htop₂, hframeSize] at hframeTop
  have hfresh : stateRegs.map c₂.reg = stateRegs.map (freshContext c.toContext).reg := by
    apply map_regs rsp_notMem_stateRegs
    intro r hr
    show c₂.reg r = if r = .rsp then c.reg .rcx else if r = .rbp then c.rsp - 8 else c.reg r
    by_cases hbp : r = .rbp
    · rw [if_neg hr, if_pos hbp, hbp, hrbp₂]
    · rw [if_neg hr, if_neg hbp, hregs₂ r hr hbp]
  let c₄ := c₃.pushAll stateRegs
  have hall : Cpu.Pushed c₂ c₄ ((freshContext c.toContext).saved stateRegs) := by
    rw [Context.saved, ← hfresh]
    exact hframe.pushAll rsp_notMem_stateRegs (by omega)
  have htop₄ := hall.top
  rw [savedSize_eq, htop₂, hsize] at htop₄
  have hmem₁ : ∀ x, x < c.rsp.toNat - 8 ∨ c.rsp.toNat ≤ x → c₁.mem x = c.mem x := by
    intro x hx
    apply hone.outside x
    have htop₁ := hone.top
    simp at htop₁
    omega
  -- back on the stack of the caller
  let c₅ := c₄.set .rax c₄.rsp
  have hcode : Instr.execAll (setupStack : Code σ) c = (c₅.set .rsp (c₅.reg .rbp)).pop .rbp := by
    rw [setupStack, Instr.execAll_append, Instr.execAll_append, pushState, Instr.execAll_push]
    rfl
  have hregs₅ : ∀ r, r ≠ .rsp → c₅.reg r = if r = .rax then c₄.rsp else c₂.reg r := by
    intro r hr
    rw [← hall.regs r hr]
    exact c₄.set_reg _ _ _
  have hrbp₅ : c₅.reg .rbp = c.rsp - 8 := by
    rw [hregs₅ .rbp (by decide), if_neg (by decide), hrbp₂]
  have htop₁ : (c.rsp - 8).toNat = c.rsp.toNat - 8 := by
    have htop := hone.top
    rw [hrsp₁] at htop
    simp at htop
    omega
  have hword : word c₄.mem (c.rsp - 8).toNat = c.reg .rbp := by
    have hsaved : word c₁.mem c₁.rsp.toNat = c.reg .rbp := hone.words.1
    rw [← hsaved, hrsp₁]
    apply word_congr
    intro x hx hx'
    apply hall.outside x
    rw [htop₂]
    omega
  have hmem₄ : ∀ x, x < (c.reg .rcx).toNat - 160 ∨ (c.reg .rcx).toNat ≤ x →
      c₄.mem x = c₁.mem x := by
    intro x hx
    apply hall.outside x
    rw [htop₂]
    omega
  rw [hcode, hrbp₅]
  intro c'
  have hrax : c'.reg .rax = c₄.rsp := by
    simp [c', Cpu.pop, c₅]
  have hsame : c'.toContext = { c₄.toContext with reg := c'.reg } := rfl
  have hregs₄ : c₄.toContext = { c.toContext with reg := c₄.reg } := Cpu.pushAll_context _ c₃
  rw [hrax]
  refine ⟨by omega, hall.words, ?_, fun x hx hx' => ?_⟩
  · rw [hsame, hregs₄, Context.mk.injEq]
    refine ⟨?_, rfl, rfl, rfl, rfl⟩
    funext r
    show ((c₅.set .rsp (c.rsp - 8)).pop .rbp).reg r = Function.update c.reg .rax c₄.rsp r
    have hback : c.rsp - 8 + 8 = c.rsp := UInt64.sub_add_cancel _ _
    have hsp₆ : (c₅.set .rsp (c.rsp - 8)).rsp = c.rsp - 8 := by simp [Cpu.rsp]
    rw [Function.update_apply, Cpu.pop, Cpu.set_reg, Cpu.set_reg, Cpu.set_reg, hsp₆, hback]
    by_cases hbp : r = .rbp
    · subst hbp
      rw [if_pos rfl, if_neg (by decide)]
      exact hword
    by_cases hsp : r = .rsp
    · subst hsp
      rw [if_neg hbp, if_pos rfl, if_neg (by decide)]
      rfl
    · rw [if_neg hbp, if_neg hsp, if_neg hsp, hregs₅ r hsp, hregs₂ r hsp hbp]
  · exact (hmem₄ x hx).trans (hmem₁ x hx')

/-! ## System calls -/

/-- `Registers` of `include/syscallDispatcher.h`. -/
structure Registers where
  r15 : UInt64
  r14 : UInt64
  r13 : UInt64
  r12 : UInt64
  r11 : UInt64
  r10 : UInt64
  r9 : UInt64
  r8 : UInt64
  rsi : UInt64
  rdi : UInt64
  rbp : UInt64
  rdx : UInt64
  rcx : UInt64
  rbx : UInt64
  rax : UInt64
  rip : UInt64

/-- `*registers`, at the address `a`. -/
def Registers.read (m : Mem) (a : ℕ) : Registers :=
  { r15 := word m a, r14 := word m (a + 8), r13 := word m (a + 16), r12 := word m (a + 24)
    r11 := word m (a + 32), r10 := word m (a + 40), r9 := word m (a + 48), r8 := word m (a + 56)
    rsi := word m (a + 64), rdi := word m (a + 72), rbp := word m (a + 80)
    rdx := word m (a + 88), rcx := word m (a + 96), rbx := word m (a + 104)
    rax := word m (a + 112), rip := word m (a + 120) }

/-- The registers of a context, as the dispatcher should see them. -/
def Registers.ofContext (k : Context) : Registers :=
  { r15 := k.reg .r15, r14 := k.reg .r14, r13 := k.reg .r13, r12 := k.reg .r12, r11 := k.reg .r11
    r10 := k.reg .r10, r9 := k.reg .r9, r8 := k.reg .r8, rsi := k.reg .rsi, rdi := k.reg .rdi
    rbp := k.reg .rbp, rdx := k.reg .rdx, rcx := k.reg .rcx, rbx := k.reg .rbx, rax := k.reg .rax
    rip := k.rip }

/-- The layout of `Registers` is the order of `pushState`, read upwards. -/
theorem registers_read {m : Mem} {a : ℕ} {k : Context} (h : Words m a (k.saved stateRegs)) :
    Registers.read m a = Registers.ofContext k := by
  obtain ⟨h15, h14, h13, h12, h11, h10, h9, h8, hsi, hdi, hbp, hdx, hcx, hbx, hax, hip, _⟩ := h
  rw [Registers.read, Registers.ofContext, Registers.mk.injEq]
  exact ⟨h15, h14, h13, h12, h11, h10, h9, h8, hsi, hdi, hbp, hdx, hcx, hbx, hax, hip⟩

/-- What the handler calls `syscallDispatcher` with. -/
def syscallArguments (c : Cpu) (offset : UInt64) (s : σ) : Cpu × σ :=
  ((entered c offset).set .rdi (entered c offset).rsp, s)

/-- The CPU once the PIC was told, with the result in `rax` again. -/
def acknowledged (c : Cpu) : Cpu :=
  Instr.execAll
    (([.mov .rbx .rax] : Code Unit) ++ signalEoi ++ ([.mov .rax .rbx] : Code Unit)) c

theorem acknowledged_ports (c : Cpu) : (acknowledged c).ports = (0x20, 0x20) :: c.ports := by
  show (0x20, (c.reg .rax &&& ~~~0xFF ||| (0x20 : UInt8).toUInt64).toUInt8) :: c.ports = _
  rw [setByte_low]

theorem acknowledged_mem (c : Cpu) : (acknowledged c).mem = c.mem := rfl

theorem acknowledged_rsp (c : Cpu) : (acknowledged c).rsp = c.rsp := rfl

theorem acknowledged_rax (c : Cpu) : (acknowledged c).reg .rax = c.reg .rax := rfl

theorem execAll_acknowledged (is : Code σ) (c : Cpu) :
    Instr.execAll
        (([.mov .rbx .rax] : Code σ) ++ signalEoi ++ ([.mov .rax .rbx] : Code σ) ++ is) c =
      Instr.execAll is (acknowledged c) := rfl

attribute [irreducible] acknowledged

/-- The instructions after `call syscallDispatcher`. -/
def irq80Exit : Code σ :=
  ([.mov .rbx .rax] : Code σ) ++ signalEoi ++ ([.mov .rax .rbx] : Code σ) ++ popStateButRAX ++
    ([.addImm .rsp 8, .iretq] : Code σ)

/-- **The way out of the handler of the system calls**: everything is as it was
but `rax`, which holds the result. -/
theorem irq80_exit {c : Cpu} {k : Context} (hsaved : Words c.mem c.rsp.toNat (k.saved stateRegs))
    (hroom : c.rsp.toNat + savedSize ≤ 2 ^ 64) :
    let c' := Instr.execAll (irq80Exit : Code σ) c
    c'.toContext = { k with reg := Function.update k.reg .rax (c.reg .rax) } ∧
      c'.mem = c.mem ∧ c'.ports = (0x20, 0x20) :: c.ports := by
  unfold savedSize at hroom
  have hcode : (irq80Exit : Code σ) =
      ([.mov .rbx .rax] : Code σ) ++ signalEoi ++ ([.mov .rax .rbx] : Code σ) ++
        (stateRegs.tail.reverse.map .pop ++ ([.addImm .rsp 8, .iretq] : Code σ)) := rfl
  have hwords : Words (acknowledged c).mem (acknowledged c).rsp.toNat
      ((stateRegs.tail.map k.reg).reverse ++ k.reg .rax :: k.frame) := by
    rw [acknowledged_mem, acknowledged_rsp]
    exact hsaved
  have hlen : 8 * stateRegs.tail.length = 112 := rfl
  -- the word that is skipped is the old `rax`
  obtain ⟨hcontext, hmem, hports⟩ := Instr.leave_skipping (σ := σ) hwords (by decide) (by decide)
    (by
      rw [acknowledged_rsp, hlen]
      omega)
  rw [hcode, execAll_acknowledged]
  refine ⟨?_, hmem.trans (acknowledged_mem c), hports.trans (acknowledged_ports c)⟩
  rw [hcontext, Context.mk.injEq]
  refine ⟨?_, rfl, rfl, rfl, rfl⟩
  funext r
  rw [Function.update_apply]
  by_cases hrsp : r = .rsp
  · subst hrsp
    rfl
  by_cases hrax : r = .rax
  · subst hrax
    rw [if_neg hrsp, if_neg (by decide), if_pos rfl, acknowledged_rax]
  · have hmem : r ∈ stateRegs.tail :=
      (List.mem_cons.mp (mem_stateRegs r hrsp)).resolve_left hrax
    rw [if_neg hrsp, if_pos hmem, if_neg hrax]

theorem irq80_run (F : Externs σ) (c : Cpu) (offset : UInt64) (s : σ) :
    Instr.run (irq80Handler F) 0 (c.interrupt 8 offset, s) =
      let result := F.syscallDispatcher (syscallArguments c offset s)
      (Instr.execAll (irq80Exit : Code σ) result.1, result.2) := by
  have hcode : irq80Handler F =
      (pushState ++ ([.mov .rdi .rsp] : Code σ)) ++
        (.call F.syscallDispatcher :: irq80Exit : Code σ) := rfl
  rw [hcode, Instr.run_plain rfl, Instr.run_call, Instr.execAll_append]
  rw [pushState, Instr.execAll_push, pushAll_entered]
  exact Instr.run_through rfl _ _

/-- **A system call** is invisible but for its result: `syscallDispatcher` reads the
registers of the caller as its `Registers` and finds the memory as it was but for what
was pushed under `rsp`; when it keeps to its own frame, the caller goes on with the result
in `rax` and everything else, flags and stack pointer included, as before `int 0x80`. The
PIC is told once that an interrupt is over. -/
theorem syscall_transparent (F : Externs σ) (hF : Abi (InSaved savedSize) F.syscallDispatcher)
    (c : Cpu) (offset : UInt64) (s : σ) (hroom : 176 ≤ c.rsp.toNat) :
    let arguments := syscallArguments c offset s
    let result := F.syscallDispatcher arguments
    let after := Instr.run (irq80Handler F) 0 (c.interrupt 8 offset, s)
    Registers.read arguments.1.mem (arguments.1.reg .rdi).toNat = .ofContext c.toContext ∧
      (∀ x, x < arguments.1.rsp.toNat ∨ c.rsp.toNat ≤ x → arguments.1.mem x = c.mem x) ∧
      after.1.toContext =
        { c.toContext with reg := Function.update c.reg .rax (result.1.reg .rax) } ∧
      after.1.mem = result.1.mem ∧ after.1.ports = (0x20, 0x20) :: result.1.ports ∧
      after.2 = result.2 := by
  intro arguments result after
  have hpush := pushed_entered c offset hroom
  have halign := c.aligned_le
  have hrsp : arguments.1.rsp = (entered c offset).rsp := rfl
  have hmem : arguments.1.mem = (entered c offset).mem := rfl
  have htop := hpush.top
  rw [savedSize_eq] at htop
  -- the dispatcher leaves the frame of the caller alone
  have hkept : Words result.1.mem result.1.rsp.toNat (c.saved stateRegs) := by
    have hback : result.1.rsp = (entered c offset).rsp := hF.callee arguments .rsp (by decide)
    rw [hback]
    apply hpush.words.congr
    rw [savedSize_eq]
    exact fun x hx hx' => hF.mem arguments x ⟨hx, hx'⟩
  have hfit : result.1.rsp.toNat + savedSize ≤ 2 ^ 64 := by
    have hback : result.1.rsp = (entered c offset).rsp := hF.callee arguments .rsp (by decide)
    have hlt := c.rsp.toNat_lt
    rw [hback]
    omega
  obtain ⟨hcontext, hmem', hports⟩ := irq80_exit (σ := σ) hkept hfit
  have hrun : after = (Instr.execAll (irq80Exit : Code σ) result.1, result.2) :=
    irq80_run F c offset s
  rw [hrun]
  refine ⟨?_, fun x hx => ?_, hcontext, hmem', hports, rfl⟩
  · have hrdi : arguments.1.reg .rdi = (entered c offset).rsp := rfl
    rw [hmem, hrdi]
    exact registers_read hpush.words
  · rw [hmem]
    exact hpush.outside x (hx.imp_right halign.1.trans)

/-! ## The snapshot of the registers -/

/-- What lies on the stack while the handler of the keyboard works. -/
def keyboardSaved (k : Context) : List UInt64 :=
  (stateRegs.map k.reg).reverse ++ (k.rflags &&& ~~~gateFlags) :: k.frame

/-- The frame of the CPU, the flags and the registers over it. -/
def keyboardSavedSize : ℕ := 168

theorem keyboardSavedSize_eq (k : Context) : 8 * (keyboardSaved k).length = keyboardSavedSize := rfl

/-- The 18 words of `register_snapshot`. -/
def snapshotSize : ℕ := 144

/-- The bytes of the snapshot. -/
def Labels.InSnapshot (L : Labels) (x : ℕ) : Prop :=
  L.registerSnapshot.toNat ≤ x ∧ x < L.registerSnapshot.toNat + snapshotSize ∨
    x = L.registerSnapshotTaken.toNat

/-- `.bss` holds the two labels one after the other, and not the stack from `top` on. -/
structure Labels.Placed (L : Labels) (top : UInt64) : Prop where
  fits : L.registerSnapshot.toNat + snapshotSize < 2 ^ 64
  order : L.registerSnapshot.toNat + snapshotSize ≤ L.registerSnapshotTaken.toNat
  apart : L.registerSnapshot.toNat + snapshotSize ≤ top.toNat ∨
    top.toNat + keyboardSavedSize ≤ L.registerSnapshot.toNat
  takenApart : L.registerSnapshotTaken.toNat < top.toNat ∨
    top.toNat + keyboardSavedSize ≤ L.registerSnapshotTaken.toNat

/-- The words of a snapshot. -/
def snapshotOf (k : Context) (rsp : UInt64) : List UInt64 :=
  stateRegs.map k.reg ++ [rsp, k.rip, k.rflags &&& ~~~gateFlags]

/-- The memory once the snapshot is taken. -/
def withSnapshot (L : Labels) (m : Mem) (ws : List UInt64) : Mem :=
  store (putWords m L.registerSnapshot.toNat ws) L.registerSnapshotTaken.toNat 1 1

theorem snapshotOf_length (k : Context) (rsp : UInt64) :
    8 * (snapshotOf k rsp).length = snapshotSize := rfl

theorem withSnapshot_outside {L : Labels} {m : Mem} {ws : List UInt64} {x : ℕ}
    (hlen : 8 * ws.length = snapshotSize) (hx : ¬L.InSnapshot x) : withSnapshot L m ws x = m x := by
  obtain ⟨hwords, hbyte⟩ := not_or.mp hx
  rw [withSnapshot, store_outside _ (by omega), putWords_outside (by omega)]

theorem withSnapshot_taken (L : Labels) (m : Mem) (ws : List UInt64) :
    withSnapshot L m ws L.registerSnapshotTaken.toNat = 1 := by
  simp [withSnapshot, store]

theorem words_withSnapshot {L : Labels} {top : UInt64} (hplaced : L.Placed top) {ws : List UInt64}
    (hlen : 8 * ws.length = snapshotSize) (m : Mem) :
    Words (withSnapshot L m ws) L.registerSnapshot.toNat ws := by
  apply (words_putWords ws m _).congr
  rw [hlen]
  exact store_agreeOn _ (.inl hplaced.order)

/-- The words on the stack survive the snapshot. -/
theorem saved_withSnapshot {L : Labels} {top : UInt64} (hplaced : L.Placed top)
    {ws saved : List UInt64} (hlen : 8 * ws.length = snapshotSize)
    (hsize : 8 * saved.length = keyboardSavedSize) {m : Mem} (h : Words m top.toNat saved) :
    Words (withSnapshot L m ws) top.toNat saved := by
  apply h.congr
  rw [hsize]
  intro x hx hx'
  apply withSnapshot_outside hlen
  have hapart := hplaced.apart
  have htaken := hplaced.takenApart
  rintro (⟨hlow, hhigh⟩ | rfl)
  · omega
  · omega

/-- **The end of a snapshot**: what is read from the stack is what lay there before. -/
theorem storeFrame_mem {label rip rflags : UInt64} {c : Cpu} {m : Mem} {ws : List UInt64}
    (hfit : label.toNat + snapshotSize < 2 ^ 64) (hlen : ws.length = 15)
    (hmem : c.mem = putWords m label.toNat ws)
    (hrip : (c.rsp + rip).toNat + 8 ≤ label.toNat ∨
      label.toNat + snapshotSize ≤ (c.rsp + rip).toNat)
    (hrflags : (c.rsp + rflags).toNat + 8 ≤ label.toNat ∨
      label.toNat + snapshotSize ≤ (c.rsp + rflags).toNat) :
    (Instr.execAll (storeFrame label rip rflags : Code σ) c).mem = putWords m label.toNat
      (ws ++ [c.rsp, word m (c.rsp + rip).toNat, word m (c.rsp + rflags).toNat]) := by
  unfold snapshotSize at hfit hrip hrflags
  have hrun : (Instr.execAll (storeFrame label rip rflags : Code σ) c).mem =
      let m := putWord c.mem (label + 0x78).toNat c.rsp
      let m := putWord m (label + 0x80).toNat (word m (c.rsp + rip).toNat)
      putWord m (label + 0x88).toNat (word m (c.rsp + rflags).toNat) := by
    simp [storeFrame, Instr.execAll, Instr.exec, Cpu.rsp]
  have hat : ∀ n : UInt64, n.toNat ≤ 0x88 → (label + n).toNat = label.toNat + n.toNat :=
    fun n hn => toNat_offset (by omega)
  have h78 : (label + 0x78).toNat = label.toNat + 0x78 := hat 0x78 (by decide)
  have h80 : (label + 0x80).toNat = label.toNat + 0x80 := hat 0x80 (by decide)
  have h88 : (label + 0x88).toNat = label.toNat + 0x88 := hat 0x88 (by decide)
  have hone : ∀ (ws : List UInt64) (w : UInt64) (a : ℕ), a = label.toNat + 8 * ws.length →
      putWord (putWords m label.toNat ws) a w = putWords m label.toNat (ws ++ [w]) := by
    rintro ws w a rfl
    rw [putWords_append]
    rfl
  rw [hrun, hmem, h78, h80, h88, hone ws _ _ (by rw [hlen])]
  simp only []
  rw [word_putWords (by simp only [List.length_append, hlen, List.length_singleton]; omega)]
  rw [hone _ _ _ (by simp [hlen]),
    word_putWords (by simp only [List.length_append, hlen, List.length_singleton]; omega)]
  rw [hone _ _ _ (by simp [hlen])]
  simp only [List.append_assoc, List.cons_append, List.nil_append]

theorem storeFrame_rsp (label rip rflags : UInt64) (c : Cpu) :
    (Instr.execAll (storeFrame label rip rflags : Code σ) c).rsp = c.rsp := by
  simp [storeFrame, Instr.execAll, Instr.exec, Cpu.rsp]

theorem storeFrame_ports (label rip rflags : UInt64) (c : Cpu) :
    (Instr.execAll (storeFrame label rip rflags : Code σ) c).ports = c.ports := by
  simp [storeFrame, Instr.execAll, Instr.exec, Cpu.set]

/-- Popping the state and pushing it again changes nothing but the registers. -/
theorem popAll_pushAll {c : Cpu} {k : Context} {ws : List UInt64}
    (hroom : c.rsp.toNat + 120 < 2 ^ 64)
    (hsaved : Words c.mem c.rsp.toNat ((stateRegs.map k.reg).reverse ++ ws)) :
    let c' := (c.popAll stateRegs.reverse).pushAll stateRegs
    c'.rsp = c.rsp ∧ (∀ r, r ≠ .rsp → c'.reg r = k.reg r) ∧
      Words c'.mem c'.rsp.toNat (stateRegs.map k.reg).reverse ∧ c'.ports = c.ports ∧
      ∀ x, x < c.rsp.toNat ∨ c.rsp.toNat + 120 ≤ x → c'.mem x = c.mem x := by
  have hlen : 8 * stateRegs.length = 120 := rfl
  obtain ⟨hpop, _⟩ := Cpu.popped_pushed hsaved stateRegs_nodup rsp_notMem_stateRegs (by omega)
  have htop := hpop.top
  rw [List.length_reverse, hlen] at htop
  have hregs : ∀ r, r ≠ .rsp → (c.popAll stateRegs.reverse).reg r = k.reg r := by
    intro r hr
    rw [hpop.regs r hr, if_pos (List.mem_reverse.mpr (mem_stateRegs r hr))]
  have hpush := (Cpu.Pushed.refl (c.popAll stateRegs.reverse)).pushAll rsp_notMem_stateRegs
    (by omega)
  have hsame : stateRegs.map (c.popAll stateRegs.reverse).reg = stateRegs.map k.reg :=
    map_regs rsp_notMem_stateRegs hregs
  rw [hsame, List.append_nil] at hpush
  have hdown := hpush.top
  rw [List.length_reverse, List.length_map, hlen] at hdown
  refine ⟨UInt64.toNat_inj.mp (by omega), fun r hr => ?_, hpush.words,
    hpush.ports.trans hpop.ports, fun x hx => ?_⟩
  · rw [hpush.regs r hr, hregs r hr]
  · rw [hpush.outside x (by omega), hpop.mem]

/-- **Taking the snapshot** with the state of `k` on the stack. -/
theorem takeSnapshot_mem {L : Labels} {c : Cpu} {k : Context} (hplaced : L.Placed c.rsp)
    (hroom : c.rsp.toNat + keyboardSavedSize < 2 ^ 64)
    (hsaved : Words c.mem c.rsp.toNat (keyboardSaved k)) :
    let c' := Instr.execAll (takeSnapshot L : Code σ) c
    ∃ m, c'.mem = withSnapshot L m (snapshotOf k c.rsp) ∧ c'.rsp = c.rsp ∧
      c'.ports = c.ports ∧ Words m c.rsp.toNat (keyboardSaved k) ∧
      ∀ x, ¬InSaved keyboardSavedSize c () x → m x = c.mem x := by
  have hsize : keyboardSavedSize = 168 := rfl
  rw [hsize] at hroom
  obtain ⟨hrsp, hregs, hwords, hports, houtside⟩ := popAll_pushAll (by omega) hsaved
  have hcode : Instr.execAll (takeSnapshot L : Code σ) c =
      Instr.exec (.storeByteAt L.registerSnapshotTaken 0x01 : Instr σ)
        (Instr.execAll (storeFrame L.registerSnapshot 0x80 0x78 : Code σ)
          (Instr.execAll (storeState L.registerSnapshot : Code σ)
            ((c.popAll stateRegs.reverse).pushAll stateRegs))) := by
    rw [takeSnapshot, Instr.execAll_append, Instr.execAll_append, Instr.execAll_append,
      Instr.execAll_append, popState_eq, Instr.execAll_pop, pushState, Instr.execAll_push]
    rfl
  have hfits := hplaced.fits
  unfold snapshotSize at hfits
  have hlen : 8 * stateRegs.length = 120 := rfl
  have hat : ∀ n : UInt64, n.toNat ≤ 0x80 → (c.rsp + n).toNat = c.rsp.toNat + n.toNat :=
    fun n hn => toNat_offset (by omega)
  -- the stack that is read is not in the snapshot
  have hclear : ∀ n : UInt64, n.toNat ≤ 0x80 →
      (c.rsp + n).toNat + 8 ≤ L.registerSnapshot.toNat ∨
        L.registerSnapshot.toNat + snapshotSize ≤ (c.rsp + n).toNat := by
    intro n hn
    have hapart := hplaced.apart
    rw [hsize] at hapart
    rw [hat n hn]
    omega
  rw [hcode, storeState, Instr.execAll_storeRegs (by omega)]
  generalize (c.popAll stateRegs.reverse).pushAll stateRegs =
    c₂ at hrsp hregs hwords hports houtside
  have hsame : stateRegs.map c₂.reg = stateRegs.map k.reg :=
    map_regs rsp_notMem_stateRegs hregs
  have hsaved₂ : Words c₂.mem c.rsp.toNat (keyboardSaved k) := by
    rw [keyboardSaved, words_append]
    refine ⟨hrsp ▸ hwords, ?_⟩
    obtain ⟨_, hrest⟩ := words_append.mp hsaved
    apply hrest.congr
    intro x hx _
    rw [List.length_reverse, List.length_map] at hx
    exact houtside x (.inr (by omega))
  have hregs₂ : (stateRegs.map k.reg).length = 15 := rfl
  have htop : ∀ m : Mem, ({ c₂ with mem := m } : Cpu).rsp = c.rsp := fun _ => hrsp
  have hsent : ∀ m : Mem, ({ c₂ with mem := m } : Cpu).ports = c.ports := fun _ => hports
  refine ⟨c₂.mem, ?_, ?_, ?_, hsaved₂, fun x hx => houtside x ?_⟩
  · have hrip : word c₂.mem (c.rsp + 0x80).toNat = k.rip := by
      have hoff : (c.rsp + 0x80).toNat = c.rsp.toNat + 8 * 16 := hat 0x80 (by decide)
      rw [hoff]
      exact hsaved₂.get 16 (by rw [keyboardSaved]; simp [stateRegs, Context.frame])
    have hrflags : word c₂.mem (c.rsp + 0x78).toNat = k.rflags &&& ~~~gateFlags := by
      have hoff : (c.rsp + 0x78).toNat = c.rsp.toNat + 8 * 15 := hat 0x78 (by decide)
      rw [hoff]
      exact hsaved₂.get 15 (by rw [keyboardSaved]; simp [stateRegs])
    show store (Instr.execAll (storeFrame L.registerSnapshot 0x80 0x78 : Code σ) _).mem
      L.registerSnapshotTaken.toNat 1 1 = _
    rw [storeFrame_mem (m := c₂.mem) hplaced.fits hregs₂ (by rw [hsame]; rfl)
      (by rw [htop]; exact hclear 0x80 (by decide)) (by rw [htop]; exact hclear 0x78 (by decide))]
    rw [htop, hrip, hrflags, withSnapshot, snapshotOf]
  · rw [Instr.exec_storeByteAt_rsp, storeFrame_rsp, htop]
  · rw [Instr.exec_storeByteAt_ports, storeFrame_ports, hsent]
  · unfold InSaved at hx
    rw [hsize] at hx
    omega

/-- The instructions from `.skip` on. -/
def irq01Exit : Code σ := signalEoi ++ (popState ++ ([.addImm .rsp 8, .iretq] : Code σ))

/-- The end of an interrupt is told through `al`. -/
theorem signalEoi_exec (c : Cpu) : ∃ al, Instr.execAll (signalEoi : Code σ) c =
    { c.set .rax al with ports := (0x20, 0x20) :: c.ports } := by
  refine ⟨c.reg .rax &&& ~~~0xFF ||| (0x20 : UInt8).toUInt64, ?_⟩
  have hport : Instr.execAll (signalEoi : Code σ) c =
      { c.set .rax (c.reg .rax &&& ~~~0xFF ||| (0x20 : UInt8).toUInt64) with
        ports :=
          (0x20, (c.reg .rax &&& ~~~0xFF ||| (0x20 : UInt8).toUInt64).toUInt8) :: c.ports } := by
    simp [signalEoi, Instr.execAll, Instr.exec, Cpu.set]
  rw [hport, setByte_low]

/-- **The way out of the handler of the keyboard**: nothing is left of the interrupt. -/
theorem irq01_exit {c : Cpu} {k : Context} (hsaved : Words c.mem c.rsp.toNat (keyboardSaved k))
    (hroom : c.rsp.toNat + keyboardSavedSize < 2 ^ 64) :
    let c' := Instr.execAll (irq01Exit : Code σ) c
    c'.toContext = k ∧ c'.mem = c.mem ∧ c'.ports = (0x20, 0x20) :: c.ports := by
  unfold keyboardSavedSize at hroom
  obtain ⟨al, heoi⟩ := signalEoi_exec (σ := σ) c
  rw [irq01Exit, Instr.execAll_append, heoi, popState_eq]
  have hlen : 8 * stateRegs.length = 120 := rfl
  have hrsp : ({ c.set .rax al with ports := (0x20, 0x20) :: c.ports } : Cpu).rsp = c.rsp := rfl
  have hwords : Words ({ c.set .rax al with ports := (0x20, 0x20) :: c.ports } : Cpu).mem
      ({ c.set .rax al with ports := (0x20, 0x20) :: c.ports } : Cpu).rsp.toNat
      ((stateRegs.map k.reg).reverse ++ (k.rflags &&& ~~~gateFlags) :: k.frame) := by
    rw [hrsp]
    exact hsaved
  obtain ⟨hcontext, hmem, hports⟩ := Instr.leave_skipping (σ := σ) hwords stateRegs_nodup
    rsp_notMem_stateRegs (by
      rw [hrsp, hlen]
      omega)
  refine ⟨?_, hmem, hports⟩
  rw [hcontext]
  apply Context.ext
  · funext r
    by_cases hr : r = .rsp
    · rw [hr]
      rfl
    · show (if r = .rsp then k.reg .rsp else if r ∈ stateRegs then k.reg r else _) = k.reg r
      rw [if_neg hr, if_pos (mem_stateRegs r hr)]
  · rfl
  · rfl
  · rfl
  · rfl

/-- The CPU once the handler of the keyboard has pushed the flags and the state. -/
def enteredKeyboard (c : Cpu) (offset : UInt64) : Cpu :=
  ((c.interrupt 8 offset).push (c.rflags &&& ~~~gateFlags)).pushAll stateRegs

theorem pushed_enteredKeyboard (c : Cpu) (offset : UInt64) (hroom : 184 ≤ c.rsp.toNat) :
    Cpu.Pushed c.aligned (enteredKeyboard c offset) (keyboardSaved c.toContext) := by
  have halign := c.aligned_le
  have hframe := c.pushed_interrupt 8 offset (by omega)
  have htop := hframe.top
  have hlen : 8 * c.frame.length = 40 := rfl
  have hflags := hframe.push (by omega) (c.rflags &&& ~~~gateFlags)
  have hnext := hflags.top
  have hmore : 8 * ((c.rflags &&& ~~~gateFlags) :: c.frame).length = 48 := rfl
  have hregs : 8 * stateRegs.length = 120 := rfl
  have hpush := hflags.pushAll rsp_notMem_stateRegs (by omega)
  have hsame : stateRegs.map c.aligned.reg = stateRegs.map c.reg :=
    map_regs rsp_notMem_stateRegs fun _ hr => Function.update_of_ne hr _ _
  rw [hsame] at hpush
  exact hpush

attribute [irreducible] enteredKeyboard

/-- What the handler of the keyboard calls `irqDispatcher` with. -/
def keyboardArguments (c : Cpu) (offset : UInt64) (s : σ) : Cpu × σ :=
  ((enteredKeyboard c offset).set .rdi 1, s)

/-- The key was F12, and its code comes back in `rax`. -/
def IsSnapshotKey (c : Cpu) : Prop := c.reg .rax = snapshotKeyScancode

theorem irq01_run (F : Externs σ) (L : Labels) (c : Cpu) (offset : UInt64) (s : σ) :
    let result := F.irqDispatcher (keyboardArguments c offset s)
    let compared := Instr.exec (.cmpImm .rax snapshotKeyScancode : Instr σ) result.1
    let after := Instr.run (irq01Handler F L) 0 (c.interrupt 8 offset, s)
    (IsSnapshotKey result.1 → after =
      (Instr.execAll (irq01Exit : Code σ) (Instr.execAll (takeSnapshot L : Code σ) compared),
        result.2)) ∧
    (¬IsSnapshotKey result.1 → after =
      (Instr.execAll (irq01Exit : Code σ) compared, result.2)) := by
  intro result compared after
  have hcode : irq01Handler F L =
      (([.pushfq] : Code σ) ++ pushState ++ ([.movImm .rdi 1] : Code σ)) ++
        (.call F.irqDispatcher :: (([.cmpImm .rax snapshotKeyScancode] : Code σ) ++
          (.jne (takeSnapshot L : Code σ).length :: (takeSnapshot L ++ irq01Exit) : Code σ)) :
            Code σ) := by
    simp only [irq01Handler, irq01Exit, List.append_assoc, List.cons_append, List.nil_append]
  have hentry : Instr.execAll
      (([.pushfq] : Code σ) ++ pushState ++ ([.movImm .rdi 1] : Code σ)) (c.interrupt 8 offset) =
      (keyboardArguments c offset s).1 := by
    rw [Instr.execAll_append, Instr.execAll_append, pushState, Instr.execAll_push,
      keyboardArguments, enteredKeyboard]
    rfl
  have hrun : after = Instr.run (takeSnapshot L ++ irq01Exit : Code σ)
      (if compared.rflags &&& zeroFlag ≠ 0 then 0 else (takeSnapshot L : Code σ).length)
      (compared, result.2) := by
    show Instr.run (irq01Handler F L) 0 (c.interrupt 8 offset, s) = _
    rw [hcode, Instr.run_plain rfl, Instr.run_call, hentry]
    rfl
  have hzero : compared.rflags &&& zeroFlag ≠ 0 ↔ IsSnapshotKey result.1 := subFlags_zero _ _ _
  rw [hrun]
  constructor
  · intro hkey
    rw [if_pos (hzero.mpr hkey), Instr.run_plain rfl]
    exact Instr.run_through rfl _ _
  · intro hkey
    rw [if_neg (mt hzero.mp hkey), Instr.run_skip]
    exact Instr.run_through rfl _ _

theorem enteredKeyboard_rsp (c : Cpu) (offset : UInt64) (hroom : 184 ≤ c.rsp.toNat) :
    (enteredKeyboard c offset).rsp = c.aligned.rsp - 168 := by
  have htop := (pushed_enteredKeyboard c offset hroom).top
  rw [keyboardSavedSize_eq] at htop
  have hsize : keyboardSavedSize = (168 : UInt64).toNat := rfl
  have hle : (168 : UInt64) ≤ c.aligned.rsp := by
    rw [UInt64.le_iff_toNat_le, ← hsize]
    omega
  apply UInt64.toNat_inj.mp
  rw [UInt64.toNat_sub_of_le _ _ hle, ← hsize]
  omega

/-- `sys_get_register_snapshot`. The flag is read as a word of 64 bits. -/
def sysGetRegisterSnapshot (L : Labels) (m : Mem) (registers : ℕ) : Int32 × Mem :=
  if word m L.registerSnapshotTaken.toNat = 0 then (0, m)
  else (1, copyWords 18 m registers L.registerSnapshot.toNat)

/-- A word whose low byte is not zero. -/
theorem word_ne_zero {m : Mem} {a : ℕ} (h : m a ≠ 0) : word m a ≠ 0 := by
  intro hzero
  have hload : load m a 8 = 0 := by
    have hlt := load_lt m 8 a
    have hval : (UInt64.ofNat (load m a 8)).toNat = load m a 8 :=
      UInt64.toNat_ofNat_of_lt' hlt
    rw [← hval]
    exact congrArg UInt64.toNat hzero
  rw [load, Nat.add_eq_zero_iff] at hload
  exact h (UInt8.toNat_inj.mp hload.1)

/-- What is in the snapshot gets to whoever asks for it. -/
theorem sysGetRegisterSnapshot_eq {L : Labels} {m : Mem} {registers : ℕ} {ws : List UInt64}
    (hwords : Words m L.registerSnapshot.toNat ws) (hlen : ws.length = 18)
    (htaken : m L.registerSnapshotTaken.toNat = 1)
    (hclear : registers + snapshotSize ≤ L.registerSnapshot.toNat ∨
      L.registerSnapshot.toNat + snapshotSize ≤ registers) :
    sysGetRegisterSnapshot L m registers = (1, putWords m registers ws) := by
  have hset : word m L.registerSnapshotTaken.toNat ≠ 0 := by
    apply word_ne_zero
    rw [htaken]
    decide
  rw [sysGetRegisterSnapshot, if_neg hset, ← hlen, copyWords_eq hwords]
  rw [hlen]
  exact hclear

/-- **A key** is invisible to the program that it interrupts, F12 included: the handler
writes under `rsp` and, when `irqDispatcher` answers with the code of F12, into the
snapshot. That holds the registers of the program, the address it goes on at, its flags
without those that the gate clears, and the `rsp` of the handler; and
`sys_get_register_snapshot` hands exactly them to whoever asks, as long as nobody has
written to the labels in between. -/
theorem keyboard_snapshot (F : Externs σ) (L : Labels)
    (hF : Abi (InSaved keyboardSavedSize) F.irqDispatcher) (c : Cpu) (offset : UInt64) (s : σ)
    (hroom : 184 ≤ c.rsp.toNat) (hplaced : L.Placed (c.aligned.rsp - 168)) :
    let arguments := keyboardArguments c offset s
    let result := F.irqDispatcher arguments
    let after := Instr.run (irq01Handler F L) 0 (c.interrupt 8 offset, s)
    after.1.toContext = c.toContext ∧ after.2 = result.2 ∧
      after.1.ports = (0x20, 0x20) :: result.1.ports ∧
      c.rsp.toNat < arguments.1.rsp.toNat + 184 ∧
      (∀ x, x < arguments.1.rsp.toNat ∨ c.rsp.toNat ≤ x → arguments.1.mem x = c.mem x) ∧
      (∀ x, x < arguments.1.rsp.toNat ∨ c.rsp.toNat ≤ x →
        ¬(IsSnapshotKey result.1 ∧ L.InSnapshot x) → after.1.mem x = result.1.mem x) ∧
      (IsSnapshotKey result.1 → ∀ (m : Mem) (registers : ℕ),
        (∀ x, L.InSnapshot x → m x = after.1.mem x) →
        (registers + snapshotSize ≤ L.registerSnapshot.toNat ∨
          L.registerSnapshot.toNat + snapshotSize ≤ registers) →
        sysGetRegisterSnapshot L m registers =
          (1, putWords m registers (snapshotOf c.toContext (c.aligned.rsp - 168)))) := by
  intro arguments result after
  have hpush := pushed_enteredKeyboard c offset hroom
  have htop := enteredKeyboard_rsp c offset hroom
  have halign := c.aligned_le
  have hsum := hpush.top
  have hsize : keyboardSavedSize = 168 := rfl
  rw [keyboardSavedSize_eq, htop, hsize] at hsum
  have hentered : arguments.1.rsp = c.aligned.rsp - 168 := htop
  have hnear : c.rsp.toNat < arguments.1.rsp.toNat + 184 := by
    rw [hentered]
    omega
  have hentry : ∀ x, x < arguments.1.rsp.toNat ∨ c.rsp.toNat ≤ x →
      arguments.1.mem x = c.mem x := by
    intro x hx
    rw [hentered, ← htop] at hx
    exact hpush.outside x (hx.imp_right halign.1.trans)
  let compared := Instr.exec (.cmpImm .rax snapshotKeyScancode : Instr σ) result.1
  have hback : compared.rsp = c.aligned.rsp - 168 :=
    (hF.callee (keyboardArguments c offset s) .rsp (by decide)).trans htop
  have hmem : compared.mem = result.1.mem := rfl
  have hports : compared.ports = result.1.ports := rfl
  -- the dispatcher leaves the interrupted program alone
  have hkept : Words compared.mem compared.rsp.toNat (keyboardSaved c.toContext) := by
    rw [hback, ← htop, hmem]
    apply hpush.words.congr
    rw [keyboardSavedSize_eq]
    exact fun x hx hx' => hF.mem (keyboardArguments c offset s) x ⟨hx, hx'⟩
  have hfit : compared.rsp.toNat + keyboardSavedSize < 2 ^ 64 := by
    have hlt := c.rsp.toNat_lt
    rw [hback]
    omega
  obtain ⟨hyes, hno⟩ := irq01_run F L c offset s
  by_cases hkey : IsSnapshotKey result.1
  · have hplaced' : L.Placed compared.rsp := by
      rw [hback]
      exact hplaced
    obtain ⟨m, hm, hrsp, hsame, hsaved, houtside⟩ := takeSnapshot_mem (σ := σ) hplaced' hfit hkept
    let taken := Instr.execAll (takeSnapshot L : Code σ) compared
    have hsaved' : Words taken.mem taken.rsp.toNat (keyboardSaved c.toContext) := by
      rw [hm, hrsp]
      exact saved_withSnapshot hplaced' (snapshotOf_length _ _) (keyboardSavedSize_eq _) hsaved
    have hfit' : taken.rsp.toNat + keyboardSavedSize < 2 ^ 64 := by
      rw [hrsp]
      exact hfit
    obtain ⟨hcontext, hmem', hports'⟩ := irq01_exit (σ := σ) hsaved' hfit'
    have hrun : after = (Instr.execAll (irq01Exit : Code σ) taken, result.2) := hyes hkey
    have hafter : after.1.mem =
        withSnapshot L m (snapshotOf c.toContext (c.aligned.rsp - 168)) := by
      rw [hrun, ← hback, ← hm]
      exact hmem'
    refine ⟨?_, ?_, ?_, hnear, hentry, fun x hx hx' => ?_, fun _ m' registers hm' hclear => ?_⟩
    · rw [hrun]
      exact hcontext
    · rw [hrun]
    · rw [hrun, ← hports, ← hsame]
      exact hports'
    · have hout : ¬L.InSnapshot x := fun hin => hx' ⟨hkey, hin⟩
      rw [hafter, withSnapshot_outside (snapshotOf_length _ _) hout, ← hmem]
      apply houtside
      rintro ⟨hlow, hlt⟩
      rw [hback] at hlow hlt
      rw [hentered] at hx
      omega
    · apply sysGetRegisterSnapshot_eq _ rfl _ hclear
      · apply (words_withSnapshot hplaced' (snapshotOf_length _ _) m).congr
        intro x hx hx'
        rw [hm' x (.inl ⟨hx, hx'⟩), hafter]
      · rw [hm' _ (.inr rfl), hafter]
        exact withSnapshot_taken L m _
  · obtain ⟨hcontext, hmem', hports'⟩ := irq01_exit (σ := σ) hkept hfit
    have hrun : after = (Instr.execAll (irq01Exit : Code σ) compared, result.2) := hno hkey
    rw [hrun]
    exact ⟨hcontext, rfl, by rw [hports', hports], hnear, hentry,
      fun x _ _ => by rw [hmem', hmem], fun h => absurd h hkey⟩

theorem keyboard_snapshot_taken :
    (Instr.run (irq01Handler answers labels) 0 (program.interrupt 8 0x102000, ())).1.toContext =
      program.toContext ∧
    sysGetRegisterSnapshot labels
        (Instr.run (irq01Handler answers labels) 0
          (program.interrupt 8 0x102000, ())).1.mem 0xF02000 =
      (1, putWords
        (Instr.run (irq01Handler answers labels) 0 (program.interrupt 8 0x102000, ())).1.mem
        0xF02000 (snapshotOf program.toContext 0xF00F58)) := by
  obtain ⟨hcontext, _, _, _, _, _, hsnapshot⟩ :=
    keyboard_snapshot answers labels (abi_answer _ _ _) program
    0x102000 () (by decide) ⟨by decide, by decide, by decide, by decide⟩
  exact ⟨hcontext, hsnapshot rfl _ 0xF02000 (fun _ _ => rfl) (by decide)⟩

/-! ## Exceptions -/

/-- The frame that the CPU pushed. -/
def frameSize : ℕ := 40

/-- The instructions of `exceptionHandler` before its first call. -/
def exceptionEntry (L : Labels) (exception : UInt64) : Code σ :=
  ([.cli] : Code σ) ++ storeState L.exceptionRegisterSnapshot ++
    storeFrame L.exceptionRegisterSnapshot 0x00 0x10 ++
    ([.movImm .rdi exception, .movImm .rsi L.exceptionRegisterSnapshot] : Code σ)

/-- The instructions after `call getStackBase`. -/
def exceptionExit : Code σ :=
  [.store .rsp 0x18 .rax, .storeImm .rsp 0x00 userland, .sti, .iretq]

/-- What `exceptionDispatcher` is called with. -/
def exceptionArguments (L : Labels) (exception : UInt64) (c : Cpu) (offset : UInt64) (s : σ) :
    Cpu × σ :=
  (Instr.execAll (exceptionEntry L exception : Code σ) (c.fault 8 offset), s)

theorem exception_run (F : Externs σ) (L : Labels) (exception : UInt64) (c : Cpu)
    (offset : UInt64) (s : σ) :
    Instr.run (exceptionHandler F L exception) 0 (c.fault 8 offset, s) =
      let result :=
        F.getStackBase (F.exceptionDispatcher (exceptionArguments L exception c offset s))
      (Instr.execAll (exceptionExit : Code σ) result.1, result.2) := by
  have hcode : exceptionHandler F L exception = exceptionEntry L exception ++
      (.call F.exceptionDispatcher :: .call F.getStackBase :: exceptionExit : Code σ) := by
    simp only [exceptionHandler, exceptionEntry, exceptionExit, List.append_assoc,
      List.cons_append, List.nil_append]
  rw [hcode, Instr.run_plain rfl, Instr.run_call, Instr.run_call]
  exact Instr.run_through rfl _ _

/-- The registers, `rsp` in the handler, and what the CPU saved of the program. -/
def exceptionSnapshot (k : Context) (rsp : UInt64) : List UInt64 :=
  stateRegs.map k.reg ++ [rsp, k.rip, k.rflags]

/-- What `exceptionDispatcher` prints is the state of the program that failed. -/
theorem exceptionArguments_eq (L : Labels) (exception : UInt64) (c : Cpu) (offset : UInt64) (s : σ)
    (hroom : 56 ≤ c.rsp.toNat)
    (hfit : L.exceptionRegisterSnapshot.toNat + snapshotSize < 2 ^ 64)
    (hapart : L.exceptionRegisterSnapshot.toNat + snapshotSize ≤ (c.aligned.rsp - 40).toNat ∨
      (c.aligned.rsp - 40).toNat + frameSize ≤ L.exceptionRegisterSnapshot.toNat) :
    let arguments := exceptionArguments L exception c offset s
    arguments.1.mem = putWords (c.fault 8 offset).mem L.exceptionRegisterSnapshot.toNat
        (exceptionSnapshot c.faulting (c.aligned.rsp - 40)) ∧
      arguments.1.rsp = c.aligned.rsp - 40 ∧ arguments.1.reg .rdi = exception ∧
      arguments.1.reg .rsi = L.exceptionRegisterSnapshot := by
  intro arguments
  have hpush := c.pushed_fault 8 offset hroom
  have hrsp := c.fault_rsp 8 offset hroom
  have hsize : frameSize = 40 := rfl
  have hwide : snapshotSize = 144 := rfl
  have htop := hpush.top
  have hlen : 8 * c.faulting.frame.length = 40 := rfl
  rw [hrsp, hlen] at htop
  have hlt := c.aligned.rsp.toNat_lt
  have hregs : stateRegs.map (c.fault 8 offset).reg = stateRegs.map c.reg :=
    map_regs rsp_notMem_stateRegs fun r hr => (hpush.regs r hr).trans (Function.update_of_ne hr _ _)
  have h10 : (c.aligned.rsp - 40 + 0x10).toNat = (c.aligned.rsp - 40).toNat + 0x10 :=
    toNat_offset (by
      have height : (0x10 : UInt64).toNat = 0x10 := rfl
      omega)
  have h0 : c.aligned.rsp - 40 + 0x00 = c.aligned.rsp - 40 := UInt64.add_zero _
  obtain ⟨hrip, _, hrflags, _⟩ := hpush.words
  rw [hrsp] at hrip hrflags
  have hcode : arguments.1 = ((Instr.execAll (storeFrame L.exceptionRegisterSnapshot 0x00 0x10 :
      Code σ) (Instr.execAll (storeState L.exceptionRegisterSnapshot : Code σ)
        (Instr.exec (.cli : Instr σ) (c.fault 8 offset)))).set .rdi exception).set .rsi
          L.exceptionRegisterSnapshot := by
    show Instr.execAll (exceptionEntry L exception : Code σ) _ = _
    rw [exceptionEntry, Instr.execAll_append, Instr.execAll_append, Instr.execAll_append]
    rfl
  rw [storeState, Instr.execAll_storeRegs (by rw [stateRegs_length]; omega)] at hcode
  have hcli : (Instr.exec (.cli : Instr σ) (c.fault 8 offset)).reg =
    (c.fault 8 offset).reg := rfl
  have htop₃ : ∀ m : Mem, ({ Instr.exec (.cli : Instr σ) (c.fault 8 offset) with
    mem := m } : Cpu).rsp = c.aligned.rsp - 40 := fun _ => hrsp
  rw [hcli, hregs] at hcode
  refine ⟨?_, ?_, ?_, ?_⟩
  · rw [hcode, Cpu.set_mem, Cpu.set_mem, storeFrame_mem (m := (c.fault 8 offset).mem) hfit
      (by rw [List.length_map, stateRegs_length]) rfl (by rw [htop₃, h0]; omega)
      (by rw [htop₃, h10]; omega)]
    rw [htop₃, h0, h10, hrip, hrflags, exceptionSnapshot]
    rfl
  · rw [hcode, Cpu.set_rsp _ (by decide), Cpu.set_rsp _ (by decide), storeFrame_rsp]
    exact htop₃ _
  · rw [hcode]
    simp
  · rw [hcode]
    simp

/-- The frame with which an exception leaves: everything but `rsp` and the place to
go on at is as the CPU pushed it. -/
theorem exception_exit {c : Cpu} {k : Context} (hsaved : Words c.mem c.rsp.toNat k.frame)
    (hroom : c.rsp.toNat + frameSize < 2 ^ 64) :
    let c' := Instr.execAll (exceptionExit : Code σ) c
    c'.toContext = { k with
      reg := fun r => if r = .rsp then c.reg .rax else c.reg r, rip := userland } ∧
      ∀ x, ¬InSaved frameSize c () x → c'.mem x = c.mem x := by
  have hsize : frameSize = 40 := rfl
  rw [hsize] at hroom
  have h18 : (c.rsp + 0x18).toNat = c.rsp.toNat + 24 := toNat_offset (by
    have height : (0x18 : UInt64).toNat = 0x18 := rfl
    omega)
  have h0 : c.rsp + 0x00 = c.rsp := UInt64.add_zero _
  let m := putWord (putWord c.mem (c.rsp.toNat + 24) (c.reg .rax)) c.rsp.toNat userland
  have hmem : ∀ x, ¬InSaved frameSize c () x → m x = c.mem x := by
    intro x hx
    unfold InSaved at hx
    rw [hsize] at hx
    have hout : putWord c.mem (c.rsp.toNat + 24) (c.reg .rax) x = c.mem x :=
      putWord_outside _ (by omega) _
    rw [← hout]
    exact putWord_outside _ (by omega) _
  obtain ⟨_, hcs, hrflags, _, hss, _⟩ := hsaved
  let k' : Context := { k with reg := fun _ => c.reg .rax, rip := userland }
  -- only the first word of the frame and the fourth are written
  have hkeep : ∀ n, 8 ≤ n → n + 8 ≤ 24 ∨ 32 ≤ n →
      word m (c.rsp.toNat + n) = word c.mem (c.rsp.toNat + n) := by
    intro n hn hn'
    rw [word_putWord_disjoint _ (by omega), word_putWord_disjoint _ (by omega)]
  have hframe : Words m c.rsp.toNat k'.frame := by
    refine ⟨word_putWord _ _ _, ?_, ?_, ?_, ?_, trivial⟩
    · exact (hkeep 8 (by decide) (by decide)).trans hcs
    · exact (hkeep 16 (by decide) (by decide)).trans hrflags
    · show word m (c.rsp.toNat + 24) = c.reg .rax
      rw [word_putWord_disjoint _ (by omega), word_putWord]
    · exact (hkeep 32 (by decide) (by decide)).trans hss
  have hcode : Instr.execAll (exceptionExit : Code σ) c =
      Cpu.iretq { c with mem := m, rflags := c.rflags ||| interruptFlag } := by
    show Cpu.iretq { c with
      mem := putWord (putWord c.mem (c.rsp + 0x18).toNat (c.reg .rax)) (c.rsp + 0x00).toNat userland
      rflags := c.rflags ||| interruptFlag } = _
    rw [h18, h0]
  rw [hcode]
  refine ⟨?_, hmem⟩
  rw [Cpu.iretq_frame (c := { c with mem := m, rflags := c.rflags ||| interruptFlag }) hframe]

/-- **An exception** ends the program that caused it: the dispatcher gets the number
of the exception and the registers of the program, with the `rsp` of the handler and RF
in the flags, and the CPU goes on in the module of the shell, on the stack that
`getStackBase` names, with those flags and the segments of the program. The handler
writes under the `rsp` of the program and into the snapshot. -/
theorem exception_restarts (F : Externs σ) (L : Labels)
    (hD : Abi (InSaved frameSize) F.exceptionDispatcher)
    (hB : Abi (InSaved frameSize) F.getStackBase)
    (exception : UInt64) (c : Cpu) (offset : UInt64) (s : σ) (hroom : 56 ≤ c.rsp.toNat)
    (hfit : L.exceptionRegisterSnapshot.toNat + snapshotSize < 2 ^ 64)
    (hapart : L.exceptionRegisterSnapshot.toNat + snapshotSize ≤ (c.aligned.rsp - 40).toNat ∨
      (c.aligned.rsp - 40).toNat + frameSize ≤ L.exceptionRegisterSnapshot.toNat) :
    let arguments := exceptionArguments L exception c offset s
    let result := F.getStackBase (F.exceptionDispatcher arguments)
    let after := Instr.run (exceptionHandler F L exception) 0 (c.fault 8 offset, s)
    arguments.1.reg .rdi = exception ∧
      Words arguments.1.mem (arguments.1.reg .rsi).toNat
        (exceptionSnapshot c.faulting (c.aligned.rsp - 40)) ∧
      after.1.toContext = { c.faulting with
        reg := fun r => if r = .rsp then result.1.reg .rax else result.1.reg r, rip := userland } ∧
      c.rsp.toNat < arguments.1.rsp.toNat + 56 ∧
      (∀ x, x < arguments.1.rsp.toNat ∨ c.rsp.toNat ≤ x →
        x < L.exceptionRegisterSnapshot.toNat ∨
          L.exceptionRegisterSnapshot.toNat + snapshotSize ≤ x → arguments.1.mem x = c.mem x) ∧
      (∀ x, x < arguments.1.rsp.toNat ∨ c.rsp.toNat ≤ x → after.1.mem x = result.1.mem x) ∧
      after.2 = result.2 := by
  intro arguments result after
  obtain ⟨hmem, hrsp, hrdi, hrsi⟩ := exceptionArguments_eq L exception c offset s hroom hfit hapart
  have hsize : frameSize = 40 := rfl
  have hwide : snapshotSize = 144 := rfl
  have halign := c.aligned_le
  have hpush := c.pushed_fault 8 offset hroom
  have htop := hpush.top
  have hlen : 8 * c.faulting.frame.length = 40 := rfl
  rw [c.fault_rsp 8 offset hroom, hlen] at htop
  -- the frame is still there after both calls
  have hone : (F.exceptionDispatcher arguments).1.rsp = arguments.1.rsp :=
    hD.callee arguments .rsp (by decide)
  have hback : result.1.rsp = c.aligned.rsp - 40 :=
    ((hB.callee _ .rsp (by decide)).trans hone).trans hrsp
  have hkept : Words result.1.mem result.1.rsp.toNat c.faulting.frame := by
    have hwords := hpush.words
    rw [c.fault_rsp 8 offset hroom, ← hback] at hwords
    apply hwords.congr
    rw [hlen, hback]
    intro x hx hx'
    have hsecond : result.1.mem x = (F.exceptionDispatcher arguments).1.mem x := by
      apply hB.mem
      unfold InSaved
      rw [hone, hrsp, hsize]
      exact ⟨hx, hx'⟩
    have hfirst : (F.exceptionDispatcher arguments).1.mem x = arguments.1.mem x := by
      apply hD.mem
      unfold InSaved
      rw [hrsp, hsize]
      exact ⟨hx, hx'⟩
    rw [hsecond, hfirst, hmem]
    apply putWords_outside
    have hwords : 8 * (exceptionSnapshot c.faulting (c.aligned.rsp - 40)).length = 144 := rfl
    omega
  have hlt := c.aligned.rsp.toNat_lt
  obtain ⟨hcontext, houtside⟩ := exception_exit (σ := σ) hkept (by
    rw [hback]
    omega)
  have hrun : after = (Instr.execAll (exceptionExit : Code σ) result.1, result.2) :=
    exception_run F L exception c offset s
  refine ⟨hrdi, ?_, ?_, by rw [hrsp]; omega, fun x hx hx' => ?_, fun x hx => ?_, ?_⟩
  · rw [hrsi, hmem]
    exact words_putWords _ _ _
  · rw [hrun]
    exact hcontext
  · rw [hmem, putWords_outside hx']
    rw [hrsp, ← c.fault_rsp 8 offset hroom] at hx
    exact hpush.outside x (hx.imp_right halign.1.trans)
  · rw [hrun]
    apply houtside
    rw [hrsp] at hx
    unfold InSaved
    rw [hback]
    omega
  · rw [hrun]

theorem exception_restarts_division :
    (Instr.run (exceptionHandler00 answers labels) 0 (program.fault 8 0x103000, ())).1.rip =
      0x400000 ∧
    (Instr.run (exceptionHandler00 answers labels) 0 (program.fault 8 0x103000, ())).1.rflags =
      0x10202 ∧
    (Instr.run (exceptionHandler00 answers labels) 0 (program.fault 8 0x103000, ())).1.reg .rsp =
      0x117FF8 := by
  obtain ⟨_, _, hcontext, _⟩ := exception_restarts answers labels (abi_answer _ _ _)
    (abi_answer _ _ _) 0 program 0x103000 () (by decide) (by decide) (by decide)
  refine ⟨?_, ?_, ?_⟩
  · exact congrArg Context.rip hcontext
  · exact congrArg Context.rflags hcontext
  · exact congrFun (congrArg Context.reg hcontext) .rsp

end BareKernel.Kernel.Interrupts
