import BareKernel.Kernel.InterruptHandlers
import BareKernel.Kernel.SchedulerFacts

/-!
# The context switch

`switchContext` of `Kernel/process/scheduler.c` under the handler of the timer. The
handler leaves the interrupted context on the stack of the process, and goes on
with the stack that `switchContext` answers with, whoever's it is. What holds it
together is that nobody writes to the stack of somebody who waits; then every
process has, in effect, registers and a stack of its own.
-/

namespace BareKernel.Kernel.Interrupts

open X86 ByteMemory ProcessState

/-- `STACK_SIZE`. -/
def stackBytes : ℕ := 4096

/-- The scheduler, and the two fields of every `Process` that point to its stack. -/
structure Tables where
  sched : Sched
  stackEnd : ℤ → UInt64
  stackBase : ℤ → UInt64

namespace Tables

/-- `currentProcess->stackEnd = rsp`, which a process that is `READY` misses. -/
def leave (t : Tables) (c : ℤ) (rsp : UInt64) : ℤ → UInt64 :=
  match (t.sched.processes c).state with
  | RUNNING | BLOCKED | EXITED => Function.update t.stackEnd c rsp
  | READY => t.stackEnd

/-- `switchContext` with what it answers: the stack to go on with. -/
def switchContext (t : Tables) (rsp : UInt64) : UInt64 × Tables :=
  let s := t.sched
  match s.currentProcess with
  | none =>
      match s.unschedule with
      | none => (rsp, t)
      | some (pid, s) => (t.stackEnd pid, { t with sched := s.dispatch pid })
  | some c =>
      if (s.processes c).state = RUNNING ∧ s.quantumsLeft > 0 ∧ ¬s.isYield then
        (rsp, { t with sched := { s with quantumsLeft := s.quantumsLeft - 1 } })
      else
        let stackEnd := t.leave c rsp
        let s := (s.park c).applyAging
        let s := Sched.nextProcess (s.queuedCount + 1) s
        match s.currentProcess with
        | none => (rsp, { t with sched := s, stackEnd })
        | some pid =>
            (stackEnd pid, { t with sched := { s.dispatch pid with isYield := false }, stackEnd })

variable {t : Tables} {rsp : UInt64} {c p : ℤ}

theorem switchContext_sched (t : Tables) (rsp : UInt64) :
    (t.switchContext rsp).2.sched = t.sched.switchContext := by
  unfold switchContext Sched.switchContext
  dsimp only
  cases t.sched.currentProcess with
  | none =>
      dsimp only
      cases t.sched.unschedule with
      | none => rfl
      | some found => rfl
  | some c =>
      dsimp only
      split
      · rfl
      · cases (Sched.nextProcess _ _).currentProcess with
        | none => rfl
        | some pid => rfl

theorem switchContext_stackBase (t : Tables) (rsp : UInt64) :
    (t.switchContext rsp).2.stackBase = t.stackBase := by
  unfold switchContext
  dsimp only
  cases t.sched.currentProcess with
  | none =>
      dsimp only
      cases t.sched.unschedule with
      | none => rfl
      | some found => rfl
  | some c =>
      dsimp only
      split
      · rfl
      · cases (Sched.nextProcess _ _).currentProcess with
        | none => rfl
        | some pid => rfl

/-- Without a current process nothing is kept. -/
theorem switchContext_none (rsp : UInt64) (hnone : t.sched.currentProcess = none) :
    (t.switchContext rsp).2.stackEnd = t.stackEnd ∧
      (t.switchContext rsp).1 = match t.sched.switchContext.currentProcess with
        | none => rsp
        | some p => t.stackEnd p := by
  unfold switchContext Sched.switchContext
  dsimp only
  rw [hnone]
  dsimp only
  cases t.sched.unschedule with
  | none => exact ⟨rfl, by rw [hnone]⟩
  | some found => exact ⟨rfl, rfl⟩

/-- Only the entry of the process that had the CPU is written, and the answer is
where the next one left off. -/
theorem switchContext_some (rsp : UInt64) (hc : t.sched.currentProcess = some c)
    (hready : (t.sched.processes c).state ≠ READY) :
    ((t.switchContext rsp).1 = match t.sched.switchContext.currentProcess with
      | none => rsp
      | some p => if p = c then rsp else t.stackEnd p) ∧
      (∀ q, q ≠ c → (t.switchContext rsp).2.stackEnd q = t.stackEnd q) ∧
      (t.sched.switchContext.currentProcess ≠ some c →
        (t.switchContext rsp).2.stackEnd c = rsp) := by
  unfold switchContext Sched.switchContext
  dsimp only
  rw [hc]
  dsimp only
  by_cases hkeep : (t.sched.processes c).state = RUNNING ∧ t.sched.quantumsLeft > 0 ∧
      ¬t.sched.isYield
  · rw [if_pos hkeep, if_pos hkeep]
    exact ⟨(if_pos rfl).symm, fun _ _ => rfl, fun hne => absurd rfl hne⟩
  · rw [if_neg hkeep, if_neg hkeep]
    have hparked : t.leave c rsp = Function.update t.stackEnd c rsp := by
      unfold leave
      cases hstate : (t.sched.processes c).state with
      | READY => exact absurd hstate hready
      | RUNNING => rfl
      | BLOCKED => rfl
      | EXITED => rfl
    rw [hparked]
    generalize Sched.nextProcess _ _ = s
    have hothers : ∀ r, r ≠ c → Function.update t.stackEnd c rsp r = t.stackEnd r :=
      fun r hr => Function.update_of_ne hr _ _
    have hown : Function.update t.stackEnd c rsp c = rsp := Function.update_self _ _ _
    cases hnext : s.currentProcess with
    | none =>
        refine ⟨?_, hothers, fun _ => hown⟩
        dsimp only
        rw [hnext]
    | some q => exact ⟨Function.update_apply _ _ _ _, hothers, fun _ => hown⟩

def Alive (t : Tables) (pid : ℤ) : Prop := (t.sched.processes pid).state ≠ EXITED

/-- The stack of a process ends at its `stackBase`. -/
def InStack (t : Tables) (pid : ℤ) (x : ℕ) : Prop :=
  x < (t.stackBase pid).toNat ∧ (t.stackBase pid).toNat ≤ x + stackBytes

/-- The process lives and somebody else has the CPU. -/
def Waits (t : Tables) (pid : ℤ) : Prop := t.Alive pid ∧ t.sched.currentProcess ≠ some pid

end Tables

/-! ## The handler of the timer -/

/-- The bytes that are not for a function of C to write: what its caller saved, and
the stacks of the processes but for `depth` bytes under its own frame. -/
def Keeps (depth : ℕ) (c : Cpu) (t : Tables) (x : ℕ) : Prop :=
  InSaved savedSize c t x ∨
    (∃ pid, t.Alive pid ∧ t.InStack pid x) ∧ (x < c.rsp.toNat → x + depth < c.rsp.toNat)

/-- The two functions that the handler of the timer calls. -/
structure TimerCalls (depth : ℕ) (F : Externs Tables) : Prop where
  irqAbi : Abi (Keeps depth) F.irqDispatcher
  irqTables : ∀ m, m.1.reg .rdi = 0 → (F.irqDispatcher m).2 = m.2
  switchAbi : Abi (Keeps depth) F.switchContext
  switchTables : ∀ m, (F.switchContext m).2 = (m.2.switchContext (m.1.reg .rdi)).2
  switchAnswer : ∀ m, (F.switchContext m).1.reg .rax = (m.2.switchContext (m.1.reg .rdi)).1

/-- The instructions from `mov rsp, rax` on. -/
def irq00Exit {σ : Type} : Code σ :=
  ([.mov .rsp .rax] : Code σ) ++ signalEoi ++ popState ++ ([.iretq] : Code σ)

/-- What `irqDispatcher` is called with. -/
def timerArguments (c : Cpu) (timer : UInt64) (t : Tables) : Cpu × Tables :=
  ((entered c timer).set .rdi 0, t)

/-- What `switchContext` is called with. -/
def switchArguments (m : Cpu × Tables) : Cpu × Tables :=
  let c := Instr.exec (.cmpImm .rdi 0 : Instr Tables) (m.1.set .rdi 0)
  (c.set .rdi c.rsp, m.2)

theorem timerArguments_rdi (c : Cpu) (timer : UInt64) (t : Tables) :
    (timerArguments c timer t).1.reg .rdi = 0 := by
  simp [timerArguments]

theorem irq00_run (F : Externs Tables) (c : Cpu) (timer : UInt64) (t : Tables) :
    Instr.run (irq00Handler F) 0 (c.interrupt 8 timer, t) =
      let m := F.switchContext (switchArguments (F.irqDispatcher (timerArguments c timer t)))
      (Instr.execAll (irq00Exit : Code Tables) m.1, m.2) := by
  have hcode : irq00Handler F =
      (pushState ++ ([.movImm .rdi 0] : Code Tables)) ++
        (.call F.irqDispatcher :: (([.movImm .rdi 0, .cmpImm .rdi 0] : Code Tables) ++
          (.jne 3 :: (([.mov .rdi .rsp] : Code Tables) ++
            (.call F.switchContext :: irq00Exit : Code Tables)) : Code Tables)) : Code Tables) := by
    simp only [irq00Handler, irqHandlerMaster, irq00Exit, List.append_assoc, List.cons_append,
      List.nil_append]
  have hentry : Instr.execAll (pushState ++ ([.movImm .rdi 0] : Code Tables))
      (c.interrupt 8 timer) = (timerArguments c timer t).1 := by
    rw [Instr.execAll_append, pushState, Instr.execAll_push, pushAll_entered]
    rfl
  rw [hcode, Instr.run_plain rfl, Instr.run_call, hentry]
  have hpair : ((timerArguments c timer t).1, t) = timerArguments c timer t := rfl
  rw [hpair]
  generalize F.irqDispatcher (timerArguments c timer t) = m
  have hequal : (Instr.exec (.cmpImm .rdi 0 : Instr Tables) (m.1.set .rdi 0)).rflags &&&
      zeroFlag ≠ 0 := by
    apply (subFlags_zero _ _ _).mpr
    simp
  have hcompare : Instr.execAll ([.movImm .rdi 0, .cmpImm .rdi 0] : Code Tables) m.1 =
      Instr.exec (.cmpImm .rdi 0 : Instr Tables) (m.1.set .rdi 0) := rfl
  rw [Instr.run_plain rfl, Instr.run_jne, hcompare, if_pos hequal, Instr.run_plain rfl,
    Instr.run_call]
  exact Instr.run_through rfl _ _

/-- **The way out of the handler of the timer**, on whichever stack it leaves. -/
theorem irq00_exit {σ : Type} {c : Cpu} {k : Context}
    (hsaved : Words c.mem (c.reg .rax).toNat (k.saved stateRegs))
    (hroom : (c.reg .rax).toNat + savedSize ≤ 2 ^ 64) :
    (Instr.execAll (irq00Exit : Code σ) c).toContext = k ∧
      (Instr.execAll (irq00Exit : Code σ) c).mem = c.mem := by
  have hsize : savedSize = 160 := rfl
  have hlen : 8 * stateRegs.length = 120 := rfl
  let c₁ := c.set .rsp (c.reg .rax)
  obtain ⟨al, heoi⟩ := signalEoi_exec (σ := σ) c₁
  let c₂ : Cpu := { c₁.set .rax al with ports := (0x20, 0x20) :: c₁.ports }
  have hrsp : c₂.rsp = c.reg .rax := by
    simp [c₂, c₁, Cpu.rsp]
  have hmem : c₂.mem = c.mem := rfl
  have hcode : Instr.execAll (irq00Exit : Code σ) c = (c₂.popAll stateRegs.reverse).iretq := by
    rw [irq00Exit, List.append_assoc, List.append_assoc, Instr.execAll_append,
      Instr.execAll_append, popState_eq, Instr.execAll_append, Instr.execAll_pop]
    have hmov : Instr.execAll ([.mov .rsp .rax] : Code σ) c = c₁ := rfl
    rw [hmov, heoi]
    rfl
  rw [hcode, ← hmem]
  apply Cpu.restored
  · rw [hrsp, hmem]
    exact hsaved
  · exact stateRegs_nodup
  · exact rsp_notMem_stateRegs
  · exact mem_stateRegs
  · rw [hrsp]
    omega

/-- The memory when `switchContext` has returned. -/
def switchedMem (F : Externs Tables) (c : Cpu) (timer : UInt64) (t : Tables) : Mem :=
  (F.switchContext (switchArguments (F.irqDispatcher (timerArguments c timer t)))).1.mem

section Tick

variable {F : Externs Tables} {depth : ℕ} {c : Cpu} {timer : UInt64} {t : Tables}

/-- The context that was interrupted is on the stack when `switchContext` decides. -/
theorem switchedMem_saved (hF : TimerCalls depth F) (hroom : 176 ≤ c.rsp.toNat) :
    Words (switchedMem F c timer t) (entered c timer).rsp.toNat (c.saved stateRegs) := by
  have hpush := pushed_entered c timer hroom
  apply hpush.words.congr
  rw [savedSize_eq]
  intro x hx hx'
  have hone : (F.irqDispatcher (timerArguments c timer t)).1.rsp = (entered c timer).rsp :=
    hF.irqAbi.callee (timerArguments c timer t) .rsp (by decide)
  have hfirst : (F.irqDispatcher (timerArguments c timer t)).1.mem x = (entered c timer).mem x :=
    hF.irqAbi.mem (timerArguments c timer t) x (.inl ⟨hx, hx'⟩)
  rw [← hfirst]
  apply hF.switchAbi.mem
  refine .inl ⟨?_, ?_⟩
  · exact (congrArg UInt64.toNat hone).trans_le hx
  · exact hx'.trans_eq (congrArg (fun top : UInt64 => top.toNat + savedSize) hone.symm)

/-- What is on the stacks, but for what lies close under the top of this one, stays. -/
theorem switchedMem_stack (hF : TimerCalls depth F) (hroom : 176 ≤ c.rsp.toNat) {x : ℕ}
    (hstack : ∃ pid, t.Alive pid ∧ t.InStack pid x)
    (hx : x < c.rsp.toNat → x + (176 + depth) < c.rsp.toNat) :
    switchedMem F c timer t x = c.mem x := by
  have hpush := pushed_entered c timer hroom
  have halign := c.aligned_le
  have htop := hpush.top
  rw [savedSize_eq] at htop
  have hsize : savedSize = 160 := rfl
  have hone : (F.irqDispatcher (timerArguments c timer t)).1.rsp = (entered c timer).rsp :=
    hF.irqAbi.callee (timerArguments c timer t) .rsp (by decide)
  have hbelow : x < (entered c timer).rsp.toNat → x + depth < (entered c timer).rsp.toNat := by
    omega
  have hsame : (F.irqDispatcher (timerArguments c timer t)).2 = t :=
    hF.irqTables _ (timerArguments_rdi c timer t)
  have hsecond : switchedMem F c timer t x =
      (F.irqDispatcher (timerArguments c timer t)).1.mem x := by
    apply hF.switchAbi.mem
    right
    constructor
    · show ∃ pid, (F.irqDispatcher (timerArguments c timer t)).2.Alive pid ∧
        (F.irqDispatcher (timerArguments c timer t)).2.InStack pid x
      rw [hsame]
      exact hstack
    · show x < (F.irqDispatcher (timerArguments c timer t)).1.rsp.toNat →
        x + depth < (F.irqDispatcher (timerArguments c timer t)).1.rsp.toNat
      rw [hone]
      exact hbelow
  have hfirst : (F.irqDispatcher (timerArguments c timer t)).1.mem x = (entered c timer).mem x :=
    hF.irqAbi.mem (timerArguments c timer t) x (.inr ⟨hstack, hbelow⟩)
  rw [hsecond, hfirst]
  exact hpush.outside x (by omega)

/-- **The handler of the timer** goes on in the context that lies on the stack that
`switchContext` answers with. -/
theorem tick_exec (hF : TimerCalls depth F) :
    let answer := t.switchContext (entered c timer).rsp
    let after := Instr.run (irq00Handler F) 0 (c.interrupt 8 timer, t)
    after.2 = answer.2 ∧
      ∀ k, Words (switchedMem F c timer t) answer.1.toNat (Context.saved stateRegs k) →
        answer.1.toNat + savedSize ≤ 2 ^ 64 →
        after.1.toContext = k ∧ after.1.mem = switchedMem F c timer t := by
  intro answer after
  let first := F.irqDispatcher (timerArguments c timer t)
  have hone : first.1.rsp = (entered c timer).rsp :=
    hF.irqAbi.callee (timerArguments c timer t) .rsp (by decide)
  have hsame : first.2 = t := hF.irqTables _ (timerArguments_rdi c timer t)
  have hrdi : (switchArguments first).1.reg .rdi = (entered c timer).rsp := by
    rw [← hone]
    simp [switchArguments, Instr.exec, Cpu.rsp]
  have htables : (switchArguments first).2 = t := hsame
  let second := F.switchContext (switchArguments first)
  have hanswer : second.1.reg .rax = answer.1 := by
    rw [hF.switchAnswer, hrdi, htables]
  have hrun : after = (Instr.execAll (irq00Exit : Code Tables) second.1, second.2) :=
    irq00_run F c timer t
  constructor
  · rw [hrun]
    show second.2 = answer.2
    rw [hF.switchTables, hrdi, htables]
  · intro k hwords hroom
    rw [← hanswer] at hwords hroom
    obtain ⟨hcontext, hmem⟩ := irq00_exit (σ := Tables) hwords hroom
    rw [hrun]
    exact ⟨hcontext, hmem⟩

end Tick

/-! ## The machine as it is -/

/-- The CPU and the tables of the kernel. -/
structure Live where
  cpu : Cpu
  tables : Tables

/-- What can happen: an interrupt of the timer, by the hardware or by `int 20h`; code
that runs, of a program or of the kernel, up to its next interrupt; and the call of
`setupStack` in `createProcess`, with what is written to the tables around it. No
interrupt of the timer falls into that call, though `main` creates its two processes
with interrupts enabled. -/
inductive SwitchEvent : Type where
  | tick
  | run (cpu : Cpu) (sched : Sched)
  | create (pid : ℤ) (p : Process)

namespace Live

def step (F : Externs Tables) (timer : UInt64) (L : Live) : SwitchEvent → Live
  | .tick =>
      let m := Instr.run (irq00Handler F) 0 (L.cpu.interrupt 8 timer, L.tables)
      ⟨m.1, m.2⟩
  | .run cpu sched => ⟨cpu, { L.tables with sched }⟩
  | .create pid p =>
      let cpu := Instr.execAll (setupStack : Code Tables) L.cpu
      ⟨cpu,
        { sched := (L.tables.sched.setProcess pid p).schedule pid
          stackEnd := Function.update L.tables.stackEnd pid (cpu.reg .rax)
          stackBase := Function.update L.tables.stackBase pid (L.cpu.reg .rcx) }⟩

/-- The `n` bytes under `rsp` are on the stack of whoever runs. -/
structure Room (L : Live) (n : ℕ) : Prop where
  low : n ≤ L.cpu.rsp.toNat
  others : ∀ pid, L.tables.Waits pid → ∀ x, L.tables.InStack pid x →
    x < L.cpu.rsp.toNat → x + n < L.cpu.rsp.toNat
  own : ∀ c, L.tables.sched.currentProcess = some c → L.tables.Alive c →
    L.cpu.rsp.toNat ≤ (L.tables.stackBase c).toNat ∧
      (L.tables.stackBase c).toNat + n ≤ L.cpu.rsp.toNat + stackBytes

end Live

/-- What the code between two interrupts does to the scheduler: it neither gives the
CPU away nor brings anybody back to life. -/
structure Works (s s' : Sched) : Prop where
  current : s'.currentProcess = s.currentProcess
  exited : ∀ pid, (s.processes pid).state = EXITED → (s'.processes pid).state = EXITED
  ready : ∀ c, s'.currentProcess = some c → (s'.processes c).state ≠ READY
  settled : s'.Settled

/-- What an event does to the scheduler. -/
def SwitchEvent.onSched (s : Sched) : SwitchEvent → Sched
  | .tick => s.switchContext
  | .run _ sched => sched
  | .create pid p => (s.setProcess pid p).schedule pid

/-- The events that the kernel has: new processes come in the place of those that are over. -/
def SwitchEvent.Fits (s : Sched) : SwitchEvent → Prop
  | .tick => True
  | .run _ sched => Works s sched
  | .create pid p => (s.processes pid).state = EXITED ∧ s.currentProcess ≠ some pid ∧
      p.state = READY

/-- The stack is deep enough for the handler and the functions it calls; code that runs
leaves the stacks of others alone; and a new stack is nobody's. -/
def Live.Apart (depth : ℕ) (L : Live) : SwitchEvent → Prop
  | .tick => L.Room (176 + depth)
  | .run cpu _ => ∀ pid x, L.tables.Waits pid → L.tables.InStack pid x → cpu.mem x = L.cpu.mem x
  | .create _ _ => L.Room 8 ∧ stackBytes ≤ (L.cpu.reg .rcx).toNat ∧
      (L.cpu.rsp.toNat + stackBytes ≤ (L.cpu.reg .rcx).toNat ∨
        (L.cpu.reg .rcx).toNat + 8 ≤ L.cpu.rsp.toNat) ∧
      ∀ q x, L.tables.Alive q → L.tables.InStack q x →
        ¬(x < (L.cpu.reg .rcx).toNat ∧ (L.cpu.reg .rcx).toNat ≤ x + stackBytes)

def Live.Allowed (depth : ℕ) (L : Live) (e : SwitchEvent) : Prop :=
  e.Fits L.tables.sched ∧ L.Apart depth e

/-! ## The machine as a process sees it -/

/-- Everybody has registers and a stack of their own. -/
structure Private where
  sched : Sched
  context : Context
  saved : ℤ → Context
  stack : ℤ → Mem

namespace Private

/-- Save whoever had the CPU. -/
def save (P : Private) : ℤ → Context :=
  match P.sched.currentProcess with
  | none => P.saved
  | some c => Function.update P.saved c P.context

def step (P : Private) : SwitchEvent → Private
  | .tick =>
      { P with
        sched := P.sched.switchContext
        saved := P.save
        context := match P.sched.switchContext.currentProcess with
          | none => P.context
          | some p => P.save p }
  | .run cpu sched =>
      { P with
        sched
        context := cpu.toContext
        stack := match P.sched.currentProcess with
          | none => P.stack
          | some c => Function.update P.stack c cpu.mem }
  | .create pid p =>
      { P with
        sched := (P.sched.setProcess pid p).schedule pid
        saved := Function.update P.saved pid (freshContext P.context)
        context := { P.context with
          reg := Function.update P.context.reg .rax
            (P.context.reg .rcx - UInt64.ofNat savedSize) } }

end Private

/-! ## The first looks like the second -/

/-- A process that waits lies on its own stack, with what it had there. -/
structure Parked (t : Tables) (m : Mem) (pid : ℤ) (k : Context) (stack : Mem) : Prop where
  low : (t.stackBase pid).toNat ≤ (t.stackEnd pid).toNat + stackBytes
  high : (t.stackEnd pid).toNat + savedSize ≤ (k.reg .rsp).toNat
  base : (k.reg .rsp).toNat ≤ (t.stackBase pid).toNat
  words : Words m (t.stackEnd pid).toNat (k.saved stateRegs)
  stack : ∀ x, (k.reg .rsp).toNat ≤ x → x < (t.stackBase pid).toNat → m x = stack x

structure Matches (L : Live) (P : Private) : Prop where
  sched : P.sched = L.tables.sched
  settled : L.tables.sched.Settled
  ready : ∀ c, L.tables.sched.currentProcess = some c →
    (L.tables.sched.processes c).state ≠ READY
  apart : ∀ p q, L.tables.Alive p → L.tables.Alive q → p ≠ q →
    ∀ x, L.tables.InStack p x → ¬L.tables.InStack q x
  context : L.cpu.toContext = P.context
  own : ∀ c, L.tables.sched.currentProcess = some c → L.tables.Alive c →
    ∀ x, L.tables.InStack c x → L.cpu.rsp.toNat ≤ x → L.cpu.mem x = P.stack c x
  parked : ∀ pid, L.tables.Waits pid →
    Parked L.tables L.cpu.mem pid (P.saved pid) (P.stack pid)

theorem Parked.congr {t t' : Tables} {m m' : Mem} {pid : ℤ} {k : Context} {stack : Mem}
    (h : Parked t m pid k stack) (hbase : t'.stackBase pid = t.stackBase pid)
    (hend : t'.stackEnd pid = t.stackEnd pid)
    (hmem : ∀ x, t.InStack pid x → m' x = m x) : Parked t' m' pid k stack := by
  have hlow := h.low
  have hhigh := h.high
  have htop := h.base
  refine ⟨?_, ?_, ?_, ?_, fun x hx hx' => ?_⟩
  · rwa [hbase, hend]
  · rwa [hend]
  · rwa [hbase]
  · rw [hend]
    apply h.words.congr
    rw [savedSize_eq]
    intro x hx hx'
    apply hmem
    constructor
    · omega
    · omega
  · rw [hbase] at hx'
    rw [hmem x ⟨hx', ?_⟩, h.stack x hx hx']
    unfold savedSize at hhigh
    omega

section Steps

variable {F : Externs Tables} {timer : UInt64} {depth : ℕ} {L : Live} {P : Private}

/-- Code that runs keeps to the stack of whoever runs it. -/
theorem matches_run (h : Matches L P) {cpu : Cpu} {sched : Sched}
    (hok : L.Allowed depth (.run cpu sched)) :
    Matches (L.step F timer (.run cpu sched)) (P.step (.run cpu sched)) := by
  obtain ⟨hworks, hkeep⟩ := hok
  have halive : ∀ pid, (L.step F timer (.run cpu sched)).tables.Alive pid → L.tables.Alive pid :=
    fun pid hpid hexited => hpid (hworks.exited pid hexited)
  refine ⟨rfl, hworks.settled, hworks.ready, fun p q hp hq => h.apart p q (halive p hp)
    (halive q hq), rfl, fun c hc _ x _ _ => ?_, fun pid hpid => ?_⟩
  · have hcurrent : P.sched.currentProcess = some c := by
      rw [h.sched, ← hworks.current]
      exact hc
    simp [Private.step, Live.step, hcurrent]
  · have hwaits : L.tables.Waits pid := by
      refine ⟨halive pid hpid.1, ?_⟩
      rw [← hworks.current]
      exact hpid.2
    have hstack : (P.step (.run cpu sched)).stack pid = P.stack pid := by
      unfold Private.step
      dsimp only
      cases hc : P.sched.currentProcess with
      | none => rfl
      | some c =>
          have hne : pid ≠ c := by
            rintro rfl
            rw [h.sched] at hc
            exact hwaits.2 hc
          exact Function.update_of_ne hne _ _
    rw [hstack]
    exact (h.parked pid hwaits).congr rfl rfl fun x hx => hkeep pid x hwaits hx

theorem alive_create {pid q : ℤ} {p : Process} (hq : q ≠ pid) :
    (L.step F timer (.create pid p)).tables.Alive q ↔ L.tables.Alive q := by
  have hsame : (L.step F timer (.create pid p)).tables.sched.processes q =
      L.tables.sched.processes q := by
    show ((L.tables.sched.setProcess pid p).schedule pid).processes q = _
    rw [Sched.schedule_processes, Sched.setProcess_of_ne hq]
  unfold Tables.Alive
  rw [hsame]

theorem settled_create {s : Sched} (pid : ℤ) {p : Process} (h : s.Settled) (hp : p.state = READY) :
    ((s.setProcess pid p).schedule pid).Settled := by
  intro hnone i hi q hq
  rw [Sched.schedule_processes]
  by_cases hqpid : q = pid
  · subst hqpid
    rw [Sched.setProcess_self, hp]
    decide
  · rw [Sched.setProcess_of_ne hqpid]
    rw [Sched.schedule_currentProcess] at hnone
    rcases Sched.mem_schedule hq with hold | hnew
    · exact h hnone i hi q hold
    · exact absurd hnew hqpid

/-- A new process lies on a stack that was nobody's. -/
theorem matches_create (h : Matches L P) {pid : ℤ} {p : Process}
    (hok : L.Allowed depth (.create pid p)) :
    Matches (L.step F timer (.create pid p)) (P.step (.create pid p)) := by
  obtain ⟨⟨_, hother, hready⟩, hroom, hsize, hapart, hfree⟩ := hok
  have hsettled := settled_create pid h.settled hready
  have hbytes : stackBytes = 4096 := rfl
  have hsaved : savedSize = 160 := rfl
  let t' := (L.step F timer (.create pid p)).tables
  obtain ⟨hrax, hwords, hcontext, hmem⟩ := setupStack_exec (σ := Tables) (c := L.cpu) hroom.low
    (by omega) (by omega)
  have hprocesses : ∀ q, q ≠ pid → t'.sched.processes q = L.tables.sched.processes q := by
    intro q hq
    show ((L.tables.sched.setProcess pid p).schedule pid).processes q = _
    rw [Sched.schedule_processes, Sched.setProcess_of_ne hq]
  have hcurrent : t'.sched.currentProcess = L.tables.sched.currentProcess :=
    Sched.schedule_currentProcess
  have hbase : ∀ q, q ≠ pid → t'.stackBase q = L.tables.stackBase q :=
    fun q hq => Function.update_of_ne hq _ _
  have hend : ∀ q, q ≠ pid → t'.stackEnd q = L.tables.stackEnd q :=
    fun q hq => Function.update_of_ne hq _ _
  have halive : ∀ q, q ≠ pid → t'.Alive q → L.tables.Alive q :=
    fun q hq hlive => (alive_create hq).mp hlive
  have hbaseNew : t'.stackBase pid = L.cpu.reg .rcx := Function.update_self _ _ _
  have hendNew : t'.stackEnd pid =
      (Instr.execAll (setupStack : Code Tables) L.cpu).reg .rax := Function.update_self _ _ _
  have hin : ∀ q, q ≠ pid → ∀ x, t'.InStack q x → L.tables.InStack q x := by
    intro q hq x hx
    unfold Tables.InStack at hx ⊢
    rwa [hbase q hq] at hx
  -- what is written is on the new stack, or under the top of the running one
  have hkept : ∀ q, L.tables.Alive q → ∀ x, L.tables.InStack q x →
      (x < L.cpu.rsp.toNat → x + 8 < L.cpu.rsp.toNat) →
      (Instr.execAll (setupStack : Code Tables) L.cpu).mem x = L.cpu.mem x := by
    intro q hq x hx hx'
    have hout := hfree q x hq hx
    exact hmem x (by omega) (by omega)
  have hanswer : (Instr.execAll (setupStack : Code Tables) L.cpu).reg .rax =
      L.cpu.reg .rcx - UInt64.ofNat savedSize := by
    have hval : (UInt64.ofNat savedSize).toNat = 160 := rfl
    have hle : UInt64.ofNat savedSize ≤ L.cpu.reg .rcx := by
      rw [UInt64.le_iff_toNat_le, hval]
      omega
    apply UInt64.toNat_inj.mp
    rw [hrax, UInt64.toNat_sub_of_le _ _ hle, hval, hsaved]
  refine ⟨?_, hsettled, fun c hc => ?_, fun q r hq hr hne x hx hx' => ?_, ?_,
    fun c hc hlive x hx hx' => ?_, fun q hq => ?_⟩
  · show (P.sched.setProcess pid p).schedule pid = _
    rw [h.sched]
    rfl
  · rw [hcurrent] at hc
    have hne : c ≠ pid := by
      rintro rfl
      exact hother hc
    rw [hprocesses c hne]
    exact h.ready c hc
  · by_cases hqpid : q = pid
    · subst hqpid
      have hrpid : r ≠ q := Ne.symm hne
      apply hfree r x (halive r hrpid hr) (hin r hrpid x hx')
      unfold Tables.InStack at hx
      rwa [hbaseNew] at hx
    by_cases hrpid : r = pid
    · subst hrpid
      apply hfree q x (halive q hqpid hq) (hin q hqpid x hx)
      unfold Tables.InStack at hx'
      rwa [hbaseNew] at hx'
    · exact h.apart q r (halive q hqpid hq) (halive r hrpid hr) hne x (hin q hqpid x hx)
        (hin r hrpid x hx')
  · show (Instr.execAll (setupStack : Code Tables) L.cpu).toContext = _
    rw [hcontext, hanswer, h.context]
    rfl
  · rw [hcurrent] at hc
    have hne : c ≠ pid := by
      rintro rfl
      exact hother hc
    have hrsp : (Instr.execAll (setupStack : Code Tables) L.cpu).rsp = L.cpu.rsp :=
      congrFun (congrArg Context.reg hcontext) .rsp
    have hx' : L.cpu.rsp.toNat ≤ x := hx'.trans_eq' (congrArg UInt64.toNat hrsp)
    exact (hkept c (halive c hne hlive) x (hin c hne x hx) (by omega)).trans
      (h.own c hc (halive c hne hlive) x (hin c hne x hx) hx')
  · by_cases hqpid : q = pid
    · subst hqpid
      have hnew : (P.step (.create q p)).saved q = freshContext L.cpu.toContext := by
        rw [h.context]
        exact Function.update_self _ _ _
      have htop : (freshContext L.cpu.toContext).reg .rsp = L.cpu.reg .rcx := rfl
      rw [hnew]
      refine ⟨?_, ?_, ?_, ?_, fun x hx hx' => ?_⟩
      · rw [hbaseNew, hendNew, hrax]
        omega
      · rw [hendNew, hrax, htop]
        omega
      · rw [hbaseNew, htop]
      · rw [hendNew]
        exact hwords
      · rw [htop] at hx
        rw [hbaseNew] at hx'
        omega
    · have hwaits : L.tables.Waits q := by
        refine ⟨halive q hqpid hq.1, ?_⟩
        rw [← hcurrent]
        exact hq.2
      have hold : (P.step (.create pid p)).saved q = P.saved q := Function.update_of_ne hqpid _ _
      rw [hold]
      apply (h.parked q hwaits).congr (hbase q hqpid) (hend q hqpid)
      exact fun x hx => hkept q hwaits.1 x hx (hroom.others q hwaits x hx)

/-- Who waits is not touched by the handler. -/
theorem parked_tick (hF : TimerCalls depth F) (h : Matches L P) (hroom : L.Room (176 + depth))
    {q : ℤ} (hq : L.tables.Waits q) :
    Parked L.tables (switchedMem F L.cpu timer L.tables) q (P.saved q) (P.stack q) := by
  apply (h.parked q hq).congr rfl rfl
  intro x hx
  have hlow := hroom.low
  exact switchedMem_stack hF (by omega) ⟨q, hq.1, hx⟩ (hroom.others q hq x hx)

/-- The process that had the CPU lies on its stack like everybody else. -/
theorem parked_interrupted (hF : TimerCalls depth F) (h : Matches L P)
    (hroom : L.Room (176 + depth)) {d : ℤ} (hd : L.tables.sched.currentProcess = some d)
    (hlive : L.tables.Alive d) {t : Tables} (hbase : t.stackBase d = L.tables.stackBase d)
    (hend : t.stackEnd d = (entered L.cpu timer).rsp) :
    Parked t (switchedMem F L.cpu timer L.tables) d L.cpu.toContext (P.stack d) := by
  have hlow := hroom.low
  obtain ⟨htop, hdeep⟩ := hroom.own d hd hlive
  have hpush := (pushed_entered L.cpu timer (by omega)).top
  rw [savedSize_eq] at hpush
  have halign := L.cpu.aligned_le
  have hsaved : savedSize = 160 := rfl
  have hbytes : stackBytes = 4096 := rfl
  refine ⟨?_, ?_, ?_, ?_, fun x hx hx' => ?_⟩
  · rw [hbase, hend]
    omega
  · rw [hend]
    exact hpush.trans_le halign.1
  · rw [hbase]
    exact htop
  · rw [hend]
    exact switchedMem_saved hF (by omega)
  · rw [hbase] at hx'
    have hx : L.cpu.rsp.toNat ≤ x := hx
    have hin : L.tables.InStack d x := ⟨hx', by omega⟩
    rw [switchedMem_stack hF (by omega) ⟨d, hlive, hin⟩ (by omega)]
    exact h.own d hd hlive x hin hx

theorem step_tick_sched (L : Live) (timer : UInt64) (hF : TimerCalls depth F) :
    (L.step F timer .tick).tables.sched = L.tables.sched.switchContext ∧
      (L.step F timer .tick).tables.stackBase = L.tables.stackBase := by
  have htables : (L.step F timer .tick).tables =
      (L.tables.switchContext (entered L.cpu timer).rsp).2 := (tick_exec hF).1
  rw [htables]
  exact ⟨Tables.switchContext_sched _ _, Tables.switchContext_stackBase _ _⟩

theorem alive_tick (L : Live) (timer : UInt64) (hF : TimerCalls depth F)
    (hsettled : L.tables.sched.Settled) (q : ℤ) :
    (L.step F timer .tick).tables.Alive q ↔ L.tables.Alive q := by
  unfold Tables.Alive
  rw [(step_tick_sched L timer hF).1]
  exact not_congr ((Sched.switchContext_quiet hsettled).exited q)

theorem Matches.save_none (h : Matches L P) (hc : L.tables.sched.currentProcess = none) :
    P.save = P.saved := by
  unfold Private.save
  rw [h.sched, hc]

theorem Matches.save_some (h : Matches L P) {d : ℤ} (hc : L.tables.sched.currentProcess = some d) :
    P.save = Function.update P.saved d L.cpu.toContext := by
  unfold Private.save
  rw [h.sched, hc, h.context]

/-- An answer that says what the table says. -/
theorem parked_landing {t : Tables} {m : Mem} {p : ℤ} {k : Context} {stack : Mem} {top : UInt64}
    (htop : top = t.stackEnd p) (h : Parked t m p k stack) :
    Parked { t with stackEnd := Function.update t.stackEnd p top } m p k stack := by
  have hsame : Function.update t.stackEnd p top = t.stackEnd := by
    rw [htop]
    exact Function.update_eq_self _ _
  rw [hsame]
  exact h

/-- The switch to `p`, wherever its context comes from. -/
theorem matches_switched (hF : TimerCalls depth F) (h : Matches L P) {p : ℤ}
    (hp : L.tables.sched.switchContext.currentProcess = some p)
    (hland : Parked { L.tables with
        stackEnd := Function.update L.tables.stackEnd p
          (L.tables.switchContext (entered L.cpu timer).rsp).1 }
      (switchedMem F L.cpu timer L.tables) p (P.save p) (P.stack p))
    (hstay : ∀ q, L.tables.Alive q → q ≠ p → Parked (L.step F timer .tick).tables
      (switchedMem F L.cpu timer L.tables) q (P.save q) (P.stack q)) :
    Matches (L.step F timer .tick) (P.step .tick) := by
  obtain ⟨hsched, hbase⟩ := step_tick_sched L timer hF
  have halive := alive_tick L timer hF h.settled
  have hhigh := hland.high
  have hwords := hland.words
  dsimp only at hhigh hwords
  rw [Function.update_self] at hhigh hwords
  have hlt := ((P.save p).reg .rsp).toNat_lt
  obtain ⟨hcontext, hmem⟩ := (tick_exec (t := L.tables) hF).2 _ hwords (by omega)
  have hnext : P.sched.switchContext.currentProcess = some p := by
    rw [h.sched]
    exact hp
  have hsave : (P.step .tick).context = P.save p := by
    simp [Private.step, hnext]
  have hmem : (L.step F timer .tick).cpu.mem = switchedMem F L.cpu timer L.tables := hmem
  have hcontext : (L.step F timer .tick).cpu.toContext = P.save p := hcontext
  refine ⟨?_, ?_, fun c hc => ?_, fun q r hq hr hne x hx hx' => ?_, ?_,
    fun c hc _ x hx hx' => ?_, fun q hq => ?_⟩
  · rw [hsched, ← h.sched]
    rfl
  · rw [hsched]
    exact Sched.switchContext_settled h.settled
  · rw [hsched] at hc ⊢
    rw [Sched.switchContext_running hc]
    decide
  · apply h.apart q r ((halive q).mp hq) ((halive r).mp hr) hne x
    · unfold Tables.InStack at hx ⊢
      rwa [hbase] at hx
    · unfold Tables.InStack at hx' ⊢
      rwa [hbase] at hx'
  · rw [hcontext, hsave]
  · rw [hsched] at hc
    obtain rfl : p = c := Option.some.inj (hp.symm.trans hc)
    unfold Tables.InStack at hx
    rw [hbase] at hx
    have hrsp : (L.step F timer .tick).cpu.rsp = (P.save p).reg .rsp :=
      congrFun (congrArg Context.reg hcontext) .rsp
    rw [hmem]
    rw [hrsp] at hx'
    exact hland.stack x hx' hx.1
  · have hne : q ≠ p := by
      rintro rfl
      apply hq.2
      rw [hsched]
      exact hp
    rw [hmem]
    exact hstay q ((halive q).mp hq.1) hne

/-- Nobody gets the CPU: what was interrupted goes on, in the name of nobody. -/
theorem matches_nobody (hF : TimerCalls depth F) (h : Matches L P) (hroom : L.Room (176 + depth))
    (hnext : L.tables.sched.switchContext.currentProcess = none)
    (hanswer : (L.tables.switchContext (entered L.cpu timer).rsp).1 = (entered L.cpu timer).rsp)
    (hstay : ∀ q, L.tables.Alive q → Parked (L.step F timer .tick).tables
      (switchedMem F L.cpu timer L.tables) q (P.save q) (P.stack q)) :
    Matches (L.step F timer .tick) (P.step .tick) := by
  obtain ⟨hsched, hbase⟩ := step_tick_sched L timer hF
  have halive := alive_tick L timer hF h.settled
  have hlow := hroom.low
  have hsaved : savedSize = 160 := rfl
  have htop := (pushed_entered L.cpu timer (by omega)).top
  rw [savedSize_eq] at htop
  have halign := L.cpu.aligned_le
  have hlt := L.cpu.rsp.toNat_lt
  obtain ⟨hcontext, hmem⟩ := (tick_exec (t := L.tables) hF).2 L.cpu.toContext
    (by rw [hanswer]; exact switchedMem_saved hF (by omega)) (by rw [hanswer]; omega)
  have hmem : (L.step F timer .tick).cpu.mem = switchedMem F L.cpu timer L.tables := hmem
  have hcontext : (L.step F timer .tick).cpu.toContext = L.cpu.toContext := hcontext
  have hquiet : P.sched.switchContext.currentProcess = none := by
    rw [h.sched]
    exact hnext
  refine ⟨?_, ?_, fun c hc => ?_, fun q r hq hr hne x hx hx' => ?_, ?_, fun c hc => ?_,
    fun q hq => ?_⟩
  · rw [hsched, ← h.sched]
    rfl
  · rw [hsched]
    exact Sched.switchContext_settled h.settled
  · rw [hsched, hnext] at hc
    exact absurd hc (by simp)
  · apply h.apart q r ((halive q).mp hq) ((halive r).mp hr) hne x
    · unfold Tables.InStack at hx ⊢
      rwa [hbase] at hx
    · unfold Tables.InStack at hx' ⊢
      rwa [hbase] at hx'
  · rw [hcontext, h.context]
    simp [Private.step, hquiet]
  · rw [hsched, hnext] at hc
    exact absurd hc (by simp)
  · rw [hmem]
    exact hstay q ((halive q).mp hq.1)

/-- **The interrupt of the timer.** -/
theorem matches_tick (hF : TimerCalls depth F) (h : Matches L P) (hok : L.Allowed depth .tick) :
    Matches (L.step F timer .tick) (P.step .tick) := by
  have hroom : L.Room (176 + depth) := hok.2
  obtain ⟨hsched, hbase⟩ := step_tick_sched L timer hF
  have htables : (L.step F timer .tick).tables =
      (L.tables.switchContext (entered L.cpu timer).rsp).2 := (tick_exec hF).1
  -- whoever gets the CPU is not over
  have hnew : ∀ p, L.tables.sched.switchContext.currentProcess = some p → L.tables.Alive p := by
    intro p hp
    apply (alive_tick L timer hF h.settled p).mp
    unfold Tables.Alive
    rw [hsched, Sched.switchContext_running hp]
    decide
  cases hc : L.tables.sched.currentProcess with
  | none =>
      obtain ⟨hends, hanswer⟩ :=
        Tables.switchContext_none (entered L.cpu timer).rsp hc
      have hwaits : ∀ q, L.tables.Alive q → L.tables.Waits q := by
        intro q hq
        refine ⟨hq, ?_⟩
        rw [hc]
        simp
      have hstay : ∀ q, L.tables.Alive q → Parked (L.step F timer .tick).tables
          (switchedMem F L.cpu timer L.tables) q (P.save q) (P.stack q) := by
        intro q hq
        have hend : (L.step F timer .tick).tables.stackEnd q = L.tables.stackEnd q := by
          rw [htables, hends]
        rw [h.save_none hc]
        exact (parked_tick hF h hroom (hwaits q hq)).congr (congrFun hbase q) hend fun _ _ => rfl
      cases hp : L.tables.sched.switchContext.currentProcess with
      | none =>
          rw [hp] at hanswer
          exact matches_nobody hF h hroom hp hanswer hstay
      | some p =>
          rw [hp] at hanswer
          apply matches_switched hF h hp
          · rw [h.save_none hc]
            apply parked_landing hanswer
            exact parked_tick hF h hroom (hwaits p (hnew p hp))
          · exact fun q hq _ => hstay q hq
  | some d =>
      obtain ⟨hanswer, hothers, hkept⟩ := Tables.switchContext_some (entered L.cpu timer).rsp hc
        (h.ready d hc)
      have hsave := h.save_some hc
      have hwaits : ∀ q, q ≠ d → L.tables.Alive q → L.tables.Waits q := by
        intro q hne hq
        refine ⟨hq, fun heq => hne ?_⟩
        exact (Option.some.inj (hc.symm.trans heq)).symm
      have hland : ∀ t : Tables, L.tables.Alive d → t.stackBase = L.tables.stackBase →
          t.stackEnd d = (entered L.cpu timer).rsp →
          Parked t (switchedMem F L.cpu timer L.tables) d (P.save d) (P.stack d) := by
        intro t hlive hsame hend
        rw [hsave, Function.update_self]
        exact parked_interrupted hF h hroom hc hlive (congrFun hsame d) hend
      have hstay : ∀ q, L.tables.Alive q → L.tables.sched.switchContext.currentProcess ≠ some q →
          Parked (L.step F timer .tick).tables (switchedMem F L.cpu timer L.tables) q
            (P.save q) (P.stack q) := by
        intro q hq hnext
        by_cases hqd : q = d
        · subst hqd
          apply hland _ hq hbase
          rw [htables]
          exact hkept hnext
        · have hend : (L.step F timer .tick).tables.stackEnd q = L.tables.stackEnd q := by
            rw [htables]
            exact hothers q hqd
          rw [hsave, Function.update_of_ne hqd]
          exact (parked_tick hF h hroom (hwaits q hqd hq)).congr (congrFun hbase q) hend
            fun _ _ => rfl
      cases hp : L.tables.sched.switchContext.currentProcess with
      | none =>
          rw [hp] at hanswer
          apply matches_nobody hF h hroom hp hanswer
          intro q hq
          apply hstay q hq
          rw [hp]
          simp
      | some p =>
          rw [hp] at hanswer
          apply matches_switched hF h hp
          · by_cases hpd : p = d
            · subst hpd
              have hend : Function.update L.tables.stackEnd p
                  (L.tables.switchContext (entered L.cpu timer).rsp).1 p =
                    (entered L.cpu timer).rsp := by
                rw [hanswer]
                simp
              exact hland { L.tables with stackEnd := _ } (hnew p hp) rfl hend
            · rw [hsave, Function.update_of_ne hpd]
              apply parked_landing (hanswer.trans (if_neg hpd))
              exact parked_tick hF h hroom (hwaits p hpd (hnew p hp))
          · intro q hq hqp
            apply hstay q hq
            rw [hp]
            exact fun heq => hqp (Option.some.inj heq).symm

/-- Whoever runs on a stack of its own has nobody else's under it. -/
theorem Matches.room (h : Matches L P) {n : ℕ} {c : ℤ}
    (hc : L.tables.sched.currentProcess = some c) (hlive : L.tables.Alive c)
    (hlow : n ≤ L.cpu.rsp.toNat) (htop : L.cpu.rsp.toNat ≤ (L.tables.stackBase c).toNat)
    (hdeep : (L.tables.stackBase c).toNat + n ≤ L.cpu.rsp.toNat + stackBytes) : L.Room n := by
  refine ⟨hlow, fun pid hpid x hx hx' => ?_, fun d hd _ => ?_⟩
  · by_contra hnear
    have hne : pid ≠ c := by
      rintro rfl
      exact hpid.2 hc
    apply h.apart pid c hpid.1 hlive hne x hx
    constructor
    · omega
    · omega
  · obtain rfl : c = d := Option.some.inj (hc.symm.trans hd)
    exact ⟨htop, hdeep⟩

/-- **A step of the machine is a step of the private one.** -/
theorem matches_step (hF : TimerCalls depth F) (h : Matches L P) {e : SwitchEvent}
    (hok : L.Allowed depth e) : Matches (L.step F timer e) (P.step e) := by
  cases e with
  | tick => exact matches_tick hF h hok
  | run cpu sched => exact matches_run h hok
  | create pid p => exact matches_create h hok

end Steps

end BareKernel.Kernel.Interrupts
