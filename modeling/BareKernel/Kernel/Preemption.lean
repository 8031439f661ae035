import BareKernel.Kernel.ContextSwitch
import BareKernel.Kernel.StepTrace
import BareKernel.Lib.Simulations

/-!
# Preemption

Runs of the machine under its timer. It looks like one in which nobody shares the CPU
or the memory of a stack, so that a process that was interrupted goes on as if
nothing had happened, and a new one begins where `createProcess` said.
-/

namespace BareKernel.Kernel.Interrupts

open X86 ByteMemory ProcessState Runs

def Live.Steps (F : Externs Tables) (timer : UInt64) (L : Live) (e : SwitchEvent) (L' : Live) :
    Prop :=
  L' = L.step F timer e

def Private.Steps (P : Private) (e : SwitchEvent) (P' : Private) : Prop := P' = P.step e

/-- Before `main` has created the first process. -/
structure Live.Off (L : Live) : Prop where
  dead : ∀ pid, ¬L.tables.Alive pid
  nobody : L.tables.sched.currentProcess = none
  empty : ∀ i, L.tables.sched.priorityQueues i = []

/-- Nobody has anything yet. -/
def Live.view (L : Live) : Private :=
  ⟨L.tables.sched, L.cpu.toContext, fun _ => L.cpu.toContext, fun _ => L.cpu.mem⟩

theorem Live.Off.matches {L : Live} (h : L.Off) : Matches L L.view := by
  refine ⟨rfl, fun _ i _ pid hpid => ?_, fun c hc => ?_, fun p _ hp => absurd hp (h.dead p), rfl,
    fun c _ hlive => absurd hlive (h.dead c), fun pid hpid => absurd hpid.1 (h.dead pid)⟩
  · rw [h.empty i] at hpid
    exact absurd hpid List.not_mem_nil
  · rw [h.nobody] at hc
    exact absurd hc (by simp)

/-! ## The first process -/

/-- A kernel of which only the switch is looked at. -/
def switchKernel : Externs Tables :=
  { irqDispatcher := fun m => (m.1.set .rax 0, m.2)
    syscallDispatcher := fun m => (m.1.set .rax 0, m.2)
    switchContext := fun m =>
      (m.1.set .rax (m.2.switchContext (m.1.reg .rdi)).1, (m.2.switchContext (m.1.reg .rdi)).2)
    exceptionDispatcher := fun m => (m.1.set .rax 0, m.2)
    getStackBase := fun m => (m.1.set .rax 0x117FF8, m.2) }

theorem switchKernel_calls (depth : ℕ) : TimerCalls depth switchKernel := by
  refine ⟨abi_answer _ _ _, fun _ _ => rfl, abi_answer _ _ _, fun _ => rfl, fun m => ?_⟩
  show (m.1.set .rax _).reg .rax = _
  rw [Cpu.set_reg, if_pos rfl]

/-- `main`, with the top of a new stack in `rcx`. -/
def creating (stackBase : UInt64) (m : Mem) : Cpu :=
  { program with reg := fun r => if r = .rcx then stackBase else program.reg r, mem := m }

def dark : Live :=
  ⟨creating 0xF00000 fun _ => 0,
    { sched := (Machine.off (fun _ => true) fun _ => true).sched
      stackEnd := fun _ => 0
      stackBase := fun _ => 0 }⟩

theorem dark_off : dark.Off := ⟨fun _ hpid => hpid rfl, rfl, fun _ => rfl⟩

def worker : Process :=
  { Machine.emptyProcess with state := READY, priority := 3, originalPriority := 3 }

/-- The gate of the timer. -/
def timerGate : UInt64 := 0x101000

def created : Live := dark.step switchKernel timerGate (.create 1 worker)

def started : Live := created.step switchKernel timerGate .tick

/-- What runs asks for another process, whose stack ends at `stackBase`. -/
def Live.asks (L : Live) (stackBase : UInt64) : SwitchEvent :=
  .run (L.cpu.set .rcx stackBase) L.tables.sched

/-- What runs pushes a word and gives up the CPU. -/
def Live.gives (L : Live) (v : UInt64) : SwitchEvent :=
  .run (L.cpu.push v) { L.tables.sched with isYield := true }

theorem asks_allowed {L : Live} {P : Private} {depth : ℕ} (h : Matches L P) (stackBase : UInt64) :
    L.Allowed depth (L.asks stackBase) :=
  ⟨⟨rfl, fun _ hexited => hexited, h.ready, h.settled⟩, fun _ _ _ _ => rfl⟩

theorem gives_allowed {L : Live} {P : Private} {depth : ℕ} (h : Matches L P) (hroom : L.Room 8)
    (v : UInt64) : L.Allowed depth (L.gives v) := by
  refine ⟨⟨rfl, fun _ hexited => hexited, h.ready, h.settled⟩, fun pid x hpid hx => ?_⟩
  have hlow := hroom.low
  have hout := hroom.others pid hpid x hx
  have hpush : Cpu.Pushed L.cpu (L.cpu.push v) [v] := (Cpu.Pushed.refl L.cpu).push hlow v
  have htop := hpush.top
  apply hpush.outside
  simp at htop
  omega

/-- The timer interrupts a process that has room left on its stack. -/
theorem tick_allowed {L : Live} {P : Private} {n : ℕ} (h : Matches L P) {c : ℤ}
    (hc : L.tables.sched.currentProcess = some c) (hlive : L.tables.Alive c)
    (hlow : 176 + n ≤ L.cpu.rsp.toNat) (htop : L.cpu.rsp.toNat ≤ (L.tables.stackBase c).toNat)
    (hdeep : (L.tables.stackBase c).toNat + (176 + n) ≤ L.cpu.rsp.toNat + stackBytes) :
    L.Allowed n .tick :=
  ⟨trivial, h.room hc hlive hlow htop hdeep⟩

theorem dark_create : dark.Allowed 0 (.create 1 worker) := by
  refine ⟨⟨rfl, by decide, rfl⟩, ⟨by decide, fun pid hpid => absurd hpid.1 (dark_off.dead pid),
    fun c hc => ?_⟩, by decide, by decide, fun q _ hq => absurd hq (dark_off.dead q)⟩
  have hnone : (none : Option ℤ) = some c := hc
  cases hnone

theorem matches_created : Matches created (dark.view.step (.create 1 worker)) :=
  matches_create dark_off.matches dark_create

theorem created_tick : created.Allowed 0 .tick := by
  have hrsp : created.cpu.rsp.toNat = 0xF01000 := by
    have hsame : created.cpu.rsp = (dark.view.step (.create 1 worker)).context.reg .rsp :=
      congrFun (congrArg Context.reg matches_created.context) .rsp
    rw [hsame]
    rfl
  refine ⟨trivial, by omega, fun pid hpid x hx _ => ?_, fun c hc => ?_⟩
  · by_cases hone : pid = 1
    · subst hone
      have hlt : x < 0xF00000 := hx.1
      omega
    · exact absurd ((alive_create hone).mp hpid.1) (dark_off.dead pid)
  · have hnone : (none : Option ℤ) = some c := hc
    cases hnone

theorem created_alive {pid : ℤ} : created.tables.Alive pid ↔ pid = 1 := by
  constructor
  · intro hpid
    by_contra hne
    exact dark_off.dead pid ((alive_create hne).mp hpid)
  · rintro rfl
    show (created.tables.sched.processes 1).state ≠ EXITED
    decide

theorem matches_started :
    Matches started ((dark.view.step (.create 1 worker)).step .tick) :=
  matches_tick (switchKernel_calls 0) matches_created created_tick

/-- The scheduler when the first process has the CPU. -/
def startedSched : Sched :=
  ((dark.tables.sched.setProcess 1 worker).schedule 1).switchContext

theorem started_sched : started.tables.sched = startedSched :=
  (step_tick_sched created timerGate (switchKernel_calls 0)).1

theorem started_current : started.tables.sched.currentProcess = some 1 := by
  rw [started_sched]
  decide

theorem started_alive {pid : ℤ} : started.tables.Alive pid ↔ pid = 1 :=
  (alive_tick created timerGate (switchKernel_calls 0) matches_created.settled pid).trans
    created_alive

theorem started_rsp : started.cpu.rsp = 0xF00000 := by
  have hsame : started.cpu.rsp =
      ((dark.view.step (.create 1 worker)).step .tick).context.reg .rsp :=
    congrFun (congrArg Context.reg matches_started.context) .rsp
  rw [hsame]
  decide

theorem started_base : started.tables.stackBase 1 = 0xF00000 :=
  congrFun (step_tick_sched created timerGate (switchKernel_calls 0)).2 1

/-- What an event of the running code leaves. -/
theorem step_asks (F : Externs Tables) (timer : UInt64) (L : Live) (stackBase : UInt64) :
    (L.step F timer (L.asks stackBase)).tables = L.tables ∧
      (L.step F timer (L.asks stackBase)).cpu = L.cpu.set .rcx stackBase := ⟨rfl, rfl⟩

theorem step_gives (F : Externs Tables) (timer : UInt64) (L : Live) (v : UInt64) :
    (L.step F timer (L.gives v)).tables.sched = { L.tables.sched with isYield := true } ∧
      (L.step F timer (L.gives v)).tables.stackBase = L.tables.stackBase ∧
      (L.step F timer (L.gives v)).cpu.rsp = L.cpu.rsp - 8 := ⟨rfl, rfl, L.cpu.push_rsp v⟩

theorem step_create (F : Externs Tables) (timer : UInt64) (L : Live) (pid : ℤ) (p : Process) :
    (L.step F timer (.create pid p)).tables.sched = (L.tables.sched.setProcess pid p).schedule pid ∧
      (L.step F timer (.create pid p)).tables.stackBase =
        Function.update L.tables.stackBase pid (L.cpu.reg .rcx) := ⟨rfl, rfl⟩

theorem created_step : dark.Steps switchKernel timerGate (.create 1 worker) created := rfl

theorem started_step : created.Steps switchKernel timerGate .tick started := rfl

attribute [irreducible] created started

/-! ## The second process -/

/-- The first process wants to create another one. -/
def asked : Live := started.step switchKernel timerGate (started.asks 0xE00000)

/-- The first process has created the second one. -/
def both : Live := asked.step switchKernel timerGate (.create 2 worker)

/-- The first process is about to lose the CPU. -/
def given : Live := both.step switchKernel timerGate (both.gives 7)

/-- The second process has the CPU. -/
def second : Live := given.step switchKernel timerGate .tick

def secondGiven : Live := second.step switchKernel timerGate (second.gives 9)

/-- The first process has it back. -/
def back : Live := secondGiven.step switchKernel timerGate .tick

theorem asked_step : started.Steps switchKernel timerGate (started.asks 0xE00000) asked := rfl

theorem both_step : asked.Steps switchKernel timerGate (.create 2 worker) both := rfl

theorem given_step : both.Steps switchKernel timerGate (both.gives 7) given := rfl

theorem second_step : given.Steps switchKernel timerGate .tick second := rfl

theorem secondGiven_step : second.Steps switchKernel timerGate (second.gives 9) secondGiven := rfl

theorem back_step : secondGiven.Steps switchKernel timerGate .tick back := rfl

theorem asked_eq : asked.tables = started.tables ∧ asked.cpu = started.cpu.set .rcx 0xE00000 :=
  step_asks _ _ started _

theorem asked_allowed : started.Allowed 0 (started.asks 0xE00000) :=
  asks_allowed matches_started 0xE00000

theorem matches_asked : ∃ P, Matches asked P :=
  ⟨_, matches_step (switchKernel_calls 0) matches_started asked_allowed⟩

theorem asked_rsp : asked.cpu.rsp = 0xF00000 := by
  rw [asked_eq.2, Cpu.set_rsp started.cpu (by decide), started_rsp]

theorem asked_room : asked.Room 8 := by
  obtain ⟨P, h⟩ := matches_asked
  have hcurrent : asked.tables.sched.currentProcess = some 1 := by
    rw [asked_eq.1, started_current]
  have halive : asked.tables.Alive 1 := by
    rw [asked_eq.1, started_alive]
  have hbase : asked.tables.stackBase 1 = 0xF00000 := by
    rw [asked_eq.1, started_base]
  refine h.room hcurrent halive ?_ ?_ ?_
  · rw [asked_rsp]
    decide
  · rw [asked_rsp, hbase]
  · rw [asked_rsp, hbase]
    decide

theorem asked_rcx : asked.cpu.reg .rcx = 0xE00000 := by
  rw [asked_eq.2, Cpu.set_reg, if_pos rfl]

theorem asked_create : asked.Allowed 0 (.create 2 worker) := by
  refine ⟨⟨?_, ?_, rfl⟩, asked_room, ?_, ?_, fun q x hq hx => ?_⟩
  · rw [asked_eq.1, started_sched]
    decide
  · rw [asked_eq.1, started_current]
    decide
  · rw [asked_rcx]
    decide
  · rw [asked_rcx, asked_rsp]
    decide
  · rw [asked_eq.1] at hq hx
    obtain rfl : q = 1 := started_alive.mp hq
    unfold Tables.InStack at hx
    rw [started_base] at hx
    rw [asked_rcx]
    have hlow : (0xE00000 : UInt64).toNat = 0xE00000 := rfl
    have hhigh : (0xF00000 : UInt64).toNat = 0xF00000 := rfl
    have hbytes : stackBytes = 4096 := rfl
    omega

theorem matches_both : ∃ P, Matches asked P ∧ Matches both (P.step (.create 2 worker)) := by
  obtain ⟨P, h⟩ := matches_asked
  exact ⟨P, h, matches_create h asked_create⟩

/-- The scheduler with two processes. -/
def bothSched : Sched := (startedSched.setProcess 2 worker).schedule 2

theorem both_eq : both.tables.sched = bothSched ∧
    both.tables.stackBase = Function.update started.tables.stackBase 2 0xE00000 := by
  obtain ⟨hsched, hbase⟩ := step_create switchKernel timerGate asked 2 worker
  rw [asked_eq.1, started_sched] at hsched
  rw [asked_eq.1, asked_rcx] at hbase
  exact ⟨hsched, hbase⟩

theorem both_current : both.tables.sched.currentProcess = some 1 := by
  rw [both_eq.1]
  decide

theorem both_alive {pid : ℤ} (hpid : pid = 1 ∨ pid = 2) : both.tables.Alive pid := by
  unfold Tables.Alive
  rw [both_eq.1]
  rcases hpid with rfl | rfl <;> decide

theorem both_base : both.tables.stackBase 1 = 0xF00000 ∧ both.tables.stackBase 2 = 0xE00000 := by
  rw [both_eq.2, Function.update_self]
  have hother : Function.update started.tables.stackBase 2 0xE00000 1 =
      started.tables.stackBase 1 := Function.update_of_ne (by decide) _ _
  exact ⟨hother.trans started_base, rfl⟩

theorem both_rsp : both.cpu.rsp = 0xF00000 := by
  obtain ⟨P, h, h'⟩ := matches_both
  have hcontext : both.cpu.rsp = (P.step (.create 2 worker)).context.reg .rsp :=
    congrFun (congrArg Context.reg h'.context) .rsp
  have hsame : asked.cpu.rsp = P.context.reg .rsp :=
    congrFun (congrArg Context.reg h.context) .rsp
  rw [hcontext, ← asked_rsp, hsame]
  exact Function.update_of_ne (show Reg.rsp ≠ .rax by decide)
    (P.context.reg .rcx - UInt64.ofNat savedSize) P.context.reg

theorem both_gives : both.Allowed 0 (both.gives 7) := by
  obtain ⟨P, -, h⟩ := matches_both
  refine gives_allowed h (h.room both_current (both_alive (.inl rfl)) ?_ ?_ ?_) 7
  · rw [both_rsp]
    decide
  · rw [both_rsp, both_base.1]
  · rw [both_rsp, both_base.1]
    decide

theorem given_eq : given.tables.sched = { bothSched with isYield := true } ∧
    given.tables.stackBase = both.tables.stackBase ∧ given.cpu.rsp = 0xEFFFF8 := by
  obtain ⟨hsched, hbase, hrsp⟩ := step_gives switchKernel timerGate both 7
  rw [both_eq.1] at hsched
  rw [both_rsp] at hrsp
  exact ⟨hsched, hbase, hrsp⟩

theorem given_current : given.tables.sched.currentProcess = some 1 := by
  rw [given_eq.1]
  decide

theorem given_alive {pid : ℤ} (hpid : pid = 1 ∨ pid = 2) : given.tables.Alive pid := by
  unfold Tables.Alive
  rw [given_eq.1]
  rcases hpid with rfl | rfl <;> decide

theorem matches_given : ∃ P, Matches asked P ∧
    Matches given ((P.step (.create 2 worker)).step (both.gives 7)) := by
  obtain ⟨P, h, h'⟩ := matches_both
  exact ⟨P, h, matches_step (switchKernel_calls 0) h' both_gives⟩

theorem given_tick : given.Allowed 0 .tick := by
  obtain ⟨P, -, h⟩ := matches_given
  obtain ⟨-, hbase, hrsp⟩ := given_eq
  have hone : given.tables.stackBase 1 = 0xF00000 := by rw [hbase, both_base.1]
  refine tick_allowed h given_current (given_alive (.inl rfl)) ?_ ?_ ?_
  · rw [hrsp]
    decide
  · rw [hrsp, hone]
    decide
  · rw [hrsp, hone]
    decide

/-- The scheduler when the second process has the CPU. -/
def secondSched : Sched := ({ bothSched with isYield := true } : Sched).switchContext

theorem second_eq : second.tables.sched = secondSched ∧
    second.tables.stackBase = both.tables.stackBase := by
  obtain ⟨hsched, hbase⟩ := step_tick_sched given timerGate (switchKernel_calls 0)
  rw [given_eq.1] at hsched
  rw [given_eq.2.1] at hbase
  exact ⟨hsched, hbase⟩

theorem second_current : second.tables.sched.currentProcess = some 2 := by
  rw [second_eq.1]
  decide

theorem second_alive {pid : ℤ} (hpid : pid = 1 ∨ pid = 2) : second.tables.Alive pid := by
  unfold Tables.Alive
  rw [second_eq.1]
  rcases hpid with rfl | rfl <;> decide

theorem matches_second : ∃ P, Matches second P := by
  obtain ⟨P, -, h⟩ := matches_given
  exact ⟨_, matches_tick (switchKernel_calls 0) h given_tick⟩

/-- The second process begins on top of its stack. -/
theorem second_rsp : second.cpu.rsp = 0xE00000 := by
  obtain ⟨P, h, h'⟩ := matches_given
  generalize hP : (P.step (.create 2 worker)).step (both.gives 7) = P' at h'
  have hsecond : Matches second (P'.step .tick) :=
    matches_tick (switchKernel_calls 0) h' given_tick
  have hsaved : P'.saved 2 = freshContext P.context := by
    rw [← hP]
    exact Function.update_self (2 : ℤ) (freshContext P.context) P.saved
  have hcurrent : P'.sched.currentProcess = some 1 := by
    rw [h'.sched, given_current]
  have hnext : P'.sched.switchContext.currentProcess = some 2 := by
    rw [h'.sched, given_eq.1, ← second_current, second_eq.1]
    rfl
  have hsave : P'.save 2 = freshContext P.context := by
    rw [← hsaved]
    unfold Private.save
    rw [hcurrent]
    exact Function.update_of_ne (by decide) _ _
  have hcontext : (P'.step .tick).context = freshContext P.context := by
    rw [← hsave]
    simp [Private.step, hnext]
  have hrcx : asked.cpu.reg .rcx = P.context.reg .rcx :=
    congrFun (congrArg Context.reg h.context) .rcx
  have hrsp : second.cpu.rsp = (P'.step .tick).context.reg .rsp :=
    congrFun (congrArg Context.reg hsecond.context) .rsp
  rw [hrsp, hcontext, ← asked_rcx, hrcx]
  rfl

theorem second_gives : second.Allowed 0 (second.gives 9) := by
  obtain ⟨P, h⟩ := matches_second
  have hbase : second.tables.stackBase 2 = 0xE00000 := by rw [second_eq.2, both_base.2]
  refine gives_allowed h (h.room second_current (second_alive (.inr rfl)) ?_ ?_ ?_) 9
  · rw [second_rsp]
    decide
  · rw [second_rsp, hbase]
  · rw [second_rsp, hbase]
    decide

theorem secondGiven_eq : secondGiven.tables.sched = { secondSched with isYield := true } ∧
    secondGiven.tables.stackBase = both.tables.stackBase ∧ secondGiven.cpu.rsp = 0xDFFFF8 := by
  obtain ⟨hsched, hbase, hrsp⟩ := step_gives switchKernel timerGate second 9
  rw [second_eq.1] at hsched
  rw [second_eq.2] at hbase
  rw [second_rsp] at hrsp
  exact ⟨hsched, hbase, hrsp⟩

theorem secondGiven_current : secondGiven.tables.sched.currentProcess = some 2 := by
  rw [secondGiven_eq.1]
  decide

theorem secondGiven_alive {pid : ℤ} (hpid : pid = 1 ∨ pid = 2) : secondGiven.tables.Alive pid := by
  unfold Tables.Alive
  rw [secondGiven_eq.1]
  rcases hpid with rfl | rfl <;> decide

theorem secondGiven_tick : secondGiven.Allowed 0 .tick := by
  obtain ⟨P, h⟩ := matches_second
  have h' : Matches secondGiven (P.step (second.gives 9)) :=
    matches_step (switchKernel_calls 0) h second_gives
  obtain ⟨-, hbase, hrsp⟩ := secondGiven_eq
  have htwo : secondGiven.tables.stackBase 2 = 0xE00000 := by rw [hbase, both_base.2]
  have hrsp' : secondGiven.cpu.rsp.toNat = 0xDFFFF8 := by rw [hrsp]; rfl
  refine tick_allowed h' secondGiven_current (secondGiven_alive (.inr rfl)) ?_ ?_ ?_
  · rw [hrsp']
    decide
  · rw [hrsp', htwo]
    decide
  · rw [hrsp', htwo]
    decide

theorem back_current : back.tables.sched.currentProcess = some 1 := by
  obtain ⟨hsched, -⟩ := step_tick_sched secondGiven timerGate (switchKernel_calls 0)
  unfold back
  rw [hsched, secondGiven_eq.1]
  decide

/-- From boot until the first process loses the CPU to the second one. -/
def createsAnother : List SwitchEvent :=
  [.create 1 worker, .tick, started.asks 0xE00000, .create 2 worker, both.gives 7]

theorem given_run : Trace (Live.Steps switchKernel timerGate) (Live.Allowed 0) dark createsAnother
    given :=
  .cons dark_create created_step (.cons created_tick started_step (.cons asked_allowed asked_step
    (.cons asked_create both_step (.cons both_gives given_step (.nil _)))))

/-- The second process runs, and gives the CPU back. -/
theorem second_run : Trace (Live.Steps switchKernel timerGate)
    (fun L e => L.tables.Waits 1 ∧ L.Allowed 0 e) second [second.gives 9, .tick] back := by
  have hwaits : second.tables.Waits 1 :=
    ⟨second_alive (.inl rfl), by rw [second_current]; decide⟩
  have hwaits' : secondGiven.tables.Waits 1 :=
    ⟨secondGiven_alive (.inl rfl), by rw [secondGiven_current]; decide⟩
  exact .cons ⟨hwaits, second_gives⟩ secondGiven_step
    (.cons ⟨hwaits', secondGiven_tick⟩ back_step (.nil _))

/-! ## Runs -/

section Runs

variable {F : Externs Tables} {timer : UInt64} {depth : ℕ} {L L' : Live} {P : Private}
  {es : List SwitchEvent} {d : ℤ}

theorem matches_simulates (hF : TimerCalls depth F) :
    Simulates (Live.Steps F timer) (Live.Allowed depth) Private.Steps Matches := by
  rintro L e _ P h hok rfl
  exact ⟨P.step e, rfl, matches_step hF h hok⟩

/-- **The context switch**: whatever happens from boot on, the machine that has one
CPU and one memory looks like the one in which everybody has registers and a stack
of their own. -/
theorem contexts_private (F : Externs Tables) (timer : UInt64) (depth : ℕ)
    (hF : TimerCalls depth F) (L L' : Live) (es : List SwitchEvent) (hoff : L.Off)
    (hrun : Trace (Live.Steps F timer) (Live.Allowed depth) L es L') :
    ∃ P, Trace Private.Steps always L.view es P ∧ Matches L' P :=
  hrun.simulated (matches_simulates hF) hoff.matches

theorem contexts_private_yield : ∃ P, Trace Private.Steps always dark.view
    (createsAnother ++ [.tick, second.gives 9, .tick]) P ∧ Matches back P := by
  apply contexts_private switchKernel timerGate 0 (switchKernel_calls 0) dark back _ dark_off
  apply given_run.append
  exact .cons given_tick second_step (.cons second_gives secondGiven_step
    (.cons secondGiven_tick back_step (.nil _)))

/-- What `d` has when it waits, or when it has the CPU back. -/
structure Holds (d : ℤ) (k : Context) (stack : Mem) (base : UInt64) (L : Live) (P : Private) :
    Prop where
  base : L.tables.stackBase d = base
  stack : P.stack d = stack
  saved : L.tables.sched.currentProcess ≠ some d → P.saved d = k
  context : L.tables.sched.currentProcess = some d → L.tables.Alive d ∧ P.context = k

/-- One step of the others. -/
theorem holds_step (hF : TimerCalls depth F) (h : Matches L P) {k : Context} {stack : Mem}
    {base : UInt64} (hd : Holds d k stack base L P) (hwaits : L.tables.Waits d) {e : SwitchEvent}
    (hok : L.Allowed depth e) : Holds d k stack base (L.step F timer e) (P.step e) := by
  have hsaved := hd.saved hwaits.2
  have hsave : P.save d = k := by
    rw [← hsaved]
    cases hc : L.tables.sched.currentProcess with
    | none => rw [h.save_none hc]
    | some c =>
        have hne : d ≠ c := by
          rintro rfl
          exact hwaits.2 hc
        rw [h.save_some hc]
        exact Function.update_of_ne hne _ _
  cases e with
  | tick =>
      obtain ⟨hsched, hbase⟩ := step_tick_sched L timer hF
      refine ⟨(congrFun hbase d).trans hd.base, hd.stack, fun _ => hsave, fun hback => ?_⟩
      refine ⟨(alive_tick _ timer hF h.settled d).mpr hwaits.1, ?_⟩
      have hnext : P.sched.switchContext.currentProcess = some d := by
        rw [h.sched, ← hsched]
        exact hback
      rw [← hsave]
      simp [Private.step, hnext]
  | run cpu sched =>
      have hcurrent : sched.currentProcess = L.tables.sched.currentProcess := hok.1.current
      refine ⟨hd.base, ?_, fun _ => hsaved, fun hback => ?_⟩
      · rw [← hd.stack]
        unfold Private.step
        dsimp only
        cases hc : P.sched.currentProcess with
        | none => rfl
        | some c =>
            have hne : d ≠ c := by
              rintro rfl
              rw [h.sched] at hc
              exact hwaits.2 hc
            exact Function.update_of_ne hne _ _
      · exact absurd (hcurrent.symm.trans hback) hwaits.2
  | create pid p =>
      have hne : d ≠ pid := by
        rintro rfl
        exact hwaits.1 hok.1.1
      have hcurrent : (L.step F timer (.create pid p)).tables.sched.currentProcess =
        L.tables.sched.currentProcess := Sched.schedule_currentProcess
      refine ⟨(Function.update_of_ne hne _ _).trans hd.base, hd.stack, fun _ => ?_, fun hback => ?_⟩
      · rw [← hsaved]
        exact Function.update_of_ne hne _ _
      · exact absurd (hcurrent.symm.trans hback) hwaits.2

/-- Any number of steps of the others. -/
theorem holds_run (hF : TimerCalls depth F) {k : Context} {stack : Mem} {base : UInt64}
    (hrun : Trace (Live.Steps F timer) (fun L e => L.tables.Waits d ∧ L.Allowed depth e) L es L') :
    ∀ {P}, Matches L P → Holds d k stack base L P → ∃ P', Matches L' P' ∧
      Holds d k stack base L' P' := by
  induction hrun with
  | nil L => exact fun h hd => ⟨_, h, hd⟩
  | cons hok hstep _ ih =>
      intro P h hd
      obtain rfl := hstep
      exact ih (matches_step hF h hok.2) (holds_step hF h hd hok.1 hok.2)

/-- What `d` gets back with the CPU. -/
theorem holds_back (hF : TimerCalls depth F) {k : Context} {stack : Mem} {base : UInt64}
    (hrun : Trace (Live.Steps F timer) (fun L e => L.tables.Waits d ∧ L.Allowed depth e) L es L')
    (h : Matches L P) (hd : Holds d k stack base L P)
    (hback : L'.tables.sched.currentProcess = some d) :
    L'.cpu.toContext = k ∧ L'.tables.stackBase d = base ∧
      ∀ x, L'.tables.InStack d x → (k.reg .rsp).toNat ≤ x → L'.cpu.mem x = stack x := by
  obtain ⟨P', h', hd'⟩ := holds_run hF hrun h hd
  obtain ⟨hlive, hcontext⟩ := hd'.context hback
  have hsame : L'.cpu.toContext = k := h'.context.trans hcontext
  refine ⟨hsame, hd'.base, fun x hx hx' => ?_⟩
  rw [h'.own d hback hlive x hx, hd'.stack]
  have hrsp : L'.cpu.rsp = k.reg .rsp := congrFun (congrArg Context.reg hsame) .rsp
  rw [hrsp]
  exact hx'

/-- **Preemption**: a process that lost the CPU to an interrupt of the timer gets it back
with all its registers and its stack as they were, whoever ran, was created or ended in
between. -/
theorem context_survives (F : Externs Tables) (timer : UInt64) (depth : ℕ)
    (hF : TimerCalls depth F) (L L₀ L₁ : Live) (es₀ es : List SwitchEvent) (d : ℤ) (hoff : L.Off)
    (hrun₀ : Trace (Live.Steps F timer) (Live.Allowed depth) L es₀ L₀)
    (hd : L₀.tables.sched.currentProcess = some d) (hlive : L₀.tables.Alive d)
    (hok : L₀.Allowed depth .tick)
    (hrun : Trace (Live.Steps F timer) (fun L e => L.tables.Waits d ∧ L.Allowed depth e)
      (L₀.step F timer .tick) es L₁)
    (hback : L₁.tables.sched.currentProcess = some d) :
    L₁.cpu.toContext = L₀.cpu.toContext ∧
      ∀ x, L₀.tables.InStack d x → L₀.cpu.rsp.toNat ≤ x → L₁.cpu.mem x = L₀.cpu.mem x := by
  obtain ⟨P, _, h⟩ := hrun₀.simulated (matches_simulates hF) hoff.matches
  obtain ⟨hsched, hbase⟩ := step_tick_sched L₀ timer hF
  have hsave : P.save d = L₀.cpu.toContext := by
    rw [h.save_some hd]
    exact Function.update_self _ _ _
  have hfirst : Holds d L₀.cpu.toContext (P.stack d) (L₀.tables.stackBase d)
      (L₀.step F timer .tick) (P.step .tick) := by
    refine ⟨congrFun hbase d, rfl, fun _ => hsave, fun hnow => ?_⟩
    refine ⟨(alive_tick _ timer hF h.settled d).mpr hlive, ?_⟩
    have hnext : P.sched.switchContext.currentProcess = some d := by
      rw [h.sched, ← hsched]
      exact hnow
    rw [← hsave]
    simp [Private.step, hnext]
  obtain ⟨hcontext, hsame, hstack⟩ := holds_back hF hrun (matches_tick hF h hok) hfirst hback
  refine ⟨hcontext, fun x hx hx' => ?_⟩
  rw [h.own d hd hlive x hx hx']
  apply hstack x
  · unfold Tables.InStack at hx ⊢
    rwa [hsame]
  · exact hx'

/-- The second process has had the CPU, and the first one goes on as before. -/
theorem context_survives_yield : second.tables.sched.currentProcess = some 2 ∧
    back.cpu.toContext = given.cpu.toContext ∧
      ∀ x, given.tables.InStack 1 x → given.cpu.rsp.toNat ≤ x → back.cpu.mem x = given.cpu.mem x :=
  ⟨second_current, context_survives switchKernel timerGate 0 (switchKernel_calls 0) dark given back
    createsAnother _ 1 dark_off given_run given_current (given_alive (.inl rfl)) given_tick
    second_run back_current⟩

/-- **A new process** begins in `processLoader`, on top of its own stack, with the
arguments that `createProcess` gave to `setupStack` and with interrupts enabled. -/
theorem fresh_starts (F : Externs Tables) (timer : UInt64) (depth : ℕ)
    (hF : TimerCalls depth F) (L L₀ L₁ : Live) (es₀ es : List SwitchEvent) (d : ℤ) (p : Process)
    (hoff : L.Off) (hrun₀ : Trace (Live.Steps F timer) (Live.Allowed depth) L es₀ L₀)
    (hok : L₀.Allowed depth (.create d p))
    (hrun : Trace (Live.Steps F timer) (fun L e => L.tables.Waits d ∧ L.Allowed depth e)
      (L₀.step F timer (.create d p)) es L₁)
    (hback : L₁.tables.sched.currentProcess = some d) :
    L₁.cpu.reg .rsp = L₀.cpu.reg .rcx ∧ L₁.cpu.rip = L₀.cpu.reg .r8 ∧
      L₁.cpu.rflags = 0x202 ∧ L₁.cpu.cs = 0x8 ∧
      ∀ r, r ≠ .rsp → r ≠ .rbp → L₁.cpu.reg r = L₀.cpu.reg r := by
  obtain ⟨P, _, h⟩ := hrun₀.simulated (matches_simulates hF) hoff.matches
  have hother : (L₀.step F timer (.create d p)).tables.sched.currentProcess ≠ some d := by
    have hcurrent : (L₀.step F timer (.create d p)).tables.sched.currentProcess =
      L₀.tables.sched.currentProcess := Sched.schedule_currentProcess
    rw [hcurrent]
    exact hok.1.2.1
  have hfirst : Holds d (freshContext L₀.cpu.toContext) (P.stack d) (L₀.cpu.reg .rcx)
      (L₀.step F timer (.create d p)) (P.step (.create d p)) := by
    refine ⟨Function.update_self _ _ _, rfl, fun _ => ?_, fun hnow => absurd hnow hother⟩
    rw [h.context]
    exact Function.update_self _ _ _
  obtain ⟨hcontext, _, _⟩ := holds_back hF hrun (matches_create h hok) hfirst hback
  refine ⟨?_, ?_, ?_, ?_, fun r hr hr' => ?_⟩
  · exact congrFun (congrArg Context.reg hcontext) .rsp
  · exact congrArg Context.rip hcontext
  · exact congrArg Context.rflags hcontext
  · exact congrArg Context.cs hcontext
  · have hreg : L₁.cpu.reg r = (freshContext L₀.cpu.toContext).reg r :=
      congrFun (congrArg Context.reg hcontext) r
    rw [hreg, freshContext]
    dsimp only
    rw [if_neg hr, if_neg hr']

/-- The second process waits while the first one runs on, and then starts. -/
theorem fresh_starts_first : second.cpu.reg .rsp = 0xE00000 ∧ second.cpu.rflags = 0x202 := by
  have hwaits : both.tables.Waits 2 := ⟨both_alive (.inr rfl), by rw [both_current]; decide⟩
  have hwaits' : given.tables.Waits 2 := ⟨given_alive (.inr rfl), by rw [given_current]; decide⟩
  obtain ⟨hrsp, -, hflags, -⟩ := fresh_starts switchKernel timerGate 0 (switchKernel_calls 0) dark
    asked second [.create 1 worker, .tick, started.asks 0xE00000] [both.gives 7, .tick] 2 worker
    dark_off (.cons dark_create created_step (.cons created_tick started_step
      (.cons asked_allowed asked_step (.nil _))))
    asked_create (.cons ⟨hwaits, both_gives⟩ given_step (.cons ⟨hwaits', given_tick⟩ second_step
      (.nil _))) second_current
  exact ⟨hrsp.trans asked_rcx, hflags⟩

end Runs

end BareKernel.Kernel.Interrupts
