import BareKernel.Kernel.HeapExhaustion
import Mathlib.Data.List.Induction

/-!
# Boot under the timer

`main` of `Kernel/kernel.c`, statement by statement. `load_idt` ends with `_sti`,
so from its return on the timer can fire between any two statements. `main` is
no process: while `currentProcess` is null, the first process that
`switchContext` finds is started on its own stack, and the stack of `main` is
kept nowhere. A tick is harmless as long as the ready queues are empty, and
takes the CPU from `main` for ever as soon as init stands in one.
-/

namespace BareKernel.Kernel

open ProcessState Runs Machine

/-- Where `main` is inside `createProcess`. What lies between two of these points
touches neither a ready queue nor `currentProcess`. -/
inductive CreateStage : Type where
  | check
  | alloc
  | getFreeProcess
  | fill (pid : ℤ)
  | schedule (pid : ℤ)
  | ret (pid : ℤ)
deriving DecidableEq

/-- The statements of `main`, with the loop of `initScheduler` unrolled. -/
inductive MainStep : Type where
  | loadIdt
  | createMemoryManager
  | initSemManager
  | initFileDescriptors
  | initKeyboard
  | setFontSize
  | initProcesses
  | newReadyQueue
  | noProcess
  | sti
  | createProcess (params : CreationParameters) (stage : CreateStage)
  | forceSwitchContext

/-- `rest` is what `main` has before it, and nothing once its stack is lost.
`returned` is what `createProcess` returned to it. -/
structure Boot where
  machine : Machine
  interrupts : Bool
  rest : List MainStep
  returned : List ℤ

inductive BootEvent : Type where
  | main
  | tick
deriving DecidableEq

namespace Boot

/-- The interrupt of the timer, raised by the hardware or by `int 20h`. -/
def switchContext (B : Boot) : Boot :=
  let M := B.machine.onSched Sched.switchContext
  match M.sched.currentProcess with
  | none => { B with machine := M }
  -- another stack was returned, and nobody has that of `main`
  | some _ => { B with machine := M, rest := [] }

def onMachine (B : Boot) (f : Machine → Machine) : Boot := { B with machine := f B.machine }

def initSemManager (S : Machine) : Machine :=
  { S with sems := { S.sems with sems := fun i =>
      { S.sems.sems i with used := false, waiting := .null } } }

/-- The stream of `STDIN` and its two semaphores, which get the first slots. -/
def initFileDescriptors (S : Machine) : Machine :=
  let ends : ℤ → FD := fun fd =>
    if fd = stdin then ⟨true, some 0, .RW⟩
    else if fd = stdout ∨ fd = stderr then ⟨true, none, .W⟩
    else ⟨false, none, (S.fileDescriptors fd).mode⟩
  let S := (S.setSem 0 (bootSem 0 true (.queue []) "/stdin_read")).note (.semCreated 0 0)
  let S := (S.setSem 1 (bootSem 2048 true (.queue []) "/stdin_write")).note (.semCreated 1 2048)
  { S.setStream 0 stdinStream with fileDescriptors := ends, nextStream := 1 }

def initKeyboard (S : Machine) : Machine :=
  (S.setSem 2 (bootSem 0 true (.queue []) "keyboard_input")).note (.semCreated 2 0)

def initProcesses (S : Machine) : Machine :=
  S.onSched fun s => { s with processes := fun pid =>
    { s.processes pid with state := EXITED, argc := 0, waitPid := nonPid, fds := (0, 1) } }

/-- `createProcess` from one of its points to the next. -/
def create (B : Boot) (params : CreationParameters) : CreateStage → Boot
  | .check =>
      if !checkPriority params.priority ∨ params.argc < 0 ∨ params.entryPoint = 0 ∨
          !checkName params.name then
        { B with rest := .createProcess params (.ret (-1)) :: B.rest }
      else { B with rest := .createProcess params .alloc :: B.rest }
  | .alloc =>
      let (served, s) := B.machine.sched.allocBlocks (neededBlocks params)
      let stage := if served then .getFreeProcess else .ret (-1)
      { B with
        machine := { B.machine with sched := s }
        rest := .createProcess params stage :: B.rest }
  | .getFreeProcess =>
      let stage := match B.machine.getFreeProcess with
        | none => .ret (-1)
        | some pid => .fill pid
      { B with rest := .createProcess params stage :: B.rest }
  | .fill pid =>
      let name := params.name.getD []
      let S :=
        B.machine.onSched fun s => s.setProcess pid (newProcess (s.processes pid) name params)
      { B with
        machine := S.setFrame pid .user
        rest := .createProcess params (.schedule pid) :: B.rest }
  | .schedule pid =>
      { B with
        machine := (B.machine.onSched fun s => s.schedule pid).note (.created pid)
        rest := .createProcess params (.ret pid) :: B.rest }
  | .ret pid => { B with returned := B.returned ++ [pid] }

def run (B : Boot) : MainStep → Boot
  | .loadIdt => { B with interrupts := true }
  -- the heap, the font and the flag, which is set already
  | .createMemoryManager | .setFontSize | .sti => B
  | .initSemManager => B.onMachine initSemManager
  | .initFileDescriptors => B.onMachine initFileDescriptors
  | .initKeyboard => B.onMachine initKeyboard
  | .initProcesses => B.onMachine initProcesses
  -- a queue that is null and one that is empty are the same to the scheduler
  | .newReadyQueue => B.onMachine fun S => S.onSched Sched.dropBlock
  | .noProcess => B.onMachine fun S => S.onSched fun s => { s with currentProcess := none }
  | .createProcess params stage => B.create params stage
  | .forceSwitchContext => B.switchContext

def step (B : Boot) : BootEvent → Option Boot
  | .main =>
      match B.rest with
      | [] => none
      | first :: rest => some ({ B with rest }.run first)
  | .tick => if B.interrupts then some B.switchContext else none

def mainSteps : List MainStep :=
  [.loadIdt, .createMemoryManager, .initSemManager, .initFileDescriptors, .initKeyboard,
    .setFontSize, .initProcesses, .newReadyQueue, .newReadyQueue, .newReadyQueue, .newReadyQueue,
    .newReadyQueue, .noProcess, .sti, .createProcess initParams .check,
    .createProcess shellParams .check, .forceSwitchContext]

/-- The kernel when `main` is called: its variables are zero, and every
allocation will succeed. -/
def powered : Boot :=
  { machine :=
      { sched :=
          { processes := fun _ => { emptyProcess with state := READY, waitPid := 0, fds := (0, 0) }
            priorityQueues := fun _ => []
            currentProcess := none
            quantumsLeft := 0
            isYield := false
            nodes := fun _ => true
            blocks := fun _ => true }
        sems := { sems := fun _ => bootSem 0 false .null "", beyond := 0 }
        fileDescriptors := fun _ => ⟨false, none, .R⟩
        streams := fun _ => none
        nextStream := 0
        frames := fun _ => .user
        trace := [] }
    interrupts := false
    rest := mainSteps
    returned := [] }

variable {B B' : Boot} {e : BootEvent} {es : List BootEvent} {params : CreationParameters}
  {rest : List MainStep} {pid : ℤ} {n : ℕ}

/-! ## What `main` does without the timer -/

/-- `main` alone, for a number of steps. -/
def alone (n : ℕ) : Option Boot := exec step powered (List.replicate n .main)

/-- **The points of `createProcess` in a row are `createProcess`** where it succeeds. -/
theorem create_runs (hrest : B.rest = .createProcess params .check :: rest)
    (hpid : 0 < (B.machine.createProcess (some params)).1) :
    exec step B (List.replicate 6 .main) = some { B with
      machine := (B.machine.createProcess (some params)).2
      rest := rest
      returned := B.returned ++ [(B.machine.createProcess (some params)).1] } := by
  obtain ⟨M, interrupts, _, returned⟩ := B
  obtain rfl := hrest
  unfold createProcess at hpid ⊢
  cases hname : params.name with
  | none => simp [hname] at hpid
  | some name =>
      simp only [hname] at hpid ⊢
      split at hpid
      · exact absurd hpid (by simp)
      · rename_i hcheck
        rw [if_neg hcheck]
        rw [← hname] at hcheck
        split at hpid
        · exact absurd hpid (by simp)
        · rename_i s hblocks
          obtain ⟨outcomes, hsame⟩ := allocBlocks_eq (n := neededBlocks params) (s := M.sched)
          replace hsame : s = { M.sched with blocks := outcomes } := by
            rw [hblocks] at hsame
            exact hsame
          split at hpid
          · exact absurd hpid (by simp)
          · rename_i pid hfree
            have hget : ({ M with sched := s } : Machine).getFreeProcess = some pid := by
              rw [← hfree, hsame]
              rfl
            have hgetD : params.name.getD [] = name := by
              rw [hname]
              rfl
            simp only [List.replicate, exec, step, run, create, Option.bind_some, if_neg hcheck,
              hblocks, if_true, hget, hgetD]
            rfl

/-- What `main` sets up before the first process is what the model starts from. -/
theorem alone_off : alone 14 = some
    { machine := off (fun _ => true) fun _ => true
      interrupts := true
      rest := [.createProcess initParams .check, .createProcess shellParams .check,
        .forceSwitchContext]
      returned := [] } := by
  have hsems : ((((initSemManager powered.machine).setSem 0
      (bootSem 0 true (.queue []) "/stdin_read")).setSem 1
        (bootSem 2048 true (.queue []) "/stdin_write")).setSem 2
          (bootSem 0 true (.queue []) "keyboard_input")).sems = bootSems := by
    refine congrArg (SemTable.mk · 0) (funext fun i => ?_)
    rcases i with _ | _ | _ | i <;> rfl
  have hstreams : Function.update (fun _ => none) 0 (some stdinStream) =
      fun id : ℕ => if id = 0 then some stdinStream else none :=
    funext fun id => Function.update_apply _ _ _ _
  unfold off
  rw [← hsems, ← hstreams]
  rfl

/-- **Without a tick both calls return**, and the switch that follows starts the shell. -/
theorem alone_calls : ∃ M, alone 26 = some
    { machine := M
      interrupts := true
      rest := [.forceSwitchContext]
      returned := [initPid, shellPid] } ∧ M.onSched Sched.switchContext = booted := by
  let S₀ := off (fun _ => true) fun _ => true
  have hinit : (S₀.createProcess (some initParams)).1 = initPid := by decide +kernel
  have hshell : ((S₀.createProcess (some initParams)).2.createProcess (some shellParams)).1 =
      shellPid := by decide +kernel
  refine ⟨((S₀.createProcess (some initParams)).2.createProcess (some shellParams)).2, ?_, rfl⟩
  have hoff := alone_off
  unfold alone at hoff
  change exec step powered (List.replicate 14 .main ++ (List.replicate 6 .main ++
    List.replicate 6 .main)) = _
  rw [exec_append, hoff, Option.bind_some, exec_append, create_runs rfl (by rw [hinit]; decide),
    Option.bind_some, create_runs rfl (by rw [hshell]; decide), hinit, hshell]
  rfl

/-- Before that, either the ready queues are empty or init stands in one. -/
theorem alone_before : ∀ n < 26, ∃ B, alone n = some B ∧ B.rest.length ≠ 0 ∧
    B.machine.sched.currentProcess = none ∧ B.returned.length < 2 ∧
      (initPid ∈ B.machine.sched.priorityQueues 0 ∨
        ∀ i ∈ [4, 3, 2, 1, 0], B.machine.sched.priorityQueues i = []) := by
  have hall : ∀ n < 26, (alone n).any (fun B => B.rest.length ≠ 0 ∧
    B.machine.sched.currentProcess = none ∧ B.returned.length < 2 ∧
      (initPid ∈ B.machine.sched.priorityQueues 0 ∨
        ∀ i ∈ [4, 3, 2, 1, 0], B.machine.sched.priorityQueues i = [])) = true := by
    decide +kernel
  intro n hn
  obtain ⟨B, hB, hfacts⟩ := (Option.any_eq_true ..).mp (hall n hn)
  exact ⟨B, hB, by simpa using hfacts⟩

theorem alone_rest (hn : n < 27) (h : alone n = some B) : B.rest ≠ [] := by
  rcases Nat.lt_succ_iff_lt_or_eq.mp hn with hbefore | rfl
  · obtain ⟨B₀, hB₀, hrest, _⟩ := alone_before n hbefore
    obtain rfl := Option.some.inj (hB₀.symm.trans h)
    intro hnil
    exact hrest (by rw [hnil, List.length_nil])
  · obtain ⟨M, hM, _⟩ := alone_calls
    obtain rfl := Option.some.inj (hM.symm.trans h)
    exact List.cons_ne_nil _ _

/-! ## Ticks -/

/-- Init stands in a ready queue, and `main` has not both PIDs yet. -/
def InWindow (B : Boot) : Prop :=
  initPid ∈ B.machine.sched.priorityQueues 0 ∧ B.returned.length < 2

/-- No tick of the run found the kernel between the two. -/
def Untouched (es : List BootEvent) : Prop :=
  ∀ before after B, es = before ++ .tick :: after → exec step powered before = some B →
    ¬B.InWindow

/-- Both calls have returned, and the shell runs or stands in a ready queue. -/
structure Completed (B : Boot) : Prop where
  returned : B.returned = [initPid, shellPid]
  shell : B.machine.sched.currentProcess = some shellPid ∧
      (B.machine.sched.processes shellPid).state = RUNNING ∨
    B.machine.sched.InQueues shellPid

theorem untouched_append : Untouched (es ++ [e]) ↔
    Untouched es ∧ (e = .tick → ∀ B, exec step powered es = some B → ¬B.InWindow) := by
  constructor
  · intro h
    refine ⟨fun before after B hes hB => ?_, fun he B hB => ?_⟩
    · refine h before (after ++ [e]) B ?_ hB
      rw [hes, List.append_assoc, List.cons_append]
    · exact h es [] B (by rw [he]) hB
  · rintro ⟨hes, he⟩ before after B heq hB
    rcases List.eq_nil_or_concat after with rfl | ⟨after, last, rfl⟩
    · obtain ⟨rfl, hlast⟩ := List.append_inj' heq rfl
      exact he (by simpa using hlast) B hB
    · rw [List.concat_eq_append, ← List.cons_append, ← List.append_assoc] at heq
      obtain ⟨rfl, _⟩ := List.append_inj' heq rfl
      exact hes before after B rfl hB

/-- The stack of `main` is lost before the second PID was returned. -/
structure Lost (B : Boot) : Prop where
  rest : B.rest = []
  returned : B.returned.length < 2

/-- `main` is over, and the scheduler has the shell. -/
structure Finished (B : Boot) : Prop where
  rest : B.rest = []
  returned : B.returned = [initPid, shellPid]
  sound : B.machine.sched.Sound
  queued : B.machine.sched.Queued
  blocked : (B.machine.sched.processes shellPid).state ≠ BLOCKED
  exited : (B.machine.sched.processes shellPid).state ≠ EXITED

theorem step_tick (hstep : B.step .tick = some B') : B' = B.switchContext := by
  by_cases hflag : B.interrupts
  · exact (Option.some.inj ((if_pos hflag).symm.trans hstep)).symm
  · exact absurd ((if_neg hflag).symm.trans hstep) (by simp)

/-- Where `main` has nothing left, only the scheduler goes on. -/
theorem step_over (hrest : B.rest = []) (hstep : B.step e = some B') :
    B' = { B with machine := B.machine.onSched Sched.switchContext } := by
  cases e with
  | main => simp [step, hrest] at hstep
  | tick =>
      rw [step_tick hstep]
      unfold switchContext
      dsimp only
      split
      · rfl
      · rw [hrest]

theorem Lost.step (h : B.Lost) (hstep : B.step e = some B') : B'.Lost := by
  rw [step_over h.rest hstep]
  exact ⟨h.rest, h.returned⟩

/-- **A tick of the finished system** leaves the shell to the scheduler. -/
theorem Finished.step (h : B.Finished) (hstep : B.step e = some B') : B'.Finished := by
  rw [step_over h.rest hstep]
  have hquiet := Sched.switchContext_quiet h.sound.settled
  constructor
  · exact h.rest
  · exact h.returned
  · exact h.sound.switchContext
  · exact Sched.switchContext_queued h.queued
  · exact fun hb => h.blocked ((hquiet.blocked _).mp hb)
  · exact fun he => h.exited ((hquiet.exited _).mp he)

theorem Finished.completed (h : B.Finished) : B.Completed := by
  refine ⟨h.returned, ?_⟩
  cases hstate : (B.machine.sched.processes shellPid).state with
  | RUNNING => exact .inl ⟨h.sound.alone _ hstate, rfl⟩
  | READY =>
      have hone : B.machine.sched.entries shellPid = 1 := by
        rw [h.queued.entries, if_pos hstate]
      exact .inr (MultiQueue.entries_pos.mp (by
        rw [show MultiQueue.entries _ _ shellPid = 1 from hone]
        exact Nat.one_pos))
  | BLOCKED => exact absurd hstate h.blocked
  | EXITED => exact absurd hstate h.exited

/-- The switch of the system that is set up finishes `main`. -/
theorem finished_switchContext (hreturned : B.returned = [initPid, shellPid])
    (hboot : B.machine.onSched Sched.switchContext = booted) : B.switchContext.Finished := by
  have hcurrent : booted.sched.currentProcess = some shellPid := by decide +kernel
  have hrun : (booted.sched.processes shellPid).state = RUNNING := by decide +kernel
  unfold switchContext
  dsimp only
  rw [hboot, hcurrent]
  have hbase : booted.Base := base_boot
  refine ⟨rfl, hreturned, hbase.sound, queued_boot _, ?_, ?_⟩
  · rw [hrun]
    decide
  · rw [hrun]
    decide

/-- A tick finds nothing while the queues are empty. -/
theorem switchContext_empty (hcurrent : B.machine.sched.currentProcess = none)
    (hempty : ∀ i ∈ [4, 3, 2, 1, 0], B.machine.sched.priorityQueues i = []) :
    B.switchContext = B := by
  have hnone : B.machine.sched.unschedule = none := Sched.unscheduleFrom_none.mpr hempty
  have hsame : B.machine.onSched Sched.switchContext = B.machine := by
    unfold onSched Sched.switchContext
    rw [hcurrent]
    dsimp only
    rw [hnone]
  unfold switchContext
  dsimp only
  rw [hsame, hcurrent]

/-- A tick that finds init takes the CPU from `main`. -/
theorem switchContext_lost (hcurrent : B.machine.sched.currentProcess = none)
    (hwindow : B.InWindow) : B.switchContext.Lost := by
  have hsome : B.machine.sched.unschedule ≠ none := by
    intro hnone
    have hempty := Sched.unscheduleFrom_none.mp hnone 0 (by simp)
    exact absurd hwindow.1 (by simp [hempty])
  obtain ⟨⟨pid, s⟩, hs⟩ := Option.ne_none_iff_exists'.mp hsome
  have hnext : (B.machine.onSched Sched.switchContext).sched.currentProcess = some pid := by
    simp [Sched.switchContext, hcurrent, hs, Sched.dispatch]
  unfold switchContext
  dsimp only
  rw [hnext]
  exact ⟨rfl, hwindow.2⟩

/-- What one step of a run does where `main` is still on its way. -/
theorem alone_step (hcount : n < 27) (halone : alone n = some B) (hstep : B.step e = some B') :
    (e = .tick ∧ B.InWindow) ∧ B'.Lost ∨ ¬(e = .tick ∧ B.InWindow) ∧
      (n + [e].count .main < 27 ∧ alone (n + [e].count .main) = some B' ∨ B'.Finished) := by
  rcases Nat.lt_succ_iff_lt_or_eq.mp hcount with hbefore | rfl
  · cases e with
    | main =>
        refine .inr ⟨fun hwindow => absurd hwindow.1 (by simp), .inl ⟨Nat.succ_lt_succ hbefore, ?_⟩⟩
        have hnext : alone (n + 1) = (alone n).bind fun B => exec step B [.main] := by
          rw [alone, alone, List.replicate_succ', exec_append]
        change alone (n + 1) = some B'
        rw [hnext, halone, Option.bind_some, exec, hstep]
        rfl
    | tick =>
        obtain rfl := step_tick hstep
        obtain ⟨B₀, hB₀, _, hcurrent, hreturned, hqueues⟩ := alone_before n hbefore
        obtain rfl := Option.some.inj (hB₀.symm.trans halone)
        rcases hqueues with hinit | hempty
        · exact .inl ⟨⟨rfl, hinit, hreturned⟩, switchContext_lost hcurrent ⟨hinit, hreturned⟩⟩
        · rw [switchContext_empty hcurrent hempty]
          refine .inr ⟨?_, .inl ⟨hcount, halone⟩⟩
          rintro ⟨_, hinit, _⟩
          exact absurd hinit (by simp [hempty 0])
  · obtain ⟨M, hM, hboot⟩ := alone_calls
    obtain rfl := Option.some.inj (hM.symm.trans halone)
    refine .inr ⟨fun hwindow => absurd hwindow.2.2 (by simp), .inr ?_⟩
    cases e with
    | main =>
        obtain rfl := Option.some.inj hstep
        exact finished_switchContext rfl hboot
    | tick =>
        obtain rfl := step_tick hstep
        exact finished_switchContext rfl hboot

/-- What a run is like: `main` is where it would be alone, or it has finished, or
a tick found it inside the window. -/
theorem run_cases (h : exec step powered es = some B) :
    Untouched es ∧ (es.count .main < 27 ∧ alone (es.count .main) = some B ∨ B.Finished) ∨
      ¬Untouched es ∧ B.Lost := by
  induction es using List.reverseRecOn generalizing B with
  | nil =>
      obtain rfl := Option.some.inj h
      exact .inl ⟨fun before after B hes => absurd hes (by simp), .inl ⟨by decide, rfl⟩⟩
  | append_singleton es e ih =>
      rw [exec_append] at h
      obtain ⟨B₀, hB₀, hlast⟩ := Option.bind_eq_some_iff.mp h
      obtain ⟨B₁, hstep, hB⟩ := Option.bind_eq_some_iff.mp hlast
      obtain rfl := Option.some.inj hB
      rw [untouched_append]
      rcases ih hB₀ with ⟨hes, ⟨hcount, halone⟩ | hfinished⟩ | ⟨hes, hlost⟩
      · rcases alone_step hcount halone hstep with ⟨⟨he, hwindow⟩, hlost⟩ | ⟨hout, hnext⟩
        · exact .inr ⟨fun hboth => hboth.2 he B₀ hB₀ hwindow, hlost⟩
        · rw [List.count_append]
          refine .inl ⟨⟨hes, fun he B hB hwindow => ?_⟩, hnext⟩
          obtain rfl := Option.some.inj (hB₀.symm.trans hB)
          exact hout ⟨he, hwindow⟩
      · refine .inl ⟨⟨hes, ?_⟩, .inr (hfinished.step hstep)⟩
        rintro - B hB hwindow
        obtain rfl := Option.some.inj (hB₀.symm.trans hB)
        exact absurd hwindow.2 (by simp [hfinished.returned])
      · exact .inr ⟨fun hboth => hes hboth.1, hlost.step hstep⟩

/-- **Boot completes** in a run that `main` came to the end of exactly if no tick
fell between the entry of init in a ready queue and the return of the second
`createProcess`. As long as `main` has something left, the ticks have changed
nothing, and it is one of the first 27 states of its own run. -/
theorem boot_completes (es : List BootEvent) (B : Boot) (h : exec step powered es = some B) :
    (B.rest = [] → (B.Completed ↔ Untouched es)) ∧
      (B.rest ≠ [] → es.count .main < 27 ∧ alone (es.count .main) = some B) := by
  rcases run_cases h with ⟨hes, ⟨hcount, halone⟩ | hfinished⟩ | ⟨hes, hlost⟩
  · refine ⟨fun hrest => absurd hrest ?_, fun _ => ⟨hcount, halone⟩⟩
    exact alone_rest hcount halone
  · refine ⟨fun _ => ⟨fun _ => hes, fun _ => hfinished.completed⟩, fun hrest => ?_⟩
    exact absurd hfinished.rest hrest
  · refine ⟨fun _ => ⟨fun hcompleted => ?_, fun hall => absurd hall hes⟩, fun hrest => ?_⟩
    · exact absurd hlost.returned (by simp [hcompleted.returned])
    · exact absurd hlost.rest hrest

/-- Three ticks in front of the first `createProcess` and one behind the second. -/
def earlyTicks : List BootEvent :=
  List.replicate 14 .main ++ List.replicate 3 .tick ++ List.replicate 12 .main ++ [.tick]

theorem boot_completes_early : ∃ B, exec step powered earlyTicks = some B ∧ B.Completed ∧
    Untouched earlyTicks := by
  obtain ⟨B, hB⟩ := Option.isSome_iff_exists.mp (by decide +kernel :
    (exec step powered earlyTicks).isSome)
  have hend : (exec step powered earlyTicks).map (fun B => (B.rest.length, B.returned,
      B.machine.sched.currentProcess, (B.machine.sched.processes shellPid).state)) =
        some (0, [initPid, shellPid], some shellPid, RUNNING) := by
    decide +kernel
  rw [hB] at hend
  simp only [Option.map_some, Option.some.injEq, Prod.mk.injEq] at hend
  obtain ⟨hrest, hreturned, hcurrent, hrun⟩ := hend
  have hcompleted : B.Completed := ⟨hreturned, .inl ⟨hcurrent, hrun⟩⟩
  have hwhen := (boot_completes earlyTicks B hB).1 (List.length_eq_zero_iff.mp hrest)
  exact ⟨B, hB, hcompleted, hwhen.mp hcompleted⟩

/-- **A tick between the two calls** leaves the system without a shell. -/
theorem boot_loses_main : ¬∀ es B, exec step powered es = some B → B.rest = [] → B.Completed := by
  intro hall
  let es : List BootEvent := List.replicate 20 .main ++ [.tick]
  obtain ⟨B, hB⟩ := Option.isSome_iff_exists.mp (by decide +kernel : (exec step powered es).isSome)
  have hend : (exec step powered es).map (fun B => (B.rest.length, B.returned)) =
      some (0, [initPid]) := by
    decide +kernel
  rw [hB] at hend
  simp only [Option.map_some, Option.some.injEq, Prod.mk.injEq] at hend
  have hcompleted := hall es B hB (List.length_eq_zero_iff.mp hend.1)
  exact absurd hcompleted.returned (by simp [hend.2])

end Boot

end BareKernel.Kernel
