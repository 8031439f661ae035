import BareKernel.Kernel.Steps
import BareKernel.Kernel.SchedulerFacts

/-!
# The actions of the kernel

Every step of the system is a sequence of a few kinds of actions: a context
switch, a process that falls asleep in `semWait`, one waiter that is woken, a
process that ends, and so on. What is proved for every action holds for every
step.
-/

namespace BareKernel.Kernel

open ProcessState Runs

inductive Act : Type where
  | switch (isYield : Bool)
  | blocks (outcomes : ℕ → Bool)
  | block (pid : ℤ)
  | unblock (pid : ℤ)
  | create (pid : ℤ)
  | returned (pid : ℤ) (returnValue : Int32)
  | kill (pid : ℤ)
  | killWake (pid : ℤ)
  | priority (pid : ℤ)
  | waitBlock (pid target : ℤ) (wstatus : Bool)
  | waitGone (pid target : ℤ) (wstatus : Bool)
  | waitRead (pid target : ℤ) (wstatus : Bool)
  | frame (pid : ℤ)
  | semCreate (semId : ℕ) (value : Int32)
  | mark (semId : ℕ)
  | sleep (pid : ℤ) (semId : ℕ) (k : AfterWait)
  | take (pid : ℤ) (semId : ℕ)
  | post (semId : ℕ)
  | wake (semId : ℕ)
  | set (semId : ℕ) (value : Int32)
  | destroy (semId : ℕ)
  | files
  | moved (o : Obs)

/-- The actions after which the process that has the CPU still has it. -/
def Act.quiet : Act → Prop
  | .switch _ | .block _ | .waitBlock _ _ _ | .sleep _ _ _ => False
  | _ => True

/-- The frames from which a process goes on with a call of its own. -/
def Frame.working : Frame → Prop
  | .user | .reading _ | .writing _ | .semWait _ _ => True
  | _ => False

/-- How a frame changes while the process has the CPU. -/
inductive Frame.Moves : Frame → Frame → Prop where
  | work {f g : Frame} (hf : f.working) (hg : g.working) (hsem : ∀ semId k, g ≠ .semWait semId k) :
      Moves f g
  | forced {target : ℤ} {wstatus : Bool} : Moves (.waitBlock target wstatus)
      (.waitForced target wstatus)
  | exiting {stage stage' : ExitStage} : Moves (.exiting stage) (.exiting stage')

/-- What the transfers of bytes leave in the trace. -/
def Obs.ofPipe : Obs → Prop
  | .stored _ _ | .took _ _ | .readReturned _ _ _ _ _ => True
  | _ => False

/-- What `createProcess` writes, as far as it matters. -/
structure Fresh (old p : Process) : Prop where
  priority : checkPriority p.priority
  originalPriority : p.originalPriority = p.priority
  agingCounter : p.agingCounter = 0
  waitPid : p.waitPid = nonPid
  state : p.state = READY
  waitReturnValue : p.waitReturnValue = old.waitReturnValue

namespace Machine

/-- `queue(sems[semId].waiting, pid)`. -/
def enlist (S : Machine) (pid : ℤ) (semId : ℕ) : Machine :=
  match (S.sems.sems semId).waiting with
  | .queue q => (S.setSem semId
      { S.sems.sems semId with waiting := .queue (S.sched.append q pid) }).onSched Sched.dropNode
  | _ => S

def fallAsleep (S : Machine) (pid : ℤ) (semId : ℕ) (k : AfterWait) : Machine :=
  ((S.enlist pid semId).setFrame pid (.semWait semId k)).onSched fun s => (s.blockProcess pid).2

/-- The process is inside `semWait` already, or has just found the semaphore in use. -/
def Entered (S : Machine) (pid : ℤ) (semId : ℕ) : Prop :=
  (∃ k, S.frames pid = .semWait semId k) ∨
    (semId < maxSems ∧ (S.sems.sems semId).used = true)

/-- `sems[semId].value++`. -/
def bump (S : Machine) (semId : ℕ) : Machine :=
  (S.setSem semId
    { S.sems.sems semId with value := (S.sems.sems semId).value + 1 }).note
    (.semPosted S.sched.currentProcess semId (S.sems.sems semId).value)

/-- `sems[semId].value = value`. -/
def putValue (S : Machine) (semId : ℕ) (value : Int32) : Machine :=
  (S.setSem semId { S.sems.sems semId with value := value }).note (.semSet semId value)

/-- `sems[semId].value--`, by the process that waited. -/
def takeOne (S : Machine) (pid : ℤ) (semId : ℕ) : Machine :=
  (S.setSem semId
    { S.sems.sems semId with value := (S.sems.sems semId).value - 1 }).note (.semWaited pid semId)

/-- `sems[semId].used = 0`, and the queue is freed. -/
def releaseSem (S : Machine) (semId : ℕ) : Machine :=
  { S with sems := S.sems.release semId }.note (.semDestroyed semId)

/-- The first waiter is taken off the queue and unblocked. -/
def wakeFirst (S : Machine) (semId : ℕ) (pid : ℤ) (rest : List ℤ) : Machine :=
  (S.setSem semId { S.sems.sems semId with waiting := .queue rest }).onSched
    fun s => (s.unblockProcess pid).2

/-- `processes[pid].waitPid = waiter`, and the waiter blocks itself. -/
def waitFor (S : Machine) (pid target : ℤ) (wstatus : Bool) : Machine :=
  (((S.note (.waitCalled pid target)).onSched fun s =>
    s.setProcess target { s.processes target with waitPid := pid }).setFrame pid
      (.waitBlock target wstatus)).onSched fun s => (s.blockProcess pid).2

/-- The actions. Except for a switch and the creation of a process they need a
process that has the CPU. -/
inductive Does (S : Machine) : Act → Machine → Prop where
  | switch {isYield : Bool} : Does S (.switch isYield)
      (S.onSched fun s => { s with isYield := isYield }.switchContext)
  | blocks {outcomes : ℕ → Bool} : Does S (.blocks outcomes)
      (S.onSched fun s => { s with blocks := outcomes })
  | block {c pid : ℤ} (hc : S.sched.currentProcess = some c) (hf : S.frames c = .user)
      (hvalid : S.sched.isValidPID pid) : Does S (.block pid)
      (S.onSched fun s => (s.blockProcess pid).2)
  | unblock {c pid : ℤ} (hc : S.sched.currentProcess = some c) : Does S (.unblock pid)
      (S.onSched fun s => (s.unblockProcess pid).2)
  | create {pid : ℤ} {p : Process} (hpid : 0 < pid ∧ pid ≤ maxPid)
      (hexited : (S.sched.processes pid).state = EXITED) (hc : S.sched.currentProcess ≠ some pid)
      (hp : Fresh (S.sched.processes pid) p) : Does S (.create pid)
      (((S.onSched fun s => (s.setProcess pid p).schedule pid).setFrame pid .user).note
        (.created pid))
  | returned {pid : ℤ} {returnValue : Int32} (hc : S.sched.currentProcess = some pid)
      (hf : S.frames pid = .user) : Does S (.returned pid returnValue)
      ((S.onSched fun s => s.setProcess pid
        { s.processes pid with waitReturnValue := returnValue }).note (.returned pid returnValue))
  | kill {c pid : ℤ} {stage : ExitStage} (hc : S.sched.currentProcess = some c)
      (hpid : initPid < pid ∧ pid ≤ maxPid) (halive : (S.sched.processes pid).state ≠ EXITED) :
      Does S (.kill pid) (S.killStart pid stage)
  | killWake {c pid : ℤ} (hc : S.sched.currentProcess = some c)
      (hexited : (S.sched.processes pid).state = EXITED) : Does S (.killWake pid) (S.killWake pid)
  | priority {c pid : ℤ} {priority : UInt32} (hc : S.sched.currentProcess = some c)
      (hpriority : checkPriority priority) : Does S (.priority pid)
      (S.onSched fun s => s.setProcess pid { s.processes pid with
        priority := priority, originalPriority := priority, agingCounter := 0 })
  | waitBlock {pid target : ℤ} {wstatus : Bool} (hc : S.sched.currentProcess = some pid)
      (hf : S.frames pid = .user) (htarget : 0 < target ∧ target ≤ maxPid)
      (halive : (S.sched.processes target).state ≠ EXITED) : Does S
      (.waitBlock pid target wstatus) (S.waitFor pid target wstatus)
  | waitGone {pid target : ℤ} {wstatus : Bool} (hc : S.sched.currentProcess = some pid)
      (hf : S.frames pid = .user) (hexited : (S.sched.processes target).state = EXITED) :
      Does S (.waitGone pid target wstatus) ((S.note (.waitCalled pid target)).note
        (.waitReturned pid target (if wstatus then some 0 else none)))
  | waitRead {pid target : ℤ} {wstatus : Bool} (hc : S.sched.currentProcess = some pid)
      (hf : S.frames pid = .waitForced target wstatus) : Does S (.waitRead pid target wstatus)
      (S.waitRead pid target wstatus)
  | frame {pid : ℤ} {f : Frame} (hc : S.sched.currentProcess = some pid)
      (hf : (S.frames pid).Moves f) : Does S (.frame pid) (S.setFrame pid f)
  | semCreate {c : ℤ} {name : CString} {value : Int32} {waiting : WaitQueue} {semId : ℕ}
      {T : SemTable} (hc : S.sched.currentProcess = some c) (hf : S.frames c = .user)
      (hw : waiting = .queue [] ∨ waiting = .null)
      (h : S.sems.semCreate c name value waiting = (some semId, T)) : Does S
      (.semCreate semId value)
      ({ S with sems := T, sched := S.sched.dropBlock }.note (.semCreated semId value))
  | mark {c : ℤ} {semId : ℕ} {b : UInt8} (hc : S.sched.currentProcess = some c)
      (hf : S.frames c = .user) (hused : (S.sems.sems semId).used = true) : Does S (.mark semId)
      (S.setSem semId ((S.sems.sems semId).setOpened c b))
  | sleep {pid : ℤ} {semId : ℕ} {k : AfterWait} (hc : S.sched.currentProcess = some pid)
      (hf : (S.frames pid).working) (hvalue : (S.sems.sems semId).value = 0)
      (hwaiting : (S.sems.sems semId).waiting ≠ .freed) (hin : S.Entered pid semId) : Does S
      (.sleep pid semId k) (S.fallAsleep pid semId k)
  | take {pid : ℤ} {semId : ℕ} (hc : S.sched.currentProcess = some pid)
      (hf : (S.frames pid).working) (hvalue : (S.sems.sems semId).value ≠ 0)
      (hin : S.Entered pid semId) : Does S (.take pid semId) (S.takeOne pid semId)
  | post {semId : ℕ} (hlt : semId < maxSems) (hused : (S.sems.sems semId).used = true) : Does S
      (.post semId) (S.bump semId)
  | wake {c pid : ℤ} {semId : ℕ} {rest : List ℤ} (hc : S.sched.currentProcess = some c)
      (hq : (S.sems.sems semId).waiting = .queue (pid :: rest)) : Does S (.wake semId)
      (S.wakeFirst semId pid rest)
  | set {semId : ℕ} {value : Int32} (hlt : semId < maxSems)
      (hused : (S.sems.sems semId).used = true) (hvalue : 0 ≤ value) : Does S (.set semId value)
      (S.putValue semId value)
  | destroy {semId : ℕ} (hlt : semId < maxSems)
      (hq : (S.sems.sems semId).waiting.elements = some []) : Does S (.destroy semId)
      (S.releaseSem semId)
  | files {fileDescriptors : ℤ → FD} {streams : ℕ → Option Stream} {nextStream : ℕ} :
      Does S .files { S with fileDescriptors, streams, nextStream }
  | moved {o : Obs} (ho : o.ofPipe) : Does S (.moved o) (S.note o)

/-! ## The process that has the CPU -/

variable {S S' : Machine} {a : Act} {c pid : ℤ}

/-- The scheduler is sound, the process that has the CPU runs or is over and
ends itself, and only what is over is ending. -/
structure Base (S : Machine) : Prop where
  sound : S.sched.Sound
  busy : ∀ c, S.sched.currentProcess = some c → (S.sched.processes c).state = RUNNING ∨
    (S.sched.processes c).state = EXITED ∧ ∃ stage, S.frames c = .exiting stage
  ended : ∀ p stage, S.frames p = .exiting stage → (S.sched.processes p).state = EXITED

theorem Base.running (h : S.Base) (hc : S.sched.currentProcess = some c)
    (hf : ∀ stage, S.frames c ≠ .exiting stage) : (S.sched.processes c).state = RUNNING := by
  rcases h.busy c hc with hrun | ⟨_, stage, hstage⟩
  · exact hrun
  · exact absurd hstage (hf stage)

/-- The process that has the CPU is not blocked. -/
theorem Base.current_ne_blocked (h : S.Base) (hc : S.sched.currentProcess = some pid) :
    (S.sched.processes pid).state ≠ BLOCKED := by
  rcases h.busy pid hc with hrun | ⟨hover, _⟩
  · rw [hrun]
    decide
  · rw [hover]
    decide

theorem Frame.working_ne_exiting {f : Frame} (h : f.working) (stage : ExitStage) :
    f ≠ .exiting stage := by
  rintro rfl
  exact h

/-- Nothing changes that the base speaks of. -/
theorem Base.congr (h : S.Base) (hs : S'.sched = S.sched) (hf : S'.frames = S.frames) :
    S'.Base :=
  ⟨by rw [hs]; exact h.sound, by rw [hs, hf]; exact h.busy, by rw [hs, hf]; exact h.ended⟩

theorem Base.valid (h : S.Base) (hc : S.sched.currentProcess = some c)
    (hf : ∀ stage, S.frames c ≠ .exiting stage) : S.sched.isValidPID c := by
  obtain ⟨hpos, hle⟩ := h.sound.current c hc
  exact Sched.isValidPID_iff.mpr ⟨hpos, hle, by rw [h.running hc hf]; decide⟩

/-- A switch keeps the base. -/
theorem Base.switch (h : S.Base) (isYield : Bool) :
    (S.onSched fun s => { s with isYield := isYield }.switchContext).Base := by
  have hsound : ({ S.sched with isYield := isYield } : Sched).Sound :=
    ⟨h.sound.queued, h.sound.current, h.sound.settled, h.sound.alone⟩
  refine ⟨hsound.switchContext, fun _ hc => .inl (Sched.switchContext_running hc),
    fun p stage hp => ?_⟩
  exact ((Sched.switchContext_quiet hsound.settled).exited p).mpr (h.ended p stage hp)

/-- Blocking keeps the base, whichever process has the CPU afterwards. -/
theorem Base.blockProcess (h : S.Base) (hc : S.sched.currentProcess = some c)
    (hvalid : S.sched.isValidPID pid) :
    (S.onSched fun s => (s.blockProcess pid).2).Base := by
  refine ⟨h.sound.blockProcess hc hvalid, fun other hother => ?_, fun p stage hp => ?_⟩
  · simp only [onSched_sched, onSched_frames, Sched.blockProcess_of_valid hvalid] at hother ⊢
    split at hother
    · rename_i hself
      rw [if_pos hself]
      exact .inl (Sched.switchContext_running hother)
    · rename_i hne
      rw [if_neg hne]
      have hpid : other ≠ pid := by
        rintro rfl
        exact hne hother
      rw [Sched.setState, Sched.setProcess_of_ne hpid]
      exact h.busy other hother
  · have hexited := h.ended p stage hp
    have hpid : p ≠ pid := by
      rintro rfl
      exact (Sched.isValidPID_iff.mp hvalid).2.2 hexited
    refine ((Sched.blockProcess_quiet hc hvalid).exited p).mpr ?_
    rw [Sched.setState, Sched.setProcess_of_ne hpid]
    exact hexited

/-- The current process changes nothing but its frame. -/
theorem Base.setFrame (h : S.Base) {f : Frame} (hc : S.sched.currentProcess = some pid)
    (hf : (∀ stage, S.frames pid ≠ .exiting stage) ∧ (∀ stage, f ≠ .exiting stage) ∨
      (∃ stage, S.frames pid = .exiting stage) ∧ ∃ stage, f = .exiting stage) :
    (S.setFrame pid f).Base := by
  refine ⟨h.sound, fun other hother => ?_, fun other stage hother => ?_⟩
  · obtain rfl : pid = other := Option.some.inj (hc.symm.trans hother)
    rcases hf with ⟨hf, _⟩ | ⟨⟨stage, hstage⟩, stage', rfl⟩
    · exact .inl (h.running hc hf)
    · exact .inr ⟨h.ended pid stage hstage, stage', Function.update_self _ _ _⟩
  · by_cases heq : other = pid
    · subst heq
      rw [setFrame_frames, Function.update_self] at hother
      rcases hf with ⟨_, hne⟩ | ⟨⟨stage', hstage⟩, _⟩
      · exact absurd hother (hne stage)
      · exact h.ended other stage' hstage
    · rw [setFrame_frames, Function.update_of_ne heq] at hother
      exact h.ended other stage hother

theorem enlist_sched (S : Machine) (pid : ℤ) (semId : ℕ) :
    (S.enlist pid semId).sched = S.sched ∨ (S.enlist pid semId).sched = S.sched.dropNode := by
  unfold enlist
  split
  · exact .inr rfl
  · exact .inl rfl

theorem enlist_frames (S : Machine) (pid : ℤ) (semId : ℕ) :
    (S.enlist pid semId).frames = S.frames := by
  unfold enlist
  split <;> rfl

theorem Base.enlist (h : S.Base) (pid : ℤ) (semId : ℕ) : (S.enlist pid semId).Base := by
  have hframes := enlist_frames S pid semId
  rcases enlist_sched S pid semId with heq | heq
  · exact h.congr heq hframes
  · refine ⟨?_, ?_, ?_⟩ <;> rw [heq]
    · exact ⟨h.sound.queued, h.sound.current, h.sound.settled, h.sound.alone⟩
    · rw [hframes]
      exact h.busy
    · rw [hframes]
      exact h.ended

/-- One block changes, but not in its state. -/
theorem Base.setProcess (h : S.Base) {p : Process} (hc : S.sched.currentProcess = some c)
    (hstate : p.state = (S.sched.processes pid).state) :
    (S.onSched fun s => s.setProcess pid p).Base := by
  have hall : ∀ other, ((S.sched.setProcess pid p).processes other).state =
      (S.sched.processes other).state := by
    intro other
    by_cases heq : other = pid
    · subst heq
      rw [Sched.setProcess_self, hstate]
    · rw [Sched.setProcess_of_ne heq]
  refine ⟨h.sound.setProcess hc fun hrun => by rw [← hstate]; exact hrun, fun other hother => ?_,
    fun other stage hother => ?_⟩
  · simp only [onSched_sched, onSched_frames, hall]
    exact h.busy other hother
  · simp only [onSched_sched, hall]
    exact h.ended other stage hother

theorem Base.unblockProcess (h : S.Base) (hc : S.sched.currentProcess = some c) :
    (S.onSched fun s => (s.unblockProcess pid).2).Base := by
  refine ⟨h.sound.unblockProcess hc, fun other hother => ?_, fun other stage hother => ?_⟩
  · rw [onSched_sched, Sched.unblockProcess_currentProcess] at hother
    rw [onSched_sched, onSched_frames, Sched.unblockProcess_running, Sched.unblockProcess_exited]
    exact h.busy other hother
  · rw [onSched_sched, Sched.unblockProcess_exited]
    exact h.ended other stage hother

theorem Base.killStart (h : S.Base) (hc : S.sched.currentProcess = some c) (stage : ExitStage) :
    (S.killStart pid stage).Base := by
  have hsound : (S.sched.unscheduleProcess pid).Sound :=
    ⟨fun i other hother => h.sound.queued i other (Sched.mem_unscheduleProcess hother),
      h.sound.current, Sched.settled_of_some hc, h.sound.alone⟩
  have hself : ((S.killStart pid stage).sched.processes pid).state = EXITED := by
    simp [Machine.killStart]
  have hother : ∀ other ≠ pid, (S.killStart pid stage).sched.processes other =
      S.sched.processes other ∧ (S.killStart pid stage).frames other = S.frames other := by
    intro other hne
    simp [Machine.killStart, hne, Sched.setProcess_of_ne hne]
  refine ⟨hsound.setProcess hc fun hrun => absurd hrun (by simp), fun other hc' => ?_,
    fun other stage' hframe => ?_⟩ <;> by_cases heq : other = pid
  · subst heq
    exact .inr ⟨hself, stage, by simp [Machine.killStart]⟩
  · rw [(hother other heq).1, (hother other heq).2]
    exact h.busy other hc'
  · rw [heq]
    exact hself
  · rw [(hother other heq).2] at hframe
    rw [(hother other heq).1]
    exact h.ended other stage' hframe

/-- **Every action keeps the base.** -/
theorem Base.does (h : S.Base) (hd : S.Does a S') : S'.Base := by
  cases hd with
  | switch => exact h.switch _
  | blocks =>
    exact ⟨⟨h.sound.queued, h.sound.current, h.sound.settled, h.sound.alone⟩, h.busy, h.ended⟩
  | block hc _ hvalid => exact h.blockProcess hc hvalid
  | unblock hc => exact h.unblockProcess hc
  | @create pid p hpid hexited hc hp =>
      refine ⟨⟨fun i other hother => ?_, fun other hother => ?_, fun hnone i hi other hother => ?_,
        fun other hother => ?_⟩, fun other hother => ?_, fun other stage hother => ?_⟩
      all_goals
        simp only [note_sched, note_frames, setFrame_sched, setFrame_frames, onSched_sched,
          Sched.schedule_currentProcess,
          Sched.schedule_processes, Sched.setProcess_currentProcess] at *
      · rcases Sched.mem_schedule hother with hother | rfl
        · exact h.sound.queued i other hother
        · exact hpid
      · exact h.sound.current other hother
      · by_cases heq : other = pid
        · subst heq
          rw [Sched.setProcess_self, hp.state]
          decide
        · rw [Sched.setProcess_of_ne heq]
          rcases Sched.mem_schedule hother with hother | rfl
          · exact h.sound.settled hnone i hi other hother
          · exact absurd rfl heq
      · have heq : other ≠ pid := by
          rintro rfl
          rw [Sched.setProcess_self, hp.state] at hother
          exact absurd hother (by decide)
        rw [Sched.setProcess_of_ne heq] at hother
        exact h.sound.alone other hother
      · have heq : other ≠ pid := by
          rintro rfl
          exact hc hother
        rw [Sched.setProcess_of_ne heq, Function.update_of_ne heq]
        exact h.busy other hother
      · have heq : other ≠ pid := by
          rintro rfl
          rw [Function.update_self] at hother
          exact absurd hother (by simp)
        rw [Function.update_of_ne heq] at hother
        rw [Sched.setProcess_of_ne heq]
        exact h.ended other stage hother
  | @returned pid returnValue hc _ =>
      exact (h.setProcess (p := { S.sched.processes pid with waitReturnValue := returnValue })
        hc rfl).congr rfl rfl
  | kill hc _ _ => exact h.killStart hc _
  | @killWake c pid hc _ =>
      unfold Machine.killWake
      dsimp only
      split
      · exact h
      · exact (h.unblockProcess hc).setProcess (c := c)
          (by simpa using hc) rfl
  | @priority c pid priority hc _ =>
      exact h.setProcess (p := { S.sched.processes pid with
        priority := priority, originalPriority := priority, agingCounter := 0 }) hc rfl
  | @waitBlock pid target wstatus hc hf htarget halive =>
      have hbase : ((S.note (.waitCalled pid target)).onSched fun s =>
          s.setProcess target { s.processes target with waitPid := pid }).Base :=
        (h.setProcess (p := { S.sched.processes target with waitPid := pid }) hc rfl).congr rfl rfl
      have hne : ∀ stage, S.frames pid ≠ .exiting stage := by
        intro stage
        rw [hf]
        simp
      have hframe := hbase.setFrame (f := .waitBlock target wstatus) hc
        (.inl ⟨hne, fun stage => by simp⟩)
      exact hframe.blockProcess hc (hframe.valid hc fun stage => by simp)
  | waitGone => exact ⟨h.sound, h.busy, h.ended⟩
  | @waitRead pid target wstatus hc hf =>
      have hne : ∀ stage, S.frames pid ≠ .exiting stage := by
        intro stage
        rw [hf]
        simp
      exact (h.setFrame (f := .user) hc (.inl ⟨hne, fun stage => by simp⟩)).congr rfl rfl
  | @frame pid f hc hf =>
      refine h.setFrame hc ?_
      generalize S.frames pid = f₀ at hf
      cases hf with
      | work hfrom hto =>
          exact .inl ⟨Frame.working_ne_exiting hfrom, Frame.working_ne_exiting hto⟩
      | forced => exact .inl ⟨fun stage => by simp, fun stage => by simp⟩
      | exiting => exact .inr ⟨⟨_, rfl⟩, _, rfl⟩
  | semCreate =>
    exact ⟨⟨h.sound.queued, h.sound.current, h.sound.settled, h.sound.alone⟩, h.busy, h.ended⟩
  | mark => exact ⟨h.sound, h.busy, h.ended⟩
  | @sleep pid semId k hc hf =>
      have hframes := enlist_frames S pid semId
      have hc' : (S.enlist pid semId).sched.currentProcess = some pid := by
        rcases enlist_sched S pid semId with heq | heq <;> rw [heq] <;> exact hc
      have hbase := (h.enlist pid semId).setFrame (f := .semWait semId k) hc'
        (.inl ⟨fun stage => by rw [hframes]; exact Frame.working_ne_exiting hf stage,
          fun stage => by simp⟩)
      exact hbase.blockProcess hc' (hbase.valid hc' fun stage => by simp)
  | take => exact ⟨h.sound, h.busy, h.ended⟩
  | post => exact ⟨h.sound, h.busy, h.ended⟩
  | wake hc _ => exact Base.unblockProcess (S := S.setSem _ _) ⟨h.sound, h.busy, h.ended⟩ hc
  | set => exact ⟨h.sound, h.busy, h.ended⟩
  | destroy => exact ⟨h.sound, h.busy, h.ended⟩
  | files => exact ⟨h.sound, h.busy, h.ended⟩
  | moved => exact ⟨h.sound, h.busy, h.ended⟩

end Machine

end BareKernel.Kernel
