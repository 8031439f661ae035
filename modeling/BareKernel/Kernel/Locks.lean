import BareKernel.Kernel.KeyboardInterrupt
import BareKernel.Kernel.Descriptors
import BareKernel.Kernel.StepTrace

/-!
# The locks of the semaphores

Each slot of the table has a lock, a byte that `acquire_spinlock` exchanges until it finds 0. The
functions of `Kernel/semaphoreManager.c` are given once more with what they do to the locks, and
with them everything in the kernel that calls them. A lock stands at the index of its slot; the byte
in front of the table is at index -1.
-/

namespace BareKernel.Kernel

open ProcessState Runs

/-- `found` is what stood in the byte. -/
inductive LockOp : Type where
  | acquire (semId : ℤ) (found : Bool)
  | release (semId : ℤ) (found : Bool)
deriving DecidableEq, Repr

/-- The kernel, the bytes of the locks, and what was done to them, newest first. -/
structure Locked where
  machine : Machine
  held : ℤ → Bool
  lockOps : List LockOp

namespace Locked

def onMachine (L : Locked) (f : Machine → Machine) : Locked := { L with machine := f L.machine }

/-! ## The functions of the semaphores -/

/-- The exchange. If it finds 1, the code never gets further. -/
def acquireSpinlock (L : Locked) (semId : ℤ) : Locked :=
  { L with
    held := Function.update L.held semId true
    lockOps := .acquire semId (L.held semId) :: L.lockOps }

def releaseSpinlock (L : Locked) (semId : ℤ) : Locked :=
  { L with
    held := Function.update L.held semId false
    lockOps := .release semId (L.held semId) :: L.lockOps }

/-- The loop of `semWait` from where it has the lock: the caller queues itself, lets go of the lock
and blocks, or it takes one and lets go. -/
def semWaitLoop (L : Locked) (pid : ℤ) (semId : ℕ) (k : AfterWait) : Option (Bool × Locked) :=
  let s := L.machine.sems.sems semId
  if s.value = 0 then
    if s.waiting = .freed then none
    else
      let L := (L.onMachine fun S => S.enlist pid semId).releaseSpinlock semId
      some (false, L.onMachine fun S =>
        (S.setFrame pid (.semWait semId k)).onSched fun s => (s.blockProcess pid).2)
  else some (true, (L.onMachine fun S => S.takeOne pid semId).releaseSpinlock semId)

def semWait (L : Locked) (pid semId : ℤ) (k : AfterWait) : Option (Bool × Locked) :=
  if semId < 0 then some (true, L)
  else if semId ≥ maxSems then none
  else
    let L := L.acquireSpinlock semId
    if !(L.machine.sems.sems semId.toNat).used then some (true, L.releaseSpinlock semId)
    else L.semWaitLoop pid semId.toNat k

def semPost (L : Locked) (semId : ℤ) : Option (Int32 × Locked) :=
  if semId < 0 ∨ semId ≥ maxSems then some (-1, L)
  else
    let L := L.acquireSpinlock semId
    let s := L.machine.sems.sems semId.toNat
    if !s.used then some (-1, L.releaseSpinlock semId)
    else
      match s.waiting.elements with
      | none => none
      | some pids =>
          let L := L.onMachine fun S => ((S.setSem semId.toNat
            { s with value := s.value + 1, waiting := s.waiting.drop pids.length }).note
            (.semPosted S.sched.currentProcess semId.toNat s.value)).wakeAll pids
          some (0, L.releaseSpinlock semId)

/-- For a negative identifier the lock in front of the table is released. -/
def semDestroy (L : Locked) (semId : ℤ) : Option (Int32 × Locked) :=
  if semId < 0 then some (-1, L.releaseSpinlock semId)
  else if semId ≥ maxSems then none
  else
    let L := L.acquireSpinlock semId
    match (L.machine.sems.sems semId.toNat).waiting.elements with
    | none => none
    | some pids =>
        let L := L.onMachine fun S =>
          ({ S with sems := S.sems.release semId.toNat }.note
            (.semDestroyed semId.toNat)).wakeAll pids
        some (0, L.releaseSpinlock semId)

def semSetValue (L : Locked) (semId : ℤ) (newValue : Int32) : Option (Int32 × Locked) :=
  if semId < 0 ∨ semId ≥ maxSems ∨ newValue < 0 then some (-1, L)
  else
    let L := L.acquireSpinlock semId
    let s := L.machine.sems.sems semId.toNat
    if !s.used then some (-1, L.releaseSpinlock semId)
    else if newValue > s.value then
      match s.waiting.elements with
      | none => none
      | some pids =>
          let available := (newValue - s.value).toInt.toNat
          let L := L.onMachine fun S => ((S.setSem semId.toNat
            { s with value := newValue, waiting := s.waiting.drop available }).note
            (.semSet semId.toNat newValue)).wakeAll (pids.take available)
          some (0, L.releaseSpinlock semId)
    else
      let L := L.onMachine fun S => (S.setSem semId.toNat { s with value := newValue }).note
        (.semSet semId.toNat newValue)
      some (0, L.releaseSpinlock semId)

/-! ## Their callers -/

def takeByte (L : Locked) (pid : ℤ) (r : Reader) : Option Locked := do
  let st ← L.machine.streams r.stream
  if !st.eof ∨ (r.fd ≠ stdin ∧ (st.writers ≠ 0 ∨ st.dataAvailable > 0)) then
    let lastRead := st.buffer st.readPos
    let L := L.onMachine fun S =>
      (S.setStream r.stream st.advance).note (.took r.stream lastRead)
    let r := { r with sizeRead := r.sizeRead + 1 }
    let (_, L) ← L.semPost st.writeSem
    if lastRead = 10 then
      some (L.onMachine fun S => (S.setFrame pid .user).note
        (.readReturned pid r.stream r.count r.sizeRead true))
    else some (L.onMachine fun S => S.setFrame pid (.reading r))
  else
    some (L.onMachine fun S => ((S.setStream r.stream { st with eof := true }).setFrame pid
      .user).note (.readReturned pid r.stream r.count r.sizeRead false))

def storeByte (L : Locked) (pid : ℤ) (w : Writer) : Option Locked := do
  let st ← L.machine.streams w.stream
  let byte ← w.buf[w.written]?
  let L := L.onMachine fun S => (S.setStream w.stream (st.put byte)).note (.stored w.stream byte)
  let (_, L) ← L.semPost st.readSem
  some (L.onMachine fun S => S.setFrame pid (.writing { w with written := w.written + 1 }))

def afterWait (L : Locked) (pid : ℤ) : AfterWait → Option Locked
  | .done => some (L.onMachine fun S => S.setFrame pid .user)
  | .take r => L.takeByte pid r
  | .store w => L.storeByte pid w
  | .readAt stream pos =>
      (L.machine.finishReadAt pid stream pos).map fun S => { L with machine := S }

def waitThen (L : Locked) (pid semId : ℤ) (k : AfterWait) : Option Locked := do
  let (returned, L) ← L.semWait pid semId k
  if returned then L.afterWait pid k else some L

def eofToken (L : Locked) (st : Stream) : Option Locked :=
  if st.eof then Prod.snd <$> L.semPost st.readSem else some L

def readRound (L : Locked) (pid : ℤ) (r : Reader) : Option Locked :=
  if r.sizeRead < r.count then do
    let st ← L.machine.streams r.stream
    let L ← L.eofToken st
    L.waitThen pid st.readSem (.take r)
  else
    some (L.onMachine fun S => (S.setFrame pid .user).note
      (.readReturned pid r.stream r.count r.sizeRead false))

def writeRound (L : Locked) (pid : ℤ) (w : Writer) : Option Locked :=
  if w.written < w.buf.length then do
    let st ← L.machine.streams w.stream
    L.waitThen pid st.writeSem (.store w)
  else some (L.onMachine fun S => S.setFrame pid .user)

def readFromFDAt (L : Locked) (pid fd : ℤ) : Option Locked :=
  let d := L.machine.fileDescriptors fd
  if fd < 0 ∨ fd ≥ maxFds ∨ fd = stdout ∨ fd = stderr ∨ !d.isOpen ∨ d.mode = .W then some L
  else do
    let stream ← d.resource
    let st ← L.machine.streams stream
    if st.dataAvailable > 0 ∧ st.buffer st.readPos ≠ 0 then
      L.waitThen pid st.readSem (.readAt stream st.readPos)
    else (L.machine.finishReadAt pid stream st.readPos).map fun S => { L with machine := S }

def postTimes : ℕ → Locked → ℤ → Option Locked
  | 0, L, _ => some L
  | n + 1, L, semId => do
      let (_, L) ← L.semPost semId
      postTimes n L semId

def signalEof (L : Locked) (id : ℕ) (st : Stream) : Option Locked :=
  if st.readers > 0 ∧ st.writers ≤ 0 then
    postTimes st.readers.toNat (L.onMachine fun S => S.setStream id { st with eof := true })
      st.readSem
  else some (L.onMachine fun S => S.setStream id st)

def freeStream (L : Locked) (id : ℕ) (st : Stream) : Option Locked :=
  if st.readers = 0 ∧ st.writers = 0 then do
    let (_, L) ← L.semDestroy st.readSem
    let (_, L) ← L.semDestroy st.writeSem
    some (L.onMachine fun S => { S with streams := Function.update S.streams id none })
  else some L

def closeFD (L : Locked) (fd : ℤ) : Option (Int32 × Locked) :=
  let d := L.machine.fileDescriptors fd
  if fd < 0 ∨ fd = stdout ∨ fd = stderr ∨ fd ≥ maxFds ∨ !d.isOpen then some (-1, L)
  else do
    let id ← d.resource
    let st ← L.machine.streams id
    if fd = stdin then some (0, L.onMachine fun S => S.setStream id { st with eof := false })
    else do
      let L ← L.signalEof id (st.dropEnd d.mode)
      let L ← L.freeStream id (st.dropEnd d.mode)
      some (0, L.onMachine fun S => S.setOpen fd false)

def kill (L : Locked) (pid : ℤ) : Option (Int32 × Locked) :=
  if pid ≤ initPid ∨ pid > maxPid ∨ (L.machine.sched.processes pid).state = EXITED then
    some (-1, L)
  else do
    let fds := (L.machine.sched.processes pid).fds
    let L := L.onMachine fun S => S.killStart pid .leave
    let (_, L) ← L.closeFD fds.1
    let (_, L) ← L.closeFD fds.2
    let L := L.onMachine fun S => S.killWake pid
    if L.machine.sched.currentProcess = some pid then
      some (0, L.onMachine fun S => S.onSched Sched.forceSwitchContext)
    else some (0, L)

def exitRound (L : Locked) (pid : ℤ) : ExitStage → Option Locked
  | .closeIn => do
      let (_, L) ← L.closeFD (L.machine.sched.processes pid).fds.1
      some (L.onMachine fun S => S.setFrame pid (.exiting .closeOut))
  | .closeOut => do
      let (_, L) ← L.closeFD (L.machine.sched.processes pid).fds.2
      some (L.onMachine fun S => S.setFrame pid (.exiting .wake))
  | stage => (L.machine.exitRound pid stage).map fun S => { L with machine := S }

/-! ## Steps -/

def sysCall (L : Locked) (pid : ℤ) : Syscall → Option Locked
  | .kill target => Prod.snd <$> L.kill target
  | .semWait semId =>
      if L.machine.sems.semExists semId then L.waitThen pid semId .done else some L
  | .semPost semId =>
      if L.machine.sems.semExists semId then Prod.snd <$> L.semPost semId else some L
  | .semSetValue semId value => Prod.snd <$> L.semSetValue semId value
  | .semDestroy semId =>
      if L.machine.sems.semExists semId then Prod.snd <$> L.semDestroy semId else some L
  | .close fd => Prod.snd <$> L.closeFD fd
  | .readAt fd => L.readFromFDAt pid fd
  -- the others call nothing that takes a lock
  | call => (L.machine.sysCall pid call).map fun S => { L with machine := S }

/-- Behind `blockProcess` in `semWait` the lock is taken again. -/
def resume (L : Locked) (pid : ℤ) : Frame → Option Locked
  | .semWait semId k => do
      let (taken, L) ← (L.acquireSpinlock semId).semWaitLoop pid semId k
      if taken then L.afterWait pid k else some L
  | .reading r => L.readRound pid r
  | .writing w => L.writeRound pid w
  | .exiting stage => L.exitRound pid stage
  | f => (L.machine.resume pid f).map fun S => { L with machine := S }

def step (L : Locked) (e : Event) : Option Locked :=
  match L.machine.sched.currentProcess, e with
  | some pid, .call c => if L.machine.frames pid = .user then L.sysCall pid c else none
  | some pid, .resume => L.resume pid (L.machine.frames pid)
  | _, e => (L.machine.step e).map fun S => { L with machine := S }

def handleCtrlC (L : Locked) : Option Locked :=
  match L.machine.getTerminalForegroundProcess with
  | none => some L
  | some pid => Prod.snd <$> L.kill pid

def keyboardHandler (L : Locked) : Key → Option Locked
  | .posts n => postTimes n L keyboardSemaphore
  | .ctrlC => L.handleCtrlC

def react (L : Locked) : Cause → Option Locked
  | .kernel e => L.step e
  | .key k =>
      match L.machine.sched.currentProcess with
      | none => none
      | some pid =>
          if Machine.interruptible (L.machine.frames pid) then L.keyboardHandler k else none

def Reacts (L : Locked) (e : Cause) (L' : Locked) : Prop := L.react e = some L'

def boot (nodes blocks : ℕ → Bool) : Locked := ⟨Machine.boot nodes blocks, fun _ => false, []⟩

/-! ## What is proved of the locks -/

variable {L L' : Locked} {semId : ℕ} {pid : ℤ}

/-- Every exchange found a free lock of the table, and the next thing done to any lock was to
release that one. -/
inductive Paired : List LockOp → Prop
  | nil : Paired []
  | pair {semId : ℕ} {ops : List LockOp} (hlt : semId < maxSems) (h : Paired ops) :
      Paired (.release semId true :: .acquire semId false :: ops)

/-- No lock is held, and none was ever waited for. -/
structure Free (L : Locked) : Prop where
  held : ∀ semId, L.held semId = false
  ops : Paired L.lockOps

/-- One lock is held. -/
structure Holding (L : Locked) (semId : ℕ) : Prop where
  slot : semId < maxSems
  held : ∀ i, L.held i = decide (i = (semId : ℤ))
  ops : ∃ ops, L.lockOps = .acquire semId false :: ops ∧ Paired ops

@[simp] theorem onMachine_machine (L : Locked) (f : Machine → Machine) :
    (L.onMachine f).machine = f L.machine := rfl

@[simp] theorem acquireSpinlock_machine (L : Locked) (semId : ℤ) :
    (L.acquireSpinlock semId).machine = L.machine := rfl

@[simp] theorem releaseSpinlock_machine (L : Locked) (semId : ℤ) :
    (L.releaseSpinlock semId).machine = L.machine := rfl

theorem Free.onMachine (h : L.Free) (f : Machine → Machine) : (L.onMachine f).Free :=
  ⟨h.held, h.ops⟩

theorem Free.withMachine (h : L.Free) (S : Machine) : ({ L with machine := S } : Locked).Free :=
  ⟨h.held, h.ops⟩

theorem Holding.onMachine (h : L.Holding semId) (f : Machine → Machine) :
    (L.onMachine f).Holding semId := ⟨h.slot, h.held, h.ops⟩

theorem Free.acquire (h : L.Free) (hlt : semId < maxSems) :
    (L.acquireSpinlock semId).Holding semId := by
  refine ⟨hlt, fun i => ?_, L.lockOps, ?_, h.ops⟩
  · by_cases heq : i = (semId : ℤ)
    · rw [heq, decide_eq_true rfl]
      exact Function.update_self _ _ _
    · rw [decide_eq_false heq]
      exact (Function.update_of_ne heq _ _).trans (h.held i)
  · unfold acquireSpinlock
    rw [h.held]

theorem Holding.release (h : L.Holding semId) : (L.releaseSpinlock semId).Free := by
  obtain ⟨ops, hops, hpaired⟩ := h.ops
  refine ⟨fun i => ?_, ?_⟩
  · by_cases heq : i = (semId : ℤ)
    · rw [heq]
      exact Function.update_self _ _ _
    · refine (Function.update_of_ne heq _ _).trans ?_
      rw [h.held, decide_eq_false heq]
  · unfold releaseSpinlock
    rw [h.held, decide_eq_true rfl, hops]
    exact .pair h.slot hpaired

/-! ## The functions of the semaphores -/

theorem Holding.semWaitLoop (h : L.Holding semId) {k : AfterWait} {taken : Bool}
    (hloop : L.semWaitLoop pid semId k = some (taken, L')) : L'.Free := by
  unfold Locked.semWaitLoop at hloop
  dsimp only at hloop
  split at hloop
  · split at hloop
    · cases hloop
    · obtain ⟨-, rfl⟩ := Prod.mk.inj (Option.some.inj hloop)
      exact (h.onMachine _).release.onMachine _
  · obtain ⟨-, rfl⟩ := Prod.mk.inj (Option.some.inj hloop)
    exact (h.onMachine _).release

/-- An identifier of the table. -/
theorem slot_of {semId : ℤ} (hpos : ¬semId < 0) (hlt : ¬semId ≥ maxSems) :
    semId.toNat < maxSems ∧ (semId.toNat : ℤ) = semId := by
  have hnat : (semId.toNat : ℤ) = semId := Int.toNat_of_nonneg (not_lt.mp hpos)
  refine ⟨?_, hnat⟩
  have := not_le.mp hlt
  omega

theorem Free.semWait (h : L.Free) {semId : ℤ} {k : AfterWait} {returned : Bool}
    (hwait : L.semWait pid semId k = some (returned, L')) : L'.Free := by
  unfold Locked.semWait at hwait
  split at hwait
  · obtain ⟨-, rfl⟩ := Prod.mk.inj (Option.some.inj hwait)
    exact h
  · rename_i hpos
    split at hwait
    · cases hwait
    · rename_i hlt
      obtain ⟨hslot, hnat⟩ := slot_of hpos hlt
      have hholding := h.acquire hslot
      rw [hnat] at hholding
      dsimp only at hwait
      split at hwait
      · obtain ⟨-, rfl⟩ := Prod.mk.inj (Option.some.inj hwait)
        rw [← hnat] at hholding ⊢
        exact hholding.release
      · exact hholding.semWaitLoop hwait

theorem Free.semPost (h : L.Free) {semId : ℤ} {r : Int32}
    (hpost : L.semPost semId = some (r, L')) : L'.Free := by
  unfold Locked.semPost at hpost
  split at hpost
  · obtain ⟨-, rfl⟩ := Prod.mk.inj (Option.some.inj hpost)
    exact h
  · rename_i hrange
    obtain ⟨hpos, hlt⟩ := not_or.mp hrange
    obtain ⟨hslot, hnat⟩ := slot_of hpos hlt
    have hholding := h.acquire hslot
    rw [← hnat, Int.toNat_natCast] at hpost
    dsimp only at hpost
    split at hpost
    · obtain ⟨-, rfl⟩ := Prod.mk.inj (Option.some.inj hpost)
      exact hholding.release
    · split at hpost
      · cases hpost
      · obtain ⟨-, rfl⟩ := Prod.mk.inj (Option.some.inj hpost)
        exact (hholding.onMachine _).release

theorem Free.semDestroy (h : L.Free) {semId : ℤ} {r : Int32} (hpos : 0 ≤ semId)
    (hdestroy : L.semDestroy semId = some (r, L')) : L'.Free := by
  unfold Locked.semDestroy at hdestroy
  rw [if_neg (not_lt.mpr hpos)] at hdestroy
  split at hdestroy
  · cases hdestroy
  · rename_i hlt
    obtain ⟨hslot, hnat⟩ := slot_of (not_lt.mpr hpos) hlt
    have hholding := h.acquire hslot
    rw [← hnat, Int.toNat_natCast] at hdestroy
    dsimp only at hdestroy
    split at hdestroy
    · cases hdestroy
    · obtain ⟨-, rfl⟩ := Prod.mk.inj (Option.some.inj hdestroy)
      exact (hholding.onMachine _).release

theorem Free.semSetValue (h : L.Free) {semId : ℤ} {newValue r : Int32}
    (hset : L.semSetValue semId newValue = some (r, L')) : L'.Free := by
  unfold Locked.semSetValue at hset
  split at hset
  · obtain ⟨-, rfl⟩ := Prod.mk.inj (Option.some.inj hset)
    exact h
  · rename_i hrange
    obtain ⟨hpos, hrest⟩ := not_or.mp hrange
    obtain ⟨hslot, hnat⟩ := slot_of hpos (not_or.mp hrest).1
    have hholding := h.acquire hslot
    rw [← hnat, Int.toNat_natCast] at hset
    dsimp only at hset
    split at hset
    · obtain ⟨-, rfl⟩ := Prod.mk.inj (Option.some.inj hset)
      exact hholding.release
    · split at hset
      · split at hset
        · cases hset
        · obtain ⟨-, rfl⟩ := Prod.mk.inj (Option.some.inj hset)
          exact (hholding.onMachine _).release
      · obtain ⟨-, rfl⟩ := Prod.mk.inj (Option.some.inj hset)
        exact (hholding.onMachine _).release

/-! ## Without the locks -/

/-- The result without the locks. -/
def plain {α : Type} (r : Option (α × Locked)) : Option (α × Machine) :=
  r.map fun x => (x.1, x.2.machine)

theorem semWaitLoop_plain (L : Locked) (pid : ℤ) (semId : ℕ) (k : AfterWait) :
    plain (L.semWaitLoop pid semId k) = L.machine.semWaitLoop pid semId k := by
  unfold Locked.semWaitLoop Machine.semWaitLoop
  dsimp only
  split
  · cases hw : (L.machine.sems.sems semId).waiting with
    | null => simp [plain, Machine.enlist, hw, onMachine, releaseSpinlock]
    | freed => rfl
    | queue q => simp [plain, Machine.enlist, hw, onMachine, releaseSpinlock]
  · rfl

theorem semWait_plain (L : Locked) (pid semId : ℤ) (k : AfterWait) :
    plain (L.semWait pid semId k) = L.machine.semWait pid semId k := by
  unfold Locked.semWait Machine.semWait
  split
  · rfl
  · split
    · rfl
    · dsimp only
      rw [acquireSpinlock_machine]
      split
      · rfl
      · exact semWaitLoop_plain _ _ _ _

theorem semPost_plain (L : Locked) (semId : ℤ) :
    plain (L.semPost semId) = L.machine.semPost semId := by
  unfold Locked.semPost Machine.semPost
  split
  · rfl
  · dsimp only
    rw [acquireSpinlock_machine]
    split
    · rfl
    · cases (L.machine.sems.sems semId.toNat).waiting.elements with
      | none => rfl
      | some pids => rfl

theorem semDestroy_plain (L : Locked) {semId : ℤ} (hpos : 0 ≤ semId) :
    plain (L.semDestroy semId) = L.machine.semDestroy semId := by
  unfold Locked.semDestroy Machine.semDestroy
  rw [if_neg (not_lt.mpr hpos)]
  by_cases hlt : semId ≥ maxSems
  · rw [if_pos hlt, if_pos (.inr hlt)]
    rfl
  · rw [if_neg hlt, if_neg (not_or.mpr ⟨not_lt.mpr hpos, hlt⟩)]
    dsimp only
    rw [acquireSpinlock_machine]
    cases (L.machine.sems.sems semId.toNat).waiting.elements with
    | none => rfl
    | some pids => rfl

theorem semSetValue_plain (L : Locked) (semId : ℤ) (newValue : Int32) :
    plain (L.semSetValue semId newValue) = L.machine.semSetValue semId newValue := by
  unfold Locked.semSetValue Machine.semSetValue
  split
  · rfl
  · dsimp only
    rw [acquireSpinlock_machine]
    split
    · rfl
    · split
      · cases (L.machine.sems.sems semId.toNat).waiting.elements with
        | none => rfl
        | some pids => rfl
      · rfl

/-- A call on the locked kernel does what the call on the kernel does, and leaves every lock
free. -/
def Matches {α β : Type} (plain : α → β) (free : α → Prop) (r : Option α) (r' : Option β) : Prop :=
  r.map plain = r' ∧ ∀ a ∈ r, free a

/-- The same for a call without a result. -/
abbrev Follows (r : Option Locked) (r' : Option Machine) : Prop := Matches machine Free r r'

abbrev Answers {α : Type} (r : Option (α × Locked)) (r' : Option (α × Machine)) : Prop :=
  Matches (fun x => (x.1, x.2.machine)) (fun x => x.2.Free) r r'

section Rules

variable {α β γ δ : Type} {plain : α → β} {free : α → Prop} {plain' : γ → δ} {free' : γ → Prop}
  {r : Option α} {r' : Option β}

theorem Matches.none : Matches plain free none none := ⟨rfl, fun _ h => by cases h⟩

theorem Matches.some {a : α} (h : free a) : Matches plain free (some a) (some (plain a)) :=
  ⟨rfl, fun _ hb => Option.some.inj hb ▸ h⟩

/-- One call after another, when the second needs to know what the first did. -/
theorem Matches.bind_of (h : Matches plain free r r') {f : α → Option γ} {f' : β → Option δ}
    (hf : ∀ a, r' = Option.some (plain a) → free a → Matches plain' free' (f a) (f' (plain a))) :
    Matches plain' free' (r.bind f) (r'.bind f') := by
  obtain ⟨rfl, hfree⟩ := h
  cases r with
  | none => exact .none
  | some a => exact hf a rfl (hfree a rfl)

/-- One call after another. -/
theorem Matches.bind (h : Matches plain free r r') {f : α → Option γ} {f' : β → Option δ}
    (hf : ∀ a, free a → Matches plain' free' (f a) (f' (plain a))) :
    Matches plain' free' (r.bind f) (r'.bind f') :=
  h.bind_of fun a _ => hf a

theorem Matches.map (h : Matches plain free r r') {f : α → γ} {f' : β → δ}
    (heq : ∀ a, plain' (f a) = f' (plain a)) (hf : ∀ a, free a → free' (f a)) :
    Matches plain' free' (f <$> r) (f' <$> r') := by
  obtain ⟨rfl, hfree⟩ := h
  cases r with
  | none => exact .none
  | some a =>
      refine ⟨congrArg Option.some (heq a), fun b hb => ?_⟩
      rw [← Option.some.inj hb]
      exact hf a (hfree a rfl)

/-- What the rest of the kernel does. -/
theorem Free.follows (h : L.Free) (r : Option Machine) :
    Follows (r.map fun S => { L with machine := S }) r := by
  cases r with
  | none => exact .none
  | some S => exact .some (h.withMachine S)

end Rules

theorem Free.semWaitLoop_answers (h : L.Holding semId) (pid : ℤ) (k : AfterWait) :
    Answers (L.semWaitLoop pid semId k) (L.machine.semWaitLoop pid semId k) :=
  ⟨semWaitLoop_plain L pid semId k, fun _ hloop => h.semWaitLoop hloop⟩

theorem Free.semWait_answers (h : L.Free) (pid semId : ℤ) (k : AfterWait) :
    Answers (L.semWait pid semId k) (L.machine.semWait pid semId k) :=
  ⟨semWait_plain L pid semId k, fun _ hwait => h.semWait hwait⟩

theorem Free.semPost_answers (h : L.Free) (semId : ℤ) :
    Answers (L.semPost semId) (L.machine.semPost semId) :=
  ⟨semPost_plain L semId, fun _ hpost => h.semPost hpost⟩

theorem Free.semDestroy_answers (h : L.Free) {semId : ℤ} (hpos : 0 ≤ semId) :
    Answers (L.semDestroy semId) (L.machine.semDestroy semId) :=
  ⟨semDestroy_plain L hpos, fun _ hdestroy => h.semDestroy hpos hdestroy⟩

theorem Free.semSetValue_answers (h : L.Free) (semId : ℤ) (newValue : Int32) :
    Answers (L.semSetValue semId newValue) (L.machine.semSetValue semId newValue) :=
  ⟨semSetValue_plain L semId newValue, fun _ hset => h.semSetValue hset⟩

/-! ## Reading, writing and waiting -/

theorem Free.takeByte (h : L.Free) (pid : ℤ) (r : Reader) :
    Follows (L.takeByte pid r) (L.machine.takeByte pid r) := by
  unfold Locked.takeByte Machine.takeByte
  cases hst : L.machine.streams r.stream with
  | none => exact .none
  | some st =>
      simp only [Option.bind_eq_bind, Option.bind_some]
      split
      · refine ((h.onMachine _).semPost_answers st.writeSem).bind fun x hx => ?_
        dsimp only
        split
        · exact .some (hx.onMachine _)
        · exact .some (hx.onMachine _)
      · exact .some (h.onMachine _)

theorem Free.storeByte (h : L.Free) (pid : ℤ) (w : Writer) :
    Follows (L.storeByte pid w) (L.machine.storeByte pid w) := by
  unfold Locked.storeByte Machine.storeByte
  cases hst : L.machine.streams w.stream with
  | none => exact .none
  | some st =>
      cases hbyte : w.buf[w.written]? with
      | none => exact .none
      | some byte =>
          simp only [Option.bind_eq_bind, Option.bind_some]
          refine ((h.onMachine _).semPost_answers st.readSem).bind fun x hx => ?_
          exact .some (hx.onMachine _)

theorem Free.afterWait (h : L.Free) (pid : ℤ) (k : AfterWait) :
    Follows (L.afterWait pid k) (L.machine.afterWait pid k) := by
  cases k with
  | done => exact .some (h.onMachine _)
  | take r => exact h.takeByte pid r
  | store w => exact h.storeByte pid w
  | readAt stream pos => exact h.follows _

theorem Free.afterLoop (pid : ℤ) (k : AfterWait) (x : Bool × Locked) (h : x.2.Free) :
    Follows (if x.1 then x.2.afterWait pid k else some x.2)
      (if x.1 then x.2.machine.afterWait pid k else some x.2.machine) := by
  split
  · exact h.afterWait pid k
  · exact .some h

theorem Free.waitThen (h : L.Free) (pid semId : ℤ) (k : AfterWait) :
    Follows (L.waitThen pid semId k) (L.machine.waitThen pid semId k) :=
  (h.semWait_answers pid semId k).bind fun x hx => Free.afterLoop pid k x hx

theorem Free.readRound (h : L.Free) (pid : ℤ) (r : Reader) :
    Follows (L.readRound pid r) (L.machine.readRound pid r) := by
  unfold Locked.readRound Machine.readRound
  split
  · cases hst : L.machine.streams r.stream with
    | none => exact .none
    | some st =>
        have htoken : Follows (L.eofToken st) (L.machine.eofToken st) := by
          unfold Locked.eofToken Machine.eofToken
          split
          · exact (h.semPost_answers st.readSem).map (fun _ => rfl) fun _ hx => hx
          · exact .some h
        exact htoken.bind fun L' hL' => hL'.waitThen pid st.readSem (.take r)
  · exact .some (h.onMachine _)

theorem Free.writeRound (h : L.Free) (pid : ℤ) (w : Writer) :
    Follows (L.writeRound pid w) (L.machine.writeRound pid w) := by
  unfold Locked.writeRound Machine.writeRound
  split
  · cases hst : L.machine.streams w.stream with
    | none => exact .none
    | some st => exact h.waitThen pid st.writeSem (.store w)
  · exact .some (h.onMachine _)

theorem Free.readFromFDAt (h : L.Free) (pid fd : ℤ) :
    Follows (L.readFromFDAt pid fd) (L.machine.readFromFDAt pid fd) := by
  unfold Locked.readFromFDAt Machine.readFromFDAt
  dsimp only
  split
  · exact .some h
  · cases hid : (L.machine.fileDescriptors fd).resource with
    | none => exact .none
    | some stream =>
        cases hst : L.machine.streams stream with
        | none => simp only [Option.bind_eq_bind, Option.bind_some, hst]; exact .none
        | some st =>
            simp only [Option.bind_eq_bind, Option.bind_some, hst]
            split
            · exact h.waitThen pid st.readSem (.readAt stream st.readPos)
            · exact h.follows _

end Locked

/-! ## Closing descriptors -/

namespace Machine

variable {S S' : Machine} {fd : ℤ}

/-- If the stream of the descriptor goes with this end, both its semaphores have been made. -/
def ClosesNamed (S : Machine) (fd : ℤ) : Prop :=
  S.Closable fd → fd ≠ stdin → ∀ id st, (S.fileDescriptors fd).resource = some id →
    S.streams id = some st → (st.dropEnd (S.fileDescriptors fd).mode).readers = 0 →
      (st.dropEnd (S.fileDescriptors fd).mode).writers = 0 → 0 ≤ st.readSem ∧ 0 ≤ st.writeSem

/-- `kill` closes both ends, one after the other. -/
def KillsNamed (S : Machine) (pid : ℤ) : Prop :=
  initPid < pid → pid ≤ maxPid → (S.sched.processes pid).state ≠ EXITED →
    let fds := (S.sched.processes pid).fds
    S.ClosesNamed fds.1 ∧ (S.withoutEnd fds.1).ClosesNamed fds.2

/-- No pipe whose semaphores could not both be made loses its last end. -/
def closesNamed (S : Machine) : Cause → Prop
  | .kernel (.call (.close fd)) => S.ClosesNamed fd
  | .kernel (.call (.kill pid)) => S.KillsNamed pid
  | .kernel .resume => ∀ c, S.sched.currentProcess = some c →
      (S.frames c = .exiting .closeIn → S.ClosesNamed (S.sched.processes c).fds.1) ∧
        (S.frames c = .exiting .closeOut → S.ClosesNamed (S.sched.processes c).fds.2)
  | .key .ctrlC => ∀ pid, S.getTerminalForegroundProcess = some pid → S.KillsNamed pid
  | _ => True

theorem ClosesNamed.congr (h : S.ClosesNamed fd) (hfds : S'.fileDescriptors = S.fileDescriptors)
    (hstreams : ∀ id, (S'.streams id).map ends = (S.streams id).map ends) : S'.ClosesNamed fd := by
  unfold ClosesNamed Closable at *
  rw [hfds]
  intro hopen hne id st' hid hst' hreaders hwriters
  have hmap := hstreams id
  rw [hst', Option.map_some] at hmap
  obtain ⟨st, hst, hends⟩ := Option.map_eq_some_iff.mp hmap.symm
  obtain ⟨hr, hw, hrs, hws⟩ := ends_eq hends
  rw [← hrs, ← hws]
  refine h hopen hne id st hid hst ?_ ?_
  · cases hm : (S.fileDescriptors fd).mode <;> rw [hm] at hreaders <;>
      simpa [Stream.dropEnd, hr] using hreaders
  · cases hm : (S.fileDescriptors fd).mode <;> rw [hm] at hwriters <;>
      simpa [Stream.dropEnd, hw] using hwriters

end Machine

namespace Locked

variable {L L' : Locked} {pid fd : ℤ}

theorem Free.postTimes (semId : ℤ) : ∀ {n : ℕ} {L : Locked}, L.Free →
    Follows (Locked.postTimes n L semId) (Machine.postTimes n L.machine semId)
  | 0, _, h => .some h
  | _ + 1, _, h => (h.semPost_answers semId).bind fun _ hx => Free.postTimes semId hx

theorem Free.closeFD (h : L.Free) (hnamed : L.machine.ClosesNamed fd) :
    Answers (L.closeFD fd) (L.machine.closeFD fd) := by
  unfold Locked.closeFD Machine.closeFD
  dsimp only
  split
  · exact .some h
  · rename_i hgood
    cases hid : (L.machine.fileDescriptors fd).resource with
    | none => exact .none
    | some id =>
        cases hst : L.machine.streams id with
        | none => simp only [Option.bind_eq_bind, Option.bind_some, hst]; exact .none
        | some st =>
            simp only [Option.bind_eq_bind, Option.bind_some, hst]
            split
            · refine .some ?_
              dsimp only
              exact h.onMachine _
            · rename_i hstdin
              obtain ⟨st', hst'⟩ : ∃ st', st' = st.dropEnd (L.machine.fileDescriptors fd).mode :=
                ⟨_, rfl⟩
              rw [← hst']
              have hsignal : Follows (L.signalEof id st') (L.machine.signalEof id st') := by
                unfold Locked.signalEof Machine.signalEof
                split
                · exact Free.postTimes _ (h.onMachine _)
                · exact .some (h.onMachine _)
              unfold Machine.closeEnd
              refine hsignal.bind fun L₁ h₁ => ?_
              have hfree : Follows (L₁.freeStream id st') (L₁.machine.freeStream id st') := by
                unfold Locked.freeStream Machine.freeStream
                split
                · rename_i hends
                  have hopen : L.machine.Closable fd := by
                    simp only [not_or, not_lt, ge_iff_le, not_le, Bool.not_eq_true',
                      Bool.not_eq_false] at hgood
                    exact ⟨⟨hgood.1, hgood.2.2.2.1⟩, ⟨hgood.2.1, hgood.2.2.1⟩, hgood.2.2.2.2⟩
                  rw [hst'] at hends
                  obtain ⟨hread, hwrite⟩ := hnamed hopen hstdin id st hid hst hends.1 hends.2
                  have hsame : st'.readSem = st.readSem ∧ st'.writeSem = st.writeSem := by
                    rw [hst']
                    cases (L.machine.fileDescriptors fd).mode <;> exact ⟨rfl, rfl⟩
                  rw [hsame.1, hsame.2]
                  refine (h₁.semDestroy_answers hread).bind fun x hx => ?_
                  refine (hx.semDestroy_answers hwrite).bind fun y hy => ?_
                  exact .some (hy.onMachine _)
                · exact .some h₁
              refine hfree.bind fun L₂ h₂ => .some ?_
              dsimp only
              exact h₂.onMachine _

theorem Free.kill (h : L.Free) (hnamed : L.machine.KillsNamed pid) :
    Answers (L.kill pid) (L.machine.kill pid) := by
  unfold Locked.kill Machine.kill
  split
  · exact .some h
  · rename_i hrange
    rw [not_or, not_or, not_le, not_lt] at hrange
    obtain ⟨hfirst, hsecond⟩ := hnamed hrange.1 hrange.2.1 hrange.2.2
    have hstart := h.onMachine fun S => S.killStart pid .leave
    have hin : Answers ((L.onMachine fun S => S.killStart pid .leave).closeFD
        (L.machine.sched.processes pid).fds.1)
          ((L.machine.killStart pid .leave).closeFD (L.machine.sched.processes pid).fds.1) :=
      hstart.closeFD (hfirst.congr rfl fun _ => rfl)
    refine hin.bind_of fun x hx hxfree => ?_
    obtain ⟨hfds, hstreams⟩ := Machine.closeFD_withoutEnd hx
    obtain ⟨hfds', hstreams'⟩ := @Machine.withoutEnd_congr L.machine
      (L.machine.killStart pid .leave) (L.machine.sched.processes pid).fds.1 rfl rfl
    rw [hfds'] at hfds
    simp only [hstreams'] at hstreams
    have hout : Answers (x.2.closeFD (L.machine.sched.processes pid).fds.2)
        (x.2.machine.closeFD (L.machine.sched.processes pid).fds.2) :=
      hxfree.closeFD (hsecond.congr hfds hstreams)
    refine hout.bind fun y hyfree => ?_
    dsimp only
    split
    · rename_i hself
      rw [onMachine_machine] at hself
      rw [if_pos hself]
      refine .some ?_
      dsimp only
      exact (hyfree.onMachine _).onMachine _
    · rename_i hother
      rw [onMachine_machine] at hother
      rw [if_neg hother]
      refine .some ?_
      dsimp only
      exact hyfree.onMachine _

theorem Free.exitRound (h : L.Free) {stage : ExitStage}
    (hin : stage = .closeIn → L.machine.ClosesNamed (L.machine.sched.processes pid).fds.1)
    (hout : stage = .closeOut → L.machine.ClosesNamed (L.machine.sched.processes pid).fds.2) :
    Follows (L.exitRound pid stage) (L.machine.exitRound pid stage) := by
  cases stage with
  | closeIn =>
      refine (h.closeFD (hin rfl)).bind fun x hx => .some ?_
      exact hx.onMachine _
  | closeOut =>
      refine (h.closeFD (hout rfl)).bind fun x hx => .some ?_
      exact hx.onMachine _
  | wake => exact h.follows (L.machine.exitRound pid .wake)
  | leave => exact h.follows (L.machine.exitRound pid .leave)

/-! ## Steps -/

theorem Free.sysCall (h : L.Free) {call : Syscall}
    (hnamed : L.machine.closesNamed (.kernel (.call call))) :
    Follows (L.sysCall pid call) (L.machine.sysCall pid call) := by
  have hplain := h.follows (L.machine.sysCall pid call)
  cases call with
  | kill target => exact (h.kill hnamed).map (fun _ => rfl) fun _ hx => hx
  | semWait semId =>
      unfold Locked.sysCall Machine.sysCall
      dsimp only
      split
      · exact h.waitThen pid semId .done
      · exact .some h
  | semPost semId =>
      unfold Locked.sysCall Machine.sysCall
      dsimp only
      split
      · exact (h.semPost_answers semId).map (fun _ => rfl) fun _ hx => hx
      · exact .some h
  | semSetValue semId value =>
      exact (h.semSetValue_answers semId value).map (fun _ => rfl) fun _ hx => hx
  | semDestroy semId =>
      unfold Locked.sysCall Machine.sysCall
      dsimp only
      split
      · rename_i hexists
        have hpos : 0 ≤ semId := (of_decide_eq_true hexists).1
        exact (h.semDestroy_answers hpos).map (fun _ => rfl) fun _ hx => hx
      · exact .some h
  | close fd => exact (h.closeFD hnamed).map (fun _ => rfl) fun _ hx => hx
  | readAt fd => exact h.readFromFDAt pid fd
  | _ => exact hplain

/-- Whoever is inside `semWait` is there with a slot of the table. -/
def InTable (S : Machine) : Prop := ∀ p semId k, S.frames p = .semWait semId k → semId < maxSems

theorem Free.resume (h : L.Free) (htable : InTable L.machine)
    (hcurrent : L.machine.sched.currentProcess = some pid)
    (hnamed : L.machine.closesNamed (.kernel .resume)) :
    Follows (L.resume pid (L.machine.frames pid))
      (L.machine.resume pid (L.machine.frames pid)) := by
  obtain ⟨hin, hout⟩ := hnamed pid hcurrent
  have hplain := h.follows (L.machine.resume pid (L.machine.frames pid))
  cases hf : L.machine.frames pid with
  | semWait semId k =>
      have hholding := h.acquire (htable pid semId k hf)
      refine (Free.semWaitLoop_answers hholding pid k).bind fun x hx => ?_
      exact Free.afterLoop pid k x hx
  | reading r => exact h.readRound pid r
  | writing w => exact h.writeRound pid w
  | exiting stage =>
      refine h.exitRound (fun hstage => hin ?_) fun hstage => hout ?_
      · rw [hf, hstage]
      · rw [hf, hstage]
  | _ =>
      rw [hf] at hplain
      exact hplain

theorem Free.step (h : L.Free) (htable : InTable L.machine) {e : Event}
    (hnamed : L.machine.closesNamed (.kernel e)) : Follows (L.step e) (L.machine.step e) := by
  unfold Locked.step
  split
  · rename_i pid call hc
    unfold Machine.step
    rw [hc]
    dsimp only
    split
    · exact h.sysCall hnamed
    · exact .none
  · rename_i pid hc
    unfold Machine.step
    rw [hc]
    exact h.resume htable hc hnamed
  · exact h.follows _

theorem Free.react (h : L.Free) (htable : InTable L.machine) {e : Cause}
    (hnamed : L.machine.closesNamed e) : Follows (L.react e) (L.machine.react e) := by
  cases e with
  | kernel e => exact h.step htable hnamed
  | key k =>
      unfold Locked.react Machine.react
      cases hc : L.machine.sched.currentProcess with
      | none => exact .none
      | some c =>
          dsimp only
          by_cases hf : Machine.interruptible (L.machine.frames c) = true
          · rw [if_pos hf, if_pos hf]
            cases k with
            | posts n => exact Free.postTimes _ h
            | ctrlC =>
                unfold Locked.keyboardHandler Machine.keyboardHandler Locked.handleCtrlC
                  Machine.handleCtrlC
                cases hfg : L.machine.getTerminalForegroundProcess with
                | none => exact .some h
                | some pid => exact (h.kill (hnamed pid hfg)).map (fun _ => rfl) fun _ hx => hx
          · rw [if_neg hf, if_neg hf]
            exact .none

/-! ## Runs -/

theorem inTable_does {S S' : Machine} {a : Act} (h : InTable S) (hd : S.Does a S') :
    InTable S' := by
  intro p semId k hframe
  rcases hd.frames_semWait hframe with hframe | rfl
  · exact h p semId k hframe
  · cases hd with
    | sleep _ _ _ _ hin =>
        rcases hin with ⟨k', hin⟩ | ⟨hlt, -⟩
        · exact h p semId k' hin
        · exact hlt

theorem inTable_boot (nodes blocks : ℕ → Bool) : InTable (Machine.boot nodes blocks) := by
  refine Machine.boot_path.invariant (I := InTable) (fun p semId k hframe => ?_)
    fun S a S' h _ hd => inTable_does h hd
  cases hframe

/-- **No lock is held where the CPU can change hands**: in every run in which no pipe whose
semaphores could not both be made loses its last end, every lock is free between two steps, every
exchange has found its lock free, and every release was of the lock just acquired. So nothing is
ever held up: the kernel does what it does without locks. -/
theorem locks_free (nodes blocks : ℕ → Bool) (L : Locked)
    (hrun : Reaches Reacts (fun L e => L.machine.closesNamed e) (boot nodes blocks) L) :
    L.Free ∧ ∀ e, L.machine.closesNamed e →
      (L.react e).map machine = L.machine.react e := by
  have hall : L.Free ∧ L.machine.Base ∧ InTable L.machine := by
    refine hrun.invariant (I := fun L => L.Free ∧ L.machine.Base ∧ InTable L.machine)
      ⟨⟨fun _ => rfl, .nil⟩, Machine.base_boot, inTable_boot nodes blocks⟩ ?_
    rintro L e L' ⟨hfree, hbase, htable⟩ hnamed hreact
    obtain ⟨hplain, hfree'⟩ := hfree.react htable hnamed
    unfold Reacts at hreact
    rw [hreact] at hplain
    have hpath := Machine.react_path hbase hplain.symm
    exact ⟨hfree' L' hreact, hpath.base hbase, hpath.invariant htable
      fun _ _ _ h _ => inTable_does h⟩
  exact ⟨hall.1, fun e hnamed => (hall.1.react hall.2.2 hnamed).1⟩

/-- A worker sleeps, and the shell posts. -/
def postsToWorker : List Cause :=
  (Machine.workerSleeps ++ [Event.call (.semPost 3)]).map Cause.kernel

theorem locks_free_worker : ∃ L, exec react (boot (fun _ => true) fun _ => true) postsToWorker =
    some L ∧ L.lockOps.length = 4 ∧ L.Free := by
  obtain ⟨L, hL⟩ := Option.isSome_iff_exists.mp (by decide +kernel :
    (exec react (boot (fun _ => true) fun _ => true) postsToWorker).isSome)
  have hops : (exec react (boot (fun _ => true) fun _ => true) postsToWorker).map
      (fun L => L.lockOps.length) = some 4 := by
    decide +kernel
  rw [hL] at hops
  refine ⟨L, hL, Option.some.inj hops, ?_⟩
  refine (locks_free (fun _ => true) (fun _ => true) L (exec_always hL fun e he L' => ?_)).1
  obtain ⟨e', he', rfl⟩ := List.mem_map.mp he
  simp only [Machine.workerSleeps, Machine.workerWaits, List.cons_append, List.nil_append,
    List.mem_cons, List.not_mem_nil, or_false] at he'
  rcases he' with rfl | rfl | rfl | rfl | rfl | rfl <;> trivial

theorem Paired.inside {ops : List LockOp} (h : Paired ops) {semId : ℤ} {found : Bool}
    (hop : .release semId found ∈ ops) : 0 ≤ semId := by
  induction h with
  | nil => exact absurd hop List.not_mem_nil
  | @pair slot ops hlt h ih =>
      rcases List.mem_cons.mp hop with heq | hop
      · rw [(LockOp.release.inj heq).1]
        exact Int.natCast_nonneg slot
      · rcases List.mem_cons.mp hop with heq | hop
        · cases heq
        · exact ih hop

/-- The name of the first semaphore of a pipe is taken. -/
def closesUnnamed : List Cause :=
  [Event.call (.semOpen (itoa 3) 1), .call (.pipe fun _ => 0), .call (.close 3),
    .call (.close 4)].map Cause.kernel

/-- **A lock in front of the table is released**: with its second end, a pipe is freed that has no
semaphore for its readers. -/
theorem locks_outside : ¬∀ nodes blocks L, Reaches Reacts always (boot nodes blocks) L →
    L.Free := by
  intro hall
  obtain ⟨L, hL⟩ := Option.isSome_iff_exists.mp (by decide +kernel :
    (exec react (boot (fun _ => true) fun _ => true) closesUnnamed).isSome)
  have hops : (exec react (boot (fun _ => true) fun _ => true) closesUnnamed).map
      (fun L => decide (LockOp.release (-1) false ∈ L.lockOps)) = some true := by
    decide +kernel
  rw [hL] at hops
  have hfree := hall _ _ L (exec_always hL fun _ _ _ => trivial)
  exact absurd (hfree.ops.inside (of_decide_eq_true (Option.some.inj hops))) (by decide)

end Locked

end BareKernel.Kernel
