import BareKernel.Kernel.Lifecycle
import BareKernel.Lib.Runs

/-!
# Steps of the whole system

The system calls of `Kernel/idt/syscallDispatcher.c`, the timer, and `main` of
`Kernel/kernel.c` up to its first context switch. Which calls a process makes
is not determined: a run is any sequence of steps. If the scheduler found no
process, the code goes on in a context that belongs to none; the model then only
has the timer.

A run ends where the code leaves its tables. One such step closes the last end of
a pipe without semaphores: `semDestroy` of -1 writes the lock in front of `sems`
before it returns. The runs with locks, in `Kernel.Locks`, go on behind that write.
-/

namespace BareKernel.Kernel

open ProcessState Runs

inductive Syscall : Type where
  | createProcess (params : Option CreationParameters)
  | kill (pid : ℤ)
  | block (pid : ℤ)
  | unblock (pid : ℤ)
  | changePriority (pid : ℤ) (priority : UInt32)
  | yield
  | wait (pid : ℤ) (wstatus : Bool)
  | semOpen (name : CString) (value : Int32)
  | semClose (semId : ℤ)
  | semWait (semId : ℤ)
  | semPost (semId : ℤ)
  | semSetValue (semId : ℤ) (value : Int32)
  | semDestroy (semId : ℤ)
  | pipe (fresh : ℕ → UInt8)
  | close (fd : ℤ)
  | read (fd count : ℤ)
  | write (fd : ℤ) (buf : List UInt8)
  | readAt (fd : ℤ)

/-- `resume` goes on inside the kernel, and `exit` is the return of `entry`. -/
inductive Event : Type where
  | tick
  | call (c : Syscall)
  | resume
  | exit (returnValue : Int32)

namespace Machine

/-- PID 1 and what is no process cannot be blocked by the user. -/
def sysBlock (S : Machine) (pid : ℤ) : Machine :=
  if pid = initPid ∨ !S.sched.isValidPID pid then S
  else S.onSched fun s => (s.blockProcess pid).2

def sysSemOpen (S : Machine) (pid : ℤ) (name : CString) (value : Int32) : ℤ × Machine :=
  if (S.sems.findSemByName name).isNone then S.semCreate pid name value else S.semOpen pid name

/-- The caller is `pid`, and it is in user mode. -/
def sysCall (S : Machine) (pid : ℤ) : Syscall → Option Machine
  | .createProcess params => some (S.createProcess params).2
  | .kill target => Prod.snd <$> S.kill target
  | .block target => some (S.sysBlock target)
  | .unblock target => some (S.onSched fun s => (s.unblockProcess target).2)
  | .changePriority target priority => some (S.changeProccessPriority target priority).2
  | .yield => some (S.onSched Sched.yield)
  | .wait target wstatus => some (S.waitProcess pid target wstatus)
  | .semOpen name value => some (S.sysSemOpen pid name value).2
  | .semClose semId => Prod.snd <$> S.semClose pid semId
  | .semWait semId => if S.sems.semExists semId then S.waitThen pid semId .done else some S
  | .semPost semId => if S.sems.semExists semId then Prod.snd <$> S.semPost semId else some S
  | .semSetValue semId value => Prod.snd <$> S.semSetValue semId value
  | .semDestroy semId => if S.sems.semExists semId then Prod.snd <$> S.semDestroy semId else some S
  | .pipe fresh => Prod.snd <$> S.createPipe pid fresh
  | .close fd => Prod.snd <$> S.closeFD fd
  | .read fd count => S.readFromFD pid fd count
  | .write fd buf => S.writeToFD pid fd buf
  | .readAt fd => S.readFromFDAt pid fd

/-- The current process goes on at its frame. -/
def resume (S : Machine) (pid : ℤ) : Frame → Option Machine
  | .user => none
  | .semWait semId k => do
      let (taken, S) ← S.semWaitLoop pid semId k
      if taken then S.afterWait pid k else some S
  | .waitBlock target wstatus =>
      some ((S.setFrame pid (.waitForced target wstatus)).onSched Sched.forceSwitchContext)
  | .waitForced target wstatus => some (S.waitRead pid target wstatus)
  | .reading r => S.readRound pid r
  | .writing w => S.writeRound pid w
  | .exiting stage => S.exitRound pid stage

/-- Whether the timer can interrupt at a frame. -/
def interruptible : Frame → Bool
  | .user | .exiting _ => true
  | _ => false

def step (S : Machine) (e : Event) : Option Machine :=
  match S.sched.currentProcess with
  | none =>
      match e with
      | .tick => some (S.onSched Sched.switchContext)
      | _ => none
  | some pid =>
      match e with
      | .tick =>
          if interruptible (S.frames pid) then some (S.onSched Sched.switchContext) else none
      | .call c => if S.frames pid = .user then S.sysCall pid c else none
      | .resume => S.resume pid (S.frames pid)
      | .exit returnValue => if S.frames pid = .user then S.exitProcess pid returnValue else none

def Step (S : Machine) (e : Event) (S' : Machine) : Prop := S.step e = some S'

/-! ## Boot -/

/-- A block of the table after `initProcesses`. -/
def emptyProcess : Process :=
  { name := [], argc := 0, priority := 0, originalPriority := 0, foreground := 0, entryPoint := 0,
    state := EXITED, waitReturnValue := 0, waitPid := nonPid, fds := (0, 1), agingCounter := 0 }

/-- A slot of the table of semaphores, in use under a name or not. -/
def bootSem (value : Int32) (used : Bool) (waiting : WaitQueue) (name : String) : Sem :=
  { value, used, waiting
    openedBy := fun _ => 0
    name := fun j => (name.toList.map fun c => c.val.toUInt8).getD j 0 }

/-- The semaphores of the keyboard and of `STDIN`, made before any process. -/
def bootSems : SemTable :=
  { sems := fun i => match i with
      | 0 => bootSem 0 true (.queue []) "/stdin_read"
      | 1 => bootSem 2048 true (.queue []) "/stdin_write"
      | 2 => bootSem 0 true (.queue []) "keyboard_input"
      | _ => bootSem 0 false .null ""
    beyond := 0 }

theorem bootSems_waiting : ∀ semId : ℕ,
    (bootSems.sems semId).used = true ∧ (bootSems.sems semId).waiting = .queue [] ∨
      (bootSems.sems semId).used = false ∧ (bootSems.sems semId).waiting = .null
  | 0 | 1 | 2 => .inl ⟨rfl, rfl⟩
  | _ + 3 => .inr ⟨rfl, rfl⟩

theorem bootSems_openedBy (pid : ℤ) : ∀ semId : ℕ, (bootSems.sems semId).openedBy pid = 0
  | 0 | 1 | 2 | _ + 3 => rfl

def stdinStream : Stream :=
  { buffer := fun _ => 0, readPos := 0, writePos := 0, dataAvailable := 0, eof := false,
    readers := 1, writers := 1, readSem := 0, writeSem := 1 }

/-- Before `main` creates the first process; the oracles are what the heap will
answer. -/
def off (nodes blocks : ℕ → Bool) : Machine :=
  { sched :=
      { processes := fun _ => emptyProcess
        priorityQueues := fun _ => []
        currentProcess := none
        quantumsLeft := 0
        isYield := false
        nodes := nodes
        blocks := blocks }
    sems := bootSems
    fileDescriptors := fun fd =>
      if fd = stdin then ⟨true, some 0, .RW⟩
      else if fd = stdout ∨ fd = stderr then ⟨true, none, .W⟩
      else ⟨false, none, .R⟩
    streams := fun id => if id = 0 then some stdinStream else none
    nextStream := 1
    frames := fun _ => .user
    trace := [.semCreated 2 0, .semCreated 1 2048, .semCreated 0 0] }

def initParams : CreationParameters :=
  { name := some [105, 110, 105, 116], argc := 0, priority := minPriority, entryPoint := 1,
    foreground := 0, fds := (0, 1) }

def shellParams : CreationParameters :=
  { name := some [115, 104, 101, 108, 108], argc := 0, priority := maxPriority, entryPoint := 2,
    foreground := 1, fds := (0, 1) }

/-- A process of priority 3 that is created without arguments. -/
def workerParams : CreationParameters :=
  { name := some [119], argc := 0, priority := 3, entryPoint := 3, foreground := 0, fds := (0, 1) }

def boot (nodes blocks : ℕ → Bool) : Machine :=
  let S := ((off nodes blocks).createProcess (some initParams)).2
  (S.createProcess (some shellParams)).2.onSched Sched.forceSwitchContext

/-- The kernel after boot, on a heap that does not run out. -/
def booted : Machine := boot (fun _ => true) fun _ => true

def nameA : CString := ⟨[97], by simp⟩

/-- The shell opens "a" with value 0, and a worker of higher priority waits on it. -/
def workerWaits : List Event :=
  [.call (.semOpen nameA 0), .call (.createProcess (some workerParams)),
    .call (.changePriority 2 1), .call (.semWait 3)]

/-- The worker sleeps, and the shell has the CPU again. -/
def workerSleeps : List Event := workerWaits ++ [.call .yield]

end Machine

end BareKernel.Kernel
