import BareKernel.Kernel.Scheduler
import BareKernel.Kernel.SemaphoreTable

/-!
# The state of the kernel

The scheduler, the semaphores and the file descriptors together, with the point
at which each process left the CPU inside the kernel. System calls run with
interrupts off, so a process that is not in user mode only gives up the CPU at
its own calls of the scheduler. What happened is kept in `trace`, newest first;
the code has no such record and never reads it.
-/

namespace BareKernel.Kernel

/-! ## Streams and file descriptors -/

inductive FdMode : Type where
  | R
  | W
  | RW
deriving DecidableEq, Repr

/-- `BUFFER_SIZE`. -/
def bufferSize : ℕ := 2048

/-- `MAX_FDS`. -/
def maxFds : ℤ := 1024

def stdin : ℤ := 0

def stdout : ℤ := 1

def stderr : ℤ := 2

structure Stream where
  buffer : ℕ → UInt8
  readPos : ℕ
  writePos : ℕ
  dataAvailable : ℤ
  eof : Bool
  readers : ℤ
  writers : ℤ
  readSem : ℤ
  writeSem : ℤ

/-- `resource` is the pointer to the stream, if it is not null. -/
structure FD where
  isOpen : Bool
  resource : Option ℕ
  mode : FdMode

/-! ## Where a process is inside the kernel -/

/-- The variables of a `readFromFD` that runs. -/
structure Reader where
  fd : ℤ
  stream : ℕ
  count : ℤ
  sizeRead : ℤ
deriving DecidableEq, Repr

/-- The variables of a `writeToFD` that runs. -/
structure Writer where
  stream : ℕ
  buf : List UInt8
  written : ℕ
deriving DecidableEq, Repr

/-- What follows when `semWait` returns. -/
inductive AfterWait : Type where
  | done
  | take (r : Reader)
  | store (w : Writer)
  | readAt (stream pos : ℕ)
deriving DecidableEq, Repr

/-- What is left of a `kill` of the process by itself. -/
inductive ExitStage : Type where
  | closeIn
  | closeOut
  | wake
  | leave
deriving DecidableEq, Repr

/-- Where the context of a process stands: in user mode, behind `blockProcess`
in `semWait`, behind the first and the second switch in `waitProcess`, between
two rounds of `readFromFD` and `writeToFD`, or inside the `kill` of itself. -/
inductive Frame : Type where
  | user
  | semWait (semId : ℕ) (k : AfterWait)
  | waitBlock (pid : ℤ) (wstatus : Bool)
  | waitForced (pid : ℤ) (wstatus : Bool)
  | reading (r : Reader)
  | writing (w : Writer)
  | exiting (stage : ExitStage)
deriving DecidableEq, Repr

/-! ## What happened -/

/-- `before` is the value that the post found. -/
inductive Obs : Type where
  | created (pid : ℤ)
  | returned (pid : ℤ) (returnValue : Int32)
  | ended (pid : ℤ)
  | waitCalled (pid pidToWait : ℤ)
  | waitReturned (pid pidToWait : ℤ) (status : Option Int32)
  | semCreated (semId : ℕ) (value : Int32)
  | semWaited (pid : ℤ) (semId : ℕ)
  | semPosted (pid : Option ℤ) (semId : ℕ) (before : Int32)
  | semSet (semId : ℕ) (value : Int32)
  | semDestroyed (semId : ℕ)
  | stored (stream : ℕ) (byte : UInt8)
  | took (stream : ℕ) (byte : UInt8)
  | readReturned (pid : ℤ) (stream : ℕ) (count sizeRead : ℤ) (newline : Bool)
deriving DecidableEq, Repr

/-! ## The state -/

structure Machine where
  sched : Sched
  sems : SemTable
  fileDescriptors : ℤ → FD
  streams : ℕ → Option Stream
  nextStream : ℕ
  frames : ℤ → Frame
  trace : List Obs

namespace Machine

@[simps] def onSched (S : Machine) (f : Sched → Sched) : Machine := { S with sched := f S.sched }

@[simps] def setFrame (S : Machine) (pid : ℤ) (f : Frame) : Machine :=
  { S with frames := Function.update S.frames pid f }

@[simps] def setSem (S : Machine) (semId : ℕ) (s : Sem) : Machine :=
  { S with sems := S.sems.setSem semId s }

@[simps] def setStream (S : Machine) (id : ℕ) (st : Stream) : Machine :=
  { S with streams := Function.update S.streams id (some st) }

/-- `isOpen` of a descriptor. -/
@[simps] def setOpen (S : Machine) (fd : ℤ) (isOpen : Bool) : Machine :=
  let d := { S.fileDescriptors fd with isOpen := isOpen }
  { S with fileDescriptors := Function.update S.fileDescriptors fd d }

@[simps] def note (S : Machine) (o : Obs) : Machine := { S with trace := o :: S.trace }

end Machine

end BareKernel.Kernel
