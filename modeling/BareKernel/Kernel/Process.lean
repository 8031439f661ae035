import Mathlib.Algebra.Order.Ring.Int
import Mathlib.Logic.Function.Basic
import Mathlib.Tactic.Common

/-!
# Process control blocks

The table `processes` of `Kernel/process/process.c`. The block at index `i` has
PID `i + 1` for ever, so a pointer to a block is written as its PID. PIDs are
the `long`s that the system calls receive.
-/

namespace BareKernel.Kernel

/-- `MAX_PID`, which is `MAX_PROCESSES`. -/
def maxPid : ℤ := 100

def initPid : ℤ := 1

def shellPid : ℤ := 2

/-- `NONPID`, in the field `waitPid` of a process nobody waits for. -/
def nonPid : ℤ := -1

def minPriority : UInt32 := 1

def maxPriority : UInt32 := 5

/-- `MAX_NAME_LENGTH` of a process. -/
def maxNameLength : ℕ := 20

inductive ProcessState : Type where
  | READY
  | RUNNING
  | BLOCKED
  | EXITED
deriving DecidableEq, Repr

open ProcessState

structure Process where
  name : List UInt8
  argc : Int32
  priority : UInt32
  originalPriority : UInt32
  foreground : Int32
  entryPoint : ℕ
  state : ProcessState
  waitReturnValue : Int32
  waitPid : ℤ
  fds : ℤ × ℤ
  agingCounter : UInt64
deriving DecidableEq, Repr

/-- `creationParameters`: a name or a null pointer, and for each argument only
that it is there, since its characters are copied and never looked at. -/
structure CreationParameters where
  name : Option (List UInt8)
  argc : Int32
  priority : UInt32
  entryPoint : ℕ
  foreground : Int32
  fds : ℤ × ℤ

def checkPriority (priority : UInt32) : Bool := priority ≥ minPriority ∧ priority ≤ maxPriority

def checkName : Option (List UInt8) → Bool
  | none => false
  | some name => name.length ≤ maxNameLength

/-- The slots of the table, in the order of its index. -/
def pids : List ℤ := (List.range 100).map fun i : ℕ => (i : ℤ) + 1

theorem mem_pids {pid : ℤ} : pid ∈ pids ↔ 0 < pid ∧ pid ≤ maxPid := by
  simp only [pids, maxPid, List.mem_map, List.mem_range]
  constructor
  · rintro ⟨i, hi, rfl⟩
    omega
  · rintro ⟨hpos, hle⟩
    exact ⟨(pid - 1).toNat, by omega, by omega⟩

end BareKernel.Kernel
