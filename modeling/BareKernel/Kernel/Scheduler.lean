import BareKernel.Kernel.Process

/-!
# The scheduler

`Kernel/process/scheduler.c`: five ready queues, one for each priority, aging
of the processes that wait in them, and the context switch. Queues are lists of
PIDs. What the heap answers is not determined here: `nodes` and `blocks` are the
outcomes of the allocations to come, of queue nodes and of everything else.
-/

namespace BareKernel.Kernel

open ProcessState

def defaultQuantum : UInt32 := 3

def agingThreshold : UInt64 := 15

def maxAgingBoost : Int32 := 2

structure Sched where
  processes : ℤ → Process
  priorityQueues : ℤ → List ℤ
  currentProcess : Option ℤ
  quantumsLeft : UInt32
  isYield : Bool
  nodes : ℕ → Bool
  blocks : ℕ → Bool

namespace Sched

def setProcess (s : Sched) (pid : ℤ) (p : Process) : Sched :=
  { s with processes := Function.update s.processes pid p }

def setState (s : Sched) (pid : ℤ) (state : ProcessState) : Sched :=
  s.setProcess pid { s.processes pid with state := state }

def setQueue (s : Sched) (i : ℤ) (q : List ℤ) : Sched :=
  { s with priorityQueues := Function.update s.priorityQueues i q }

/-- The outcome of the next allocation of a queue node is used up. -/
def dropNode (s : Sched) : Sched := { s with nodes := fun n => s.nodes (n + 1) }

/-- The outcome of the next allocation of anything else is used up. -/
def dropBlock (s : Sched) : Sched := { s with blocks := fun n => s.blocks (n + 1) }

/-- `queue`: without a node the element is dropped silently. -/
def append (s : Sched) (q : List ℤ) (pid : ℤ) : List ℤ := if s.nodes 0 then q ++ [pid] else q

/-! ## The ready queues -/

/-- The index of the queue of a priority: priority 1 goes to index 0. -/
def queueIndex (p : Process) : ℤ := (p.priority.toNat : ℤ) - 1

def enqueue (s : Sched) (pid : ℤ) : Sched :=
  let i := queueIndex (s.processes pid)
  (s.setQueue i (s.append (s.priorityQueues i) pid)).dropNode

def schedule (s : Sched) (pid : ℤ) : Sched :=
  if checkPriority (s.processes pid).priority then s.enqueue pid else s

/-- The first element of the first queue in the list that is not empty. -/
def unscheduleFrom (s : Sched) : List ℤ → Option (ℤ × Sched)
  | [] => none
  | i :: is =>
      match s.priorityQueues i with
      | [] => unscheduleFrom s is
      | pid :: rest => some (pid, s.setQueue i rest)

def unschedule (s : Sched) : Option (ℤ × Sched) := s.unscheduleFrom [4, 3, 2, 1, 0]

/-- Remove a process from all priority queues, the first entry of each. -/
def unscheduleProcess (s : Sched) (pid : ℤ) : Sched :=
  { s with priorityQueues := fun i =>
      if i ∈ [0, 1, 2, 3, 4] then (s.priorityQueues i).erase pid else s.priorityQueues i }

/-! ## Aging -/

def age (p : Process) : Process :=
  let p := { p with agingCounter := p.agingCounter + 1 }
  if p.agingCounter ≥ agingThreshold ∧ p.priority < maxPriority then
    -- `int boostLevel`: the quotient is cut down to 32 bits
    let boostLevel := (p.agingCounter / agingThreshold).toUInt32.toInt32
    let boostLevel := if boostLevel > maxAgingBoost then maxAgingBoost else boostLevel
    let boostedPriority := p.originalPriority + boostLevel.toUInt32
    { p with priority := if boostedPriority > maxPriority then maxPriority else boostedPriority }
  else p

/-- The elements of a queue, aged, into the temporary queue. -/
def fillTemp : List ℤ → Sched → List ℤ → Sched × List ℤ
  | [], s, tempQueue => (s, tempQueue)
  | pid :: rest, s, tempQueue =>
      let s := if pid = 1 ∨ pid = 2 then s else s.setProcess pid (age (s.processes pid))
      fillTemp rest s.dropNode (s.append tempQueue pid)

/-- Re-queue the elements of the temporary queue. -/
def requeue (tempQueue : List ℤ) (s : Sched) : Sched := tempQueue.foldl enqueue s

def ageQueue (s : Sched) (i : ℤ) : Sched :=
  if s.priorityQueues i = [] then s
  -- no temporary queue: this queue is skipped
  else if ¬s.blocks 0 then s.dropBlock
  else
    let (s', tempQueue) := fillTemp (s.priorityQueues i) (s.dropBlock.setQueue i []) []
    requeue tempQueue s'

def applyAging (s : Sched) : Sched := [0, 1, 2, 3, 4].foldl ageQueue s

/-! ## The context switch -/

/-- The number of entries in the queues bounds the search for a process. -/
def queuedCount (s : Sched) : ℕ := ([0, 1, 2, 3, 4].map fun i => (s.priorityQueues i).length).sum

/-- Take entries off the queues until one is neither blocked nor exited. -/
def nextProcess : ℕ → Sched → Sched
  | 0, s => { s with currentProcess := none }
  | fuel + 1, s =>
      match s.unschedule with
      | none => { s with currentProcess := none }
      | some (pid, s) =>
          if (s.processes pid).state = BLOCKED ∨ (s.processes pid).state = EXITED then
            nextProcess fuel s
          else { s with currentProcess := some pid }

/-- The process that was chosen starts to run. -/
def dispatch (s : Sched) (pid : ℤ) : Sched :=
  { s.setProcess pid { s.processes pid with state := RUNNING, agingCounter := 0 } with
    currentProcess := some pid
    quantumsLeft := defaultQuantum }

/-- The process that runs gives up the CPU. -/
def park (s : Sched) (c : ℤ) : Sched :=
  match (s.processes c).state with
  | RUNNING =>
      let p := s.processes c
      (s.setProcess c { p with state := READY, priority := p.originalPriority }).schedule c
  | BLOCKED | EXITED => { s with quantumsLeft := 0 }
  | READY => s

def switchContext (s : Sched) : Sched :=
  match s.currentProcess with
  | none =>
      match s.unschedule with
      | none => s
      | some (pid, s) => s.dispatch pid
  | some c =>
      if (s.processes c).state = RUNNING ∧ s.quantumsLeft > 0 ∧ ¬s.isYield then
        { s with quantumsLeft := s.quantumsLeft - 1 }
      else
        let s := (s.park c).applyAging
        let s := nextProcess (s.queuedCount + 1) s
        match s.currentProcess with
        | none => s
        | some pid => { s.dispatch pid with isYield := false }

/-! ## Blocking -/

def getProcess (s : Sched) (pid : ℤ) : Option ℤ :=
  if 0 < pid ∧ pid ≤ maxPid ∧ (s.processes pid).state ≠ EXITED then some pid else none

def isValidPID (s : Sched) (pid : ℤ) : Bool :=
  0 < pid ∧ pid ≤ maxPid ∧ (s.processes pid).state ≠ EXITED

/-- `forceSwitchContext` raises the interrupt of the timer. -/
def forceSwitchContext (s : Sched) : Sched := s.switchContext

def yield (s : Sched) : Sched := { s with isYield := true }.forceSwitchContext

/-- The result and the state; only the current process is switched away from. -/
def blockProcess (s : Sched) (pid : ℤ) : Int32 × Sched :=
  match s.getProcess pid with
  | none => (1, s)
  | some pid =>
      let s := s.setState pid BLOCKED
      if s.currentProcess = some pid then (1, s.yield) else (0, s)

def unblockProcess (s : Sched) (pid : ℤ) : Int32 × Sched :=
  match s.getProcess pid with
  | none => (-1, s)
  | some pid =>
      if (s.processes pid).state ≠ BLOCKED then (-1, s)
      else (0, (s.setState pid READY).schedule pid)

end Sched

end BareKernel.Kernel
