import BareKernel.Kernel.State

/-!
# Semaphores

The operations of `Kernel/semaphoreManager.c` that move processes. A result
`none` is undefined behaviour: a queue that was freed, a slot outside the
table. The spinlock of a slot is left out, since it is free whenever a call
takes it.
-/

namespace BareKernel.Kernel

namespace Machine

/-- `unblockProcess` for every element that is taken off a waiting queue. -/
def wakeAll (S : Machine) (pids : List ℤ) : Machine :=
  S.onSched fun s => pids.foldl (fun s pid => (s.unblockProcess pid).2) s

/-- `pid` is the caller. -/
def semCreate (S : Machine) (pid : ℤ) (name : CString) (value : Int32) : ℤ × Machine :=
  let waiting := if S.sched.blocks 0 then .queue [] else .null
  match S.sems.semCreate pid name value waiting with
  | (none, _) => (-1, S)
  | (some semId, T) =>
      (semId, { S with sems := T, sched := S.sched.dropBlock }.note (.semCreated semId value))

def semOpen (S : Machine) (pid : ℤ) (name : CString) : ℤ × Machine :=
  match S.sems.semOpen pid name with
  | (none, _) => (-1, S)
  | (some semId, T) => (semId, { S with sems := T })

def semClose (S : Machine) (pid semId : ℤ) : Option (Int32 × Machine) :=
  if semId < 0 then some (-1, S)
  else if semId ≥ maxSems then none
  else
    match S.sems.semClose pid semId.toNat with
    | (false, _) => some (-1, S)
    | (true, T) => some (0, { S with sems := T })

/-- One round of the loop of `semWait`. The caller finds the value zero, queues
itself and blocks, or takes one; the result says whether it took one. -/
def semWaitLoop (S : Machine) (pid : ℤ) (semId : ℕ) (k : AfterWait) : Option (Bool × Machine) :=
  let s := S.sems.sems semId
  if s.value = 0 then
    let block (S : Machine) : Machine :=
      (S.setFrame pid (.semWait semId k)).onSched fun s => (s.blockProcess pid).2
    match s.waiting with
    | .freed => none
    | .null => some (false, block S)
    | .queue q =>
        let S := (S.setSem semId { s with waiting := .queue (S.sched.append q pid) }).onSched
          Sched.dropNode
        some (false, block S)
  else
    some (true, (S.setSem semId { s with value := s.value - 1 }).note (.semWaited pid semId))

/-- A call on a semaphore that is not there returns at once. -/
def semWait (S : Machine) (pid semId : ℤ) (k : AfterWait) : Option (Bool × Machine) :=
  if semId < 0 then some (true, S)
  else if semId ≥ maxSems then none
  else if !(S.sems.sems semId.toNat).used then some (true, S)
  else S.semWaitLoop pid semId.toNat k

def semPost (S : Machine) (semId : ℤ) : Option (Int32 × Machine) :=
  if semId < 0 ∨ semId ≥ maxSems then some (-1, S)
  else
    let s := S.sems.sems semId.toNat
    if !s.used then some (-1, S)
    else
      match s.waiting.elements with
      | none => none
      | some pids =>
          let S := (S.setSem semId.toNat
            { s with value := s.value + 1, waiting := s.waiting.drop pids.length }).note
            (.semPosted S.sched.currentProcess semId.toNat s.value)
          some (0, S.wakeAll pids)

/-- For a negative identifier the code writes in front of the table, which ends the run. -/
def semDestroy (S : Machine) (semId : ℤ) : Option (Int32 × Machine) :=
  if semId < 0 ∨ semId ≥ maxSems then none
  else
    match (S.sems.sems semId.toNat).waiting.elements with
    | none => none
    | some pids =>
        let S := { S with sems := S.sems.release semId.toNat }.note (.semDestroyed semId.toNat)
        some (0, S.wakeAll pids)

def semSetValue (S : Machine) (semId : ℤ) (newValue : Int32) : Option (Int32 × Machine) :=
  if semId < 0 ∨ semId ≥ maxSems ∨ newValue < 0 then some (-1, S)
  else
    let s := S.sems.sems semId.toNat
    if !s.used then some (-1, S)
    else if newValue > s.value then
      match s.waiting.elements with
      | none => none
      | some pids =>
          let available := (newValue - s.value).toInt.toNat
          let S := (S.setSem semId.toNat
            { s with value := newValue, waiting := s.waiting.drop available }).note
            (.semSet semId.toNat newValue)
          some (0, S.wakeAll (pids.take available))
    else
      some (0, (S.setSem semId.toNat { s with value := newValue }).note
        (.semSet semId.toNat newValue))

end Machine

end BareKernel.Kernel
