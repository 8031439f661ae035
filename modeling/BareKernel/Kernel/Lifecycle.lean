import BareKernel.Kernel.Files

/-!
# Creating, waiting for and ending processes

The functions of `Kernel/process/process.c` that change the table of processes.
-/

namespace BareKernel.Kernel

open ProcessState

/-- Allocations that are not of queue nodes, one after another until one fails. -/
def Sched.allocBlocks : ℕ → Sched → Bool × Sched
  | 0, s => (true, s)
  | n + 1, s => if s.blocks 0 then allocBlocks n s.dropBlock else (false, s.dropBlock)

namespace Machine

/-- The slot of the first process that is over. -/
def getFreeProcess (S : Machine) : Option ℤ :=
  pids.find? fun pid => (S.sched.processes pid).state = EXITED

/-- The block of a new process. What the last process in the slot returned is
not cleared. -/
def newProcess (old : Process) (name : List UInt8) (params : CreationParameters) : Process :=
  { old with
    name := name
    argc := params.argc
    priority := params.priority
    originalPriority := params.priority
    agingCounter := 0
    entryPoint := params.entryPoint
    foreground := params.foreground
    waitPid := nonPid
    state := READY
    fds := params.fds }

/-- The number of blocks that a process needs: its stack, and with arguments the
vector of them and each one. -/
def neededBlocks (params : CreationParameters) : ℕ :=
  if params.argc = 0 then 1 else 2 + params.argc.toInt.toNat

def createProcess (S : Machine) (params : Option CreationParameters) : ℤ × Machine :=
  match params with
  | none => (-1, S)
  | some params =>
      match params.name with
      | none => (-1, S)
      | some name =>
          if !checkPriority params.priority ∨ params.argc < 0 ∨ params.entryPoint = 0 ∨
              !checkName params.name then (-1, S)
          else
            match S.sched.allocBlocks (neededBlocks params) with
            | (false, s) => (-1, { S with sched := s })
            | (true, s) =>
                match S.getFreeProcess with
                | none => (-1, { S with sched := s })
                | some pid =>
                    let s := s.setProcess pid (newProcess (s.processes pid) name params)
                    let S := { S with sched := s.schedule pid }
                    (pid, (S.setFrame pid .user).note (.created pid))

/-! ## Ending -/

/-- The first part of `kill`: off the queues, and `EXITED`. -/
def killStart (S : Machine) (pid : ℤ) (stage : ExitStage) : Machine :=
  let s := S.sched.unscheduleProcess pid
  let p := { s.processes pid with state := EXITED, argc := 0 }
  ({ S with sched := s.setProcess pid p }.setFrame pid (.exiting stage)).note (.ended pid)

/-- The last part of `kill`: the process in `waitPid` is woken. -/
def killWake (S : Machine) (pid : ℤ) : Machine :=
  let waitPid := (S.sched.processes pid).waitPid
  if waitPid = nonPid then S
  else
    S.onSched fun s =>
      let s := (s.unblockProcess waitPid).2
      s.setProcess pid { s.processes pid with waitPid := nonPid }

def kill (S : Machine) (pid : ℤ) : Option (Int32 × Machine) :=
  if pid ≤ initPid ∨ pid > maxPid ∨ (S.sched.processes pid).state = EXITED then some (-1, S)
  else do
    let fds := (S.sched.processes pid).fds
    let S := S.killStart pid .leave
    let (_, S) ← S.closeFD fds.1
    let (_, S) ← S.closeFD fds.2
    let S := S.killWake pid
    if S.sched.currentProcess = some pid then some (0, S.onSched Sched.forceSwitchContext)
    else some (0, S)

/-- `processLoader` behind `entry`: it keeps the result and kills the process. It
runs with interrupts on, so the parts of this `kill` are steps of their own. -/
def exitProcess (S : Machine) (pid : ℤ) (returnValue : Int32) : Option Machine :=
  if pid ≤ initPid then none
  else
    let p := { S.sched.processes pid with waitReturnValue := returnValue }
    let S := (S.onSched fun s => s.setProcess pid p).note (.returned pid returnValue)
    some (S.killStart pid .closeIn)

/-- The next part of the `kill` in `processLoader`. -/
def exitRound (S : Machine) (pid : ℤ) : ExitStage → Option Machine
  | .closeIn => do
      let (_, S) ← S.closeFD (S.sched.processes pid).fds.1
      some (S.setFrame pid (.exiting .closeOut))
  | .closeOut => do
      let (_, S) ← S.closeFD (S.sched.processes pid).fds.2
      some (S.setFrame pid (.exiting .wake))
  | .wake => some ((S.killWake pid).setFrame pid (.exiting .leave))
  | .leave => some (S.onSched Sched.forceSwitchContext)

/-! ## Waiting -/

/-- `pid` is the caller, and `wstatus` says whether it gave a pointer. -/
def waitProcess (S : Machine) (pid pidToWait : ℤ) (wstatus : Bool) : Machine :=
  if pidToWait ≤ 0 ∨ pidToWait > maxPid then S
  else
    let p := S.sched.processes pidToWait
    let S := S.note (.waitCalled pid pidToWait)
    if p.state = EXITED then S.note (.waitReturned pid pidToWait (if wstatus then some 0 else none))
    else
      let S := S.onSched fun s => s.setProcess pidToWait { p with waitPid := pid }
      (S.setFrame pid (.waitBlock pidToWait wstatus)).onSched fun s => (s.blockProcess pid).2

/-- Behind both switches of `waitProcess`. -/
def waitRead (S : Machine) (pid pidToWait : ℤ) (wstatus : Bool) : Machine :=
  let status := (S.sched.processes pidToWait).waitReturnValue
  (S.setFrame pid .user).note
    (.waitReturned pid pidToWait (if wstatus then some status else none))

/-! ## Priorities -/

def changeProccessPriority (S : Machine) (pid : ℤ) (priority : UInt32) : Int32 × Machine :=
  if !S.sched.isValidPID pid ∨ !checkPriority priority then (-1, S)
  else
    let p := S.sched.processes pid
    if p.originalPriority = priority then (0, S)
    else
      let p := { p with priority := priority, originalPriority := priority, agingCounter := 0 }
      let S := S.onSched fun s => s.setProcess pid p
      if S.sched.currentProcess = some pid then (0, S.onSched Sched.yield) else (0, S)

end Machine

end BareKernel.Kernel
