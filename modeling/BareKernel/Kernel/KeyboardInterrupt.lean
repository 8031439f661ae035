import BareKernel.Kernel.StepActions

/-!
# The interrupt of the keyboard

What `keyboardHandler` asks of the rest of the kernel: posts on the semaphore of the keyboard, one
for a key and two for Ctrl+D behind other keys, and the end of the process in the foreground for
Ctrl+C. It runs in the context of the process that has the CPU, between two of its own steps. A
function that is registered for a key runs there too, and what it calls is a call of that process.
-/

namespace BareKernel.Kernel

open ProcessState Runs

/-- `keyboard_semaphore`, the third semaphore that is made. -/
def keyboardSemaphore : ℤ := 2

inductive Key : Type where
  | posts (n : ℕ)
  | ctrlC
deriving DecidableEq, Repr

/-- What can happen next. -/
inductive Cause : Type where
  | kernel (e : Event)
  | key (k : Key)

namespace Machine

def getTerminalForegroundProcess (S : Machine) : Option ℤ :=
  pids.find? fun pid => (S.sched.processes pid).foreground ≠ 0 ∧
    (S.sched.processes pid).state ≠ EXITED ∧ pid ≠ initPid ∧ pid ≠ shellPid

def handleCtrlC (S : Machine) : Option Machine :=
  match S.getTerminalForegroundProcess with
  | none => some S
  | some pid => Prod.snd <$> S.kill pid

def keyboardHandler (S : Machine) : Key → Option Machine
  | .posts n => postTimes n S keyboardSemaphore
  | .ctrlC => S.handleCtrlC

/-- The interrupt comes in the context of a process that has interrupts on. -/
def react (S : Machine) : Cause → Option Machine
  | .kernel e => S.step e
  | .key k =>
      match S.sched.currentProcess with
      | none => none
      | some pid => if interruptible (S.frames pid) then S.keyboardHandler k else none

def Reacts (S : Machine) (e : Cause) (S' : Machine) : Prop := S.react e = some S'

/-! ## What an interrupt does -/

variable {S S' : Machine} {c : ℤ}

theorem react_key {k : Key} (h : S.Reacts (.key k) S') : ∃ c, S.sched.currentProcess = some c ∧
    interruptible (S.frames c) = true ∧ S.keyboardHandler k = some S' := by
  unfold Reacts react at h
  dsimp only at h
  split at h
  · cases h
  · rename_i pid hc
    split at h
    · rename_i hf
      exact ⟨pid, hc, hf, h⟩
    · cases h

/-- The actions of an interrupt of the keyboard. -/
def pressing : Act → Prop
  | .post _ | .wake _ | .destroy _ | .files | .kill _ | .killWake _ | .switch _ => True
  | _ => False

theorem keyboardHandler_path {k : Key} (hc : S.sched.currentProcess = some c)
    (h : S.keyboardHandler k = some S') : Path pressing S S' := by
  cases k with
  | posts n =>
      have hpath := postTimes_path (P := fun _ => True) (D := fun _ => False)
        (fun _ => trivial) hc h
      exact hpath.mono fun a ha => by cases a <;> simp_all [closing, pressing]
  | ctrlC =>
      unfold keyboardHandler handleCtrlC at h
      dsimp only at h
      split at h
      · rw [← Option.some.inj h]
        exact Path.refl S
      · obtain ⟨⟨r, S₁⟩, hkill, rfl⟩ := Option.map_eq_some_iff.mp h
        exact (kill_path hc hkill).path.mono fun a ha => by
          cases a <;> simp_all [ending, pressing]

theorem react_path {e : Cause} (hbase : S.Base) (h : S.Reacts e S') :
    Path (fun _ => True) S S' := by
  cases e with
  | kernel e => exact (step_path hbase h).mono fun _ _ => trivial
  | key k =>
      obtain ⟨c, hc, -, hkey⟩ := react_key h
      exact (keyboardHandler_path hc hkey).mono fun _ _ => trivial

end Machine

end BareKernel.Kernel
