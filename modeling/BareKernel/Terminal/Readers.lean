import BareKernel.Terminal.ScreenBounds

/-!
# Readers of the keyboard

What `readFromFD` does with `STDIN`: a process in the foreground takes characters out of
the ring and sleeps on the semaphore of the keyboard while there is none, and a process
in the background is refused with a message.
-/

namespace BareKernel

open Loops Runs

/-- What a process in the background is told. -/
def refusal : List Int8 :=
  ['E', 'r', 'r', 'o', 'r', ':', ' ', 'S', 'T', 'D', 'I', 'N', ' ', 'c', 'a', 'n', 'n', 'o', 't',
    ' ', 'b', 'e', ' ', 'r', 'e', 'a', 'd', ' ', 'i', 'n', ' ', 'b', 'a', 'c', 'k', 'g', 'r', 'o',
    'u', 'n', 'd', ' ', 'p', 'r', 'o', 'c', 'e', 's', 's', 'e', 's', '.'].map
      (fun c => Int8.ofNat c.toNat) ++ [newLineChar]

namespace Terminal

variable (V : VideoMode) (fuel : ℕ) (t : Terminal)

/-- `readFromFD(STDIN, ..)` of a process in the background. -/
def readInBackground : Outcome Terminal := printToFd V fuel t 0 refusal

/-- A process that finds no token sleeps, and does not come back before one is posted. -/
def semWait : Outcome Terminal :=
  if t.keyboardSemaphore = 0 then .cut (t.log .semWait)
  else .done { t.log .semWait with keyboardSemaphore := t.keyboardSemaphore - 1 }

/-- The loop of `getKeyboardCharacter`. Every round but the last takes a token. -/
def awaitKey : Outcome Terminal := whileDo mustWait semWait (t.keyboardSemaphore + 1) t

/-- A call of `getKeyboardCharacter` up to where it takes its character, or sleeps. -/
def getKeyboardCharacter (ops : UInt8) : Outcome Terminal := awaitKey (t.startReading ops)

/-- How it goes on after its sleep. -/
def wakeUp : Outcome Terminal := t.semWait.andThen awaitKey

end Terminal

/-- The terminal, the processes that sleep inside `getKeyboardCharacter`, and the
characters it gave to processes in the foreground. -/
structure InputState where
  terminal : Terminal
  asleep : ℕ → Bool
  delivered : List (ℕ × Int8)

/-- A process that `runs` goes on with its call of `getKeyboardCharacter`, or makes the
next one. Where a process `ends`, so does its call. -/
inductive InputEvent : Type where
  | key (fg : Option Foreground) (scancode : UInt8)
  | runs (pid : ℕ) (ops : UInt8)
  | background
  | clearInput
  | screen (c : ScreenCall)
  | ends (pid : ℕ)

namespace InputState

def initial : InputState where
  terminal := Terminal.initial
  asleep := fun _ => false
  delivered := []

/-- A call that took its character, or fell asleep. -/
def reads (S : InputState) (pid : ℕ) : Outcome Terminal → InputState
  | .done t =>
      { terminal := t.takeChar.2
        asleep := Function.update S.asleep pid false
        delivered := S.delivered ++ [(pid, t.takeChar.1)] }
  | .cut t => { S with terminal := t, asleep := Function.update S.asleep pid true }

def step (V : VideoMode) (fuel : ℕ) (S : InputState) : InputEvent → Option InputState
  | .key fg scancode =>
      (S.terminal.keyboardHandler V fuel fg scancode).result.map fun t => { S with terminal := t }
  | .runs pid ops =>
      some (S.reads pid
        (if S.asleep pid then S.terminal.wakeUp else S.terminal.getKeyboardCharacter ops))
  | .background =>
      (S.terminal.readInBackground V fuel).result.map fun t => { S with terminal := t }
  | .clearInput => (S.terminal.clearInput V fuel).result.map fun t => { S with terminal := t }
  | .screen c => (S.terminal.screenCall V fuel c).result.map fun t => { S with terminal := t }
  | .ends pid => some { S with asleep := Function.update S.asleep pid false }

end InputState

end BareKernel
