import BareKernel.Terminal.Console
import Mathlib.Logic.Function.Basic

/-!
# The keyboard

The driver of `keyboard.c`: a ring of characters between the interrupt handler and the
readers, the modifier keys, and what the handler does with a scan code. Operations that
must not be interrupted are kept in a list, each with the interrupt flag it found.
-/

namespace BareKernel

open Loops

def bufferSize : ℕ := 1024

def endOfFile : Int8 := -1

def escapeKey : UInt8 := 0x01

def backspaceKey : UInt8 := 0x0E

def tabulatorKey : UInt8 := 0x0F

def returnKey : UInt8 := 0x1C

def controlKeyL : UInt8 := 0x1D

def dKey : UInt8 := 0x20

def shiftKeyL : UInt8 := 0x2A

def cKey : UInt8 := 0x2E

def shiftKeyR : UInt8 := 0x36

def capsLockKey : UInt8 := 0x3A

def f12Key : UInt8 := 0x58

def showBufferWhileTyping : UInt8 := 1

def awaitReturnKey : UInt8 := 2

def modifyBuffer : UInt8 := 4

/-- From scan codes to characters, without and with shift. -/
def scancodeMap : List (UInt8 × UInt8) :=
  [
    -- 0x00
    (0x00, 0x00), (0x01, 0x01), (0x31, 0x21), (0x32, 0x40),
    (0x33, 0x23), (0x34, 0x24), (0x35, 0x25), (0x36, 0x5E),
    -- 0x08
    (0x37, 0x26), (0x38, 0x2A), (0x39, 0x28), (0x30, 0x29),
    (0x2D, 0x5F), (0x3D, 0x2B), (0x0E, 0x0E), (0x0F, 0x0F),
    -- 0x10
    (0x71, 0x51), (0x77, 0x57), (0x65, 0x45), (0x72, 0x52),
    (0x74, 0x54), (0x79, 0x59), (0x75, 0x55), (0x69, 0x49),
    -- 0x18
    (0x6F, 0x4F), (0x70, 0x50), (0x5B, 0x7B), (0x5D, 0x7D),
    (0x1C, 0x1C), (0x1D, 0x1D), (0x61, 0x41), (0x73, 0x53),
    -- 0x20
    (0x64, 0x44), (0x66, 0x46), (0x67, 0x47), (0x68, 0x48),
    (0x6A, 0x4A), (0x6B, 0x4B), (0x6C, 0x4C), (0x3B, 0x3A),
    -- 0x28
    (0x27, 0x22), (0x60, 0x7E), (0x2A, 0x2A), (0x5C, 0x7C),
    (0x7A, 0x5A), (0x78, 0x58), (0x63, 0x43), (0x76, 0x56),
    -- 0x30
    (0x62, 0x42), (0x6E, 0x4E), (0x6D, 0x4D), (0x2C, 0x3C),
    (0x2E, 0x3E), (0x2F, 0x3F), (0x36, 0x36), (0x2A, 0x2A),
    -- 0x38
    (0x38, 0xB8), (0x20, 0x20), (0x3A, 0x3A), (0x3B, 0x3B),
    (0x3C, 0x3C), (0x3D, 0x3D), (0x3E, 0x3E), (0x3F, 0x3F),
    -- 0x40
    (0x40, 0x40), (0x41, 0x41), (0x42, 0x42), (0x43, 0x43),
    (0x44, 0x44), (0x45, 0x45), (0x46, 0x46), (0x47, 0x37),
    -- 0x48
    (0x48, 0x38), (0x49, 0x39), (0x2D, 0x2D), (0x4B, 0x34),
    (0x4C, 0x35), (0x4D, 0x36), (0x2B, 0x2B), (0x4F, 0x31),
    -- 0x50
    (0x50, 0x32), (0x51, 0x33), (0x52, 0x30), (0x53, 0x2E),
    (0x00, 0x00), (0x00, 0x00), (0x2D, 0x2D), (0x57, 0x57),
    -- 0x58
    (0x58, 0x58)]

def isKeycode (c : UInt8) : Bool := escapeKey ≤ c && c ≤ f12Key

def isPrintable (shift : Bool) (c : UInt8) : Bool :=
  isKeycode c && ((0x02 ≤ c && c ≤ 0x0D) || (0x0F ≤ c && c ≤ 0x1C) || (0x1E ≤ c && c ≤ 0x29) ||
    (0x2B ≤ c && c ≤ 0x35) || c == 0x37 || c == 0x39 || (shift && 0x47 ≤ c && c ≤ 0x53) ||
    (c == 0x4A || c == 0x4E) || c == 0x56)

/-- The character of a key, as `int8_t`. -/
def keyChar (shift : Bool) (scancode : UInt8) : Int8 :=
  let row := scancodeMap.getD scancode.toNat (0, 0)
  (if shift then row.2 else row.1).toInt8

def toUpper (c : Int8) : Int8 := if 97 ≤ c && c ≤ 122 then c - 97 + 65 else c

def isPressed (scancode : UInt8) : Bool := scancode &&& 0x80 == 0

def makeCode (scancode : UInt8) : UInt8 := scancode &&& 0x7F

def incMod (x m : ℕ) : ℕ := (x + 1) % m

def subMod (a b m : ℕ) : ℕ := if a < b then m - b + a else a - b

/-- What is done to the ring. -/
inductive RingOp : Type where
  | push (ascii : Int8)
  | popBack
  | popFront
  | reset
deriving DecidableEq, Repr

/-- What must not be interrupted half-way. -/
inductive Critical : Type where
  | ring (op : RingOp)
  | semPost
  | semWait
  | kill (pid : ℤ)
  | allocMemory
  | freeMemory
  | queue
  | dequeue
  | removeFromQueue
deriving DecidableEq, Repr

/-- The process that Ctrl+C ends, and whether it is the one that runs. -/
structure Foreground where
  pid : ℤ
  running : Bool
deriving DecidableEq, Repr

/-- The static variables of `keyboard.c` after `initKeyboard`, with the value of its
semaphore, and the console it echoes on. -/
structure Terminal where
  console : Console
  shiftKeyPressed : Bool
  capsLockKeyPressed : Bool
  controlKeyPressed : Bool
  buffer : ℕ → Int8
  toWrite : ℕ
  toRead : ℕ
  keyboardOptions : UInt8
  keyboardSemaphore : ℕ
  keyFnMap : ℕ → Option ℕ
  called : List (ℕ × UInt8)
  critical : List (Critical × Bool)

/-- The column is no multiple of the tabulator, as the driver computes it. -/
def Console.betweenStops (s : Console) : Bool :=
  (s.xBufferPosition % 2 ^ 16).toNat % (tabSize * glyphSizeX * s.fontSize) ≠ 0

namespace Terminal

def initial : Terminal where
  console := Console.initial
  shiftKeyPressed := false
  capsLockKeyPressed := false
  controlKeyPressed := false
  buffer := fun _ => 0
  toWrite := 0
  toRead := 0
  keyboardOptions := 0
  keyboardSemaphore := 0
  keyFnMap := fun _ => none
  called := []
  critical := []

variable (V : VideoMode) (fuel : ℕ) (t : Terminal)

/-- `BUFFER_IS_FULL`, with the remainder of C on the difference of the indices. -/
def bufferIsFull : Bool :=
  Int.tmod ((t.toWrite : ℤ) - t.toRead) (bufferSize : ℕ) = (bufferSize : ℕ) - 1

/-- The character before the place of the next one. -/
def lastChar : Int8 := t.buffer (subMod t.toWrite 1 bufferSize)

def log (op : Critical) : Terminal :=
  { t with critical := (op, t.console.interrupts) :: t.critical }

def semPost : Terminal :=
  { t.log .semPost with keyboardSemaphore := t.keyboardSemaphore + 1 }

/-- `DEC_MOD(to_write, BUFFER_SIZE)` and the character taken off the screen. -/
def dropLast : Terminal :=
  { t.log (.ring .popBack) with
    toWrite := subMod t.toWrite 1 bufferSize
    console := t.console.clearPreviousCharacter V }

def putChar (ascii : Int8) : Outcome Terminal :=
  (t.console.putChar V fuel ascii).map fun c => { t with console := c }

/-- `addCharToBuffer` of a character that is no tabulator. -/
def pushChar (ascii : Int8) (showOutput : Bool) : Outcome Terminal :=
  let t : Terminal := { t.log (.ring (.push ascii)) with
    buffer := Function.update t.buffer t.toWrite ascii
    toWrite := incMod t.toWrite bufferSize }
  if showOutput then putChar V fuel t ascii else .done t

/-- A tabulator becomes blanks, until the next stop or until the ring is full. -/
def addCharToBuffer (ascii : Int8) (showOutput : Bool) : Outcome Terminal :=
  if ascii ≠ tabulatorChar then pushChar V fuel t ascii showOutput
  else
    doWhile (fun t => pushChar V fuel t blankChar showOutput)
      (fun t => !t.bufferIsFull && t.console.betweenStops) fuel t

/-- Takes the last character off, and tells how many there were. -/
def clearBuffer : ℕ × Terminal :=
  let aux := subMod t.toWrite t.toRead bufferSize
  if aux = 0 then (0, t) else (aux, t.dropLast V)

/-- `while (clearBuffer() != 0)`. -/
def clearInput : Outcome Terminal :=
  (doWhile (fun p : ℕ × Terminal => .done (p.2.clearBuffer V)) (fun p => decide (p.1 ≠ 0)) fuel
    (0, t)).map Prod.snd

/-- What `printToFd` does with one character. -/
def printChar (intoRing : Bool) (ascii : Int8) (t : Terminal) : Outcome Terminal :=
  if intoRing then addCharToBuffer V fuel t ascii true else putChar V fuel t ascii

/-- Output goes to the screen in the colours of the descriptor, unless it is for `STDIN`:
then it goes into the ring. -/
def printToFd (fd : ℤ) (string : List Int8) : Outcome Terminal :=
  forEach (printChar V fuel (fd ≠ t.console.fileDescriptor ∧ fd = 0)) string
    { t with console := t.console.selectFd fd }

/-- Killing the process that runs does not come back. -/
def handleCtrlC (fg : Option Foreground) : Outcome Terminal :=
  match fg with
  | none => .done t
  | some p =>
      (printToFd V fuel t 1 [94, 67, newLineChar]).andThen fun t =>
        if p.running then .done (t.log (.kill p.pid))
        else clearInput V fuel (t.log (.kill p.pid))

def handleCtrlD : Outcome Terminal :=
  if t.toWrite = t.toRead then
    (addCharToBuffer V fuel t endOfFile false).andThen fun t => .done t.semPost
  else
    (addCharToBuffer V fuel t newLineChar true).andThen fun t =>
      (addCharToBuffer V fuel t endOfFile false).andThen fun t => .done t.semPost.semPost

def setModifiers (scancode : UInt8) : Terminal :=
  if makeCode scancode = shiftKeyL ∨ makeCode scancode = shiftKeyR then
    { t with shiftKeyPressed := isPressed scancode }
  else if makeCode scancode = controlKeyL then { t with controlKeyPressed := isPressed scancode }
  else if makeCode scancode = capsLockKey ∧ isPressed scancode then
    { t with capsLockKeyPressed := !t.capsLockKeyPressed }
  else t

/-- The function that was registered for the key, if any, is called. -/
def callKeyFn (scancode : UInt8) : Terminal :=
  match t.keyFnMap (scancode.toNat - escapeKey.toNat) with
  | some fn => { t with called := (fn, scancode) :: t.called }
  | none => t

/-- The character of a key, with the modifiers as they are. -/
def keyed (scancode : UInt8) : Int8 :=
  let c := keyChar t.shiftKeyPressed scancode
  if t.capsLockKeyPressed then toUpper c else c

/-- The part of `keyboardHandler` for a reader that is active. -/
def recordKey (scancode : UInt8) : Outcome Terminal :=
  let c := t.keyed scancode
  let showOutput := t.keyboardOptions &&& showBufferWhileTyping != 0
  if isPrintable t.shiftKeyPressed scancode then
    -- a second newline in a row is dropped, and nothing is called for it
    if c = returnKey.toInt8 ∧ t.toWrite ≠ t.toRead ∧ t.lastChar = newLineChar then .done t
    else
      let c := if c = returnKey.toInt8 then newLineChar
        else if c = tabulatorKey.toInt8 then tabulatorChar else c
      (addCharToBuffer V fuel t c showOutput).andThen fun t => .done (t.semPost.callKeyFn scancode)
  else if c = backspaceKey.toInt8 ∧ t.toWrite ≠ t.toRead then
    .done ((t.dropLast V).callKeyFn scancode)
  else .done (t.callKeyFn scancode)

/-- One keyboard interrupt. When the ring is reported full it is emptied, and the key is
looked at no further. -/
def keyboardHandler (fg : Option Foreground) (scancode : UInt8) : Outcome Terminal :=
  if t.bufferIsFull then .done { t.log (.ring .reset) with toRead := 0, toWrite := 0 }
  else
    let t := t.setModifiers scancode
    if t.controlKeyPressed ∧ isPressed scancode ∧ makeCode scancode = cKey then
      handleCtrlC V fuel t fg
    else if t.controlKeyPressed ∧ isPressed scancode ∧ makeCode scancode = dKey then
      handleCtrlD V fuel t
    else if ¬(isPressed scancode ∧ isKeycode scancode) then .done t
    else if t.keyboardOptions &&& modifyBuffer ≠ 0 then recordKey V fuel t scancode
    else .done (t.callKeyFn scancode)

/-! ## Readers -/

/-- `getKeyboardCharacter` sets the options when it is called. -/
def startReading (ops : UInt8) : Terminal := { t with keyboardOptions := ops ||| modifyBuffer }

/-- The condition of its loop: there is nothing to read yet. -/
def mustWait : Bool :=
  t.toWrite = t.toRead || (t.keyboardOptions &&& awaitReturnKey != 0 &&
    !(t.lastChar == newLineChar || t.lastChar == endOfFile))

/-- What it does after the loop. -/
def takeChar : Int8 × Terminal :=
  (t.buffer t.toRead,
    { t.log (.ring .popFront) with keyboardOptions := 0, toRead := incMod t.toRead bufferSize })

end Terminal

end BareKernel
