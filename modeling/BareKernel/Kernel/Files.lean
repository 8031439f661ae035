import BareKernel.Kernel.Semaphores

/-!
# File descriptors and pipes

The functions of `Kernel/fds.c`. A round of the loop of `readFromFD` or
`writeToFD` is one step of the caller; rounds follow each other without an
interrupt until `semWait` blocks. The keyboard behind `STDIN` and the screen are
left out.
-/

namespace BareKernel.Kernel

/-- The loop of `itoa`, with enough rounds for an `int`. -/
def itoaDigits : ℕ → ℕ → List UInt8 → List UInt8
  | 0, _, digits => digits
  | fuel + 1, value, digits =>
      let digits := UInt8.ofNat (value % 10 + 48) :: digits
      if value / 10 = 0 then digits else itoaDigits fuel (value / 10) digits

theorem itoaDigits_nonzero : ∀ {fuel value : ℕ} {digits : List UInt8},
    (∀ b ∈ digits, b ≠ 0) → ∀ b ∈ itoaDigits fuel value digits, b ≠ 0
  | 0, _, _, h => h
  | fuel + 1, value, digits, h => by
      have hdigit : UInt8.ofNat (value % 10 + 48) ≠ 0 := by
        intro h0
        have := congrArg UInt8.toNat h0
        simp only [UInt8.toNat_ofNat'] at this
        change (value % 10 + 48) % 256 = 0 at this
        omega
      have hcons : ∀ b ∈ UInt8.ofNat (value % 10 + 48) :: digits, b ≠ 0 := by
        intro b hb
        rcases List.mem_cons.mp hb with rfl | hb
        · exact hdigit
        · exact h b hb
      unfold itoaDigits
      dsimp only
      split
      · exact hcons
      · exact itoaDigits_nonzero hcons

def itoa (value : ℕ) : CString := ⟨itoaDigits 20 value [], itoaDigits_nonzero (by simp)⟩

namespace Stream

/-- One byte is read off the ring. -/
def advance (st : Stream) : Stream :=
  { st with
    readPos := (st.readPos + 1) % bufferSize
    dataAvailable := st.dataAvailable - 1 }

/-- One byte is written to the ring. -/
def put (st : Stream) (byte : UInt8) : Stream :=
  { st with
    buffer := Function.update st.buffer st.writePos byte
    writePos := (st.writePos + 1) % bufferSize
    dataAvailable := st.dataAvailable + 1 }

/-- The end that a descriptor stands for is gone. -/
def dropEnd (st : Stream) : FdMode → Stream
  | .R => { st with readers := st.readers - 1 }
  | .W => { st with writers := st.writers - 1 }
  | .RW => st

end Stream

namespace Machine

/-! ## Reading and writing -/

/-- The byte that `readFromFD` takes when `semWait` returned, or its end. -/
def takeByte (S : Machine) (pid : ℤ) (r : Reader) : Option Machine := do
  let st ← S.streams r.stream
  if !st.eof ∨ (r.fd ≠ stdin ∧ (st.writers ≠ 0 ∨ st.dataAvailable > 0)) then
    let lastRead := st.buffer st.readPos
    let S := (S.setStream r.stream st.advance).note (.took r.stream lastRead)
    let r := { r with sizeRead := r.sizeRead + 1 }
    let (_, S) ← S.semPost st.writeSem
    if lastRead = 10 then
      some ((S.setFrame pid .user).note (.readReturned pid r.stream r.count r.sizeRead true))
    else some (S.setFrame pid (.reading r))
  else
    some (((S.setStream r.stream { st with eof := true }).setFrame pid .user).note
      (.readReturned pid r.stream r.count r.sizeRead false))

/-- The byte that `writeToFD` stores when `semWait` returned. -/
def storeByte (S : Machine) (pid : ℤ) (w : Writer) : Option Machine := do
  let st ← S.streams w.stream
  let byte ← w.buf[w.written]?
  let S := (S.setStream w.stream (st.put byte)).note (.stored w.stream byte)
  let (_, S) ← S.semPost st.readSem
  some (S.setFrame pid (.writing { w with written := w.written + 1 }))

/-- The end of `readFromFDAt`: the position is advanced if it is still the one
that was read. -/
def finishReadAt (S : Machine) (pid : ℤ) (stream pos : ℕ) : Option Machine := do
  let st ← S.streams stream
  let st := if pos = st.readPos ∧ st.dataAvailable > 0 then st.advance else st
  some ((S.setStream stream st).setFrame pid .user)

/-- What the caller does when its `semWait` has returned. -/
def afterWait (S : Machine) (pid : ℤ) : AfterWait → Option Machine
  | .done => some (S.setFrame pid .user)
  | .take r => S.takeByte pid r
  | .store w => S.storeByte pid w
  | .readAt stream pos => S.finishReadAt pid stream pos

/-- `semWait` and what follows it. -/
def waitThen (S : Machine) (pid semId : ℤ) (k : AfterWait) : Option Machine := do
  let (returned, S) ← S.semWait pid semId k
  if returned then S.afterWait pid k else some S

/-- At the end of the stream a reader gives itself a token. -/
def eofToken (S : Machine) (st : Stream) : Option Machine :=
  if st.eof then Prod.snd <$> S.semPost st.readSem else some S

/-- A round of the loop of `readFromFD`. -/
def readRound (S : Machine) (pid : ℤ) (r : Reader) : Option Machine :=
  if r.sizeRead < r.count then do
    let st ← S.streams r.stream
    let S ← S.eofToken st
    S.waitThen pid st.readSem (.take r)
  else
    some ((S.setFrame pid .user).note
      (.readReturned pid r.stream r.count r.sizeRead false))

/-- A round of the loop of `writeToFD`. -/
def writeRound (S : Machine) (pid : ℤ) (w : Writer) : Option Machine :=
  if w.written < w.buf.length then do
    let st ← S.streams w.stream
    S.waitThen pid st.writeSem (.store w)
  else some (S.setFrame pid .user)

/-- `fileDescriptors[fd].resource`, which has to be a stream. -/
def resource (S : Machine) (fd : ℤ) : Option ℕ :=
  if 0 ≤ fd ∧ fd < maxFds then (S.fileDescriptors fd).resource else none

/-- Neither the mode nor `isOpen` is checked. In the background `STDIN` only
gives a message. -/
def readFromFD (S : Machine) (pid fd count : ℤ) : Option Machine :=
  if fd = stdin then
    if (S.sched.processes pid).foreground = 0 then some S else none
  -- a null pointer that nothing is read through
  else if (0 ≤ fd ∧ fd < maxFds) ∧ (S.fileDescriptors fd).resource = none ∧ count ≤ 0 then some S
  else do
    let stream ← S.resource fd
    some (S.setFrame pid (.reading { fd, stream, count, sizeRead := 0 }))

def writeToFD (S : Machine) (pid fd : ℤ) (buf : List UInt8) : Option Machine :=
  if fd = stdout ∨ fd = stderr then some S
  else do
    let stream ← S.resource fd
    let st ← S.streams stream
    some ((S.setStream stream { st with eof := false }).setFrame pid
      (.writing { stream, buf, written := 0 }))

/-- `sys_read_at_current_pos`: `readFromFDAt` at the position of `getReadPos`. -/
def readFromFDAt (S : Machine) (pid fd : ℤ) : Option Machine :=
  let d := S.fileDescriptors fd
  if fd < 0 ∨ fd ≥ maxFds ∨ fd = stdout ∨ fd = stderr ∨ !d.isOpen ∨ d.mode = .W then some S
  else do
    let stream ← d.resource
    let st ← S.streams stream
    if st.dataAvailable > 0 ∧ st.buffer st.readPos ≠ 0 then
      S.waitThen pid st.readSem (.readAt stream st.readPos)
    else S.finishReadAt pid stream st.readPos

/-! ## Pipes -/

def getAvailableFD (S : Machine) : Option ℤ × Machine :=
  let slots := (List.range 1021).map fun i : ℕ => (i : ℤ) + 3
  match slots.find? fun fd => !(S.fileDescriptors fd).isOpen with
  | none => (none, S)
  | some fd => (some fd, S.setOpen fd true)

/-- `fresh` is what the allocator left in the block of the stream. A descriptor
that was found before the second one failed stays open. -/
def createPipe (S : Machine) (pid : ℤ) (fresh : ℕ → UInt8) : Option (Int32 × Machine) :=
  let (fd1, S) := S.getAvailableFD
  let (fd2, S) := S.getAvailableFD
  match fd1, fd2 with
  | some fd1, some fd2 =>
      -- the result of `allocMemory` is not checked
      if !S.sched.blocks 0 then none
      else
        let stream := S.nextStream
        let S := { S with nextStream := stream + 1, sched := S.sched.dropBlock }
        let (readSem, S) := S.semCreate pid (itoa fd1.toNat) 0
        let (writeSem, S) := S.semCreate pid (itoa fd2.toNat) 2048
        let S := S.setStream stream
          { buffer := fresh, readPos := 0, writePos := 0, dataAvailable := 0, eof := false,
            readers := 1, writers := 1, readSem, writeSem }
        let ends : ℤ → FD := Function.update
          (Function.update S.fileDescriptors fd1 ⟨true, some stream, .R⟩) fd2
          ⟨true, some stream, .W⟩
        some (0, { S with fileDescriptors := ends })
  | _, _ => some (-1, S)

/-- `semPost` on one semaphore, again and again. -/
def postTimes : ℕ → Machine → ℤ → Option Machine
  | 0, S, _ => some S
  | n + 1, S, semId => do
      let (_, S) ← S.semPost semId
      postTimes n S semId

/-- Without a writer every reader gets a token, and `eof` is set. -/
def signalEof (S : Machine) (id : ℕ) (st : Stream) : Option Machine :=
  if st.readers > 0 ∧ st.writers ≤ 0 then
    postTimes st.readers.toNat (S.setStream id { st with eof := true }) st.readSem
  else some (S.setStream id st)

/-- Without both ends the stream and its semaphores are freed. -/
def freeStream (S : Machine) (id : ℕ) (st : Stream) : Option Machine :=
  if st.readers = 0 ∧ st.writers = 0 then do
    let (_, S) ← S.semDestroy st.readSem
    let (_, S) ← S.semDestroy st.writeSem
    some { S with streams := Function.update S.streams id none }
  else some S

/-- `closeFD` of an end of a pipe, `st` being the stream without that end. -/
def closeEnd (S : Machine) (fd : ℤ) (id : ℕ) (st : Stream) : Option (Int32 × Machine) := do
  let S ← S.signalEof id st
  let S ← S.freeStream id st
  some (0, S.setOpen fd false)

def closeFD (S : Machine) (fd : ℤ) : Option (Int32 × Machine) :=
  let d := S.fileDescriptors fd
  if fd < 0 ∨ fd = stdout ∨ fd = stderr ∨ fd ≥ maxFds ∨ !d.isOpen then some (-1, S)
  else do
    let id ← d.resource
    let st ← S.streams id
    if fd = stdin then some (0, S.setStream id { st with eof := false })
    else S.closeEnd fd id (st.dropEnd d.mode)

end Machine

end BareKernel.Kernel
