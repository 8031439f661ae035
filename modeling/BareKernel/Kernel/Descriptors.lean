import BareKernel.Kernel.StepActions

/-!
# The table of descriptors

What the functions of `Kernel/fds.c` do, case by case, and what a step leaves of
the table: only `createPipe` opens descriptors, only `closeFD` closes them, and
the three standard ones stay as they are.
-/

namespace BareKernel.Kernel

open ProcessState Runs

namespace Machine

variable {S S' S₁ : Machine} {e : Event} {c pid fd count : ℤ} {buf : List UInt8}
  {nodes blocks : ℕ → Bool}

/-! ## What the functions leave of the table -/

/-- The table of descriptors and the streams are as they were. -/
def SameFiles (S S' : Machine) : Prop :=
  S'.fileDescriptors = S.fileDescriptors ∧ S'.streams = S.streams ∧ S'.nextStream = S.nextStream

theorem SameFiles.refl (S : Machine) : SameFiles S S := ⟨rfl, rfl, rfl⟩

theorem SameFiles.trans (h : SameFiles S S₁) (h' : SameFiles S₁ S') : SameFiles S S' :=
  ⟨h'.1.trans h.1, h'.2.1.trans h.2.1, h'.2.2.trans h.2.2⟩

/-- A post does nothing, or it adds one and wakes everybody. -/
theorem semPost_cases {semId : ℤ} {r : Int32} (h : S.semPost semId = some (r, S')) :
    (S' = S ∧ r = -1) ∨ (0 ≤ semId ∧ semId < maxSems ∧ (S.sems.sems semId.toNat).used = true) ∧
      r = 0 ∧ ∃ pids, (S.sems.sems semId.toNat).waiting.elements = some pids ∧
        S' = ((S.setSem semId.toNat { S.sems.sems semId.toNat with
          value := (S.sems.sems semId.toNat).value + 1
          waiting := (S.sems.sems semId.toNat).waiting.drop pids.length }).note
          (.semPosted S.sched.currentProcess semId.toNat (S.sems.sems semId.toNat).value)).wakeAll
            pids := by
  unfold semPost at h
  split at h
  · obtain ⟨rfl, rfl⟩ := Prod.mk.inj (Option.some.inj h)
    exact .inl ⟨rfl, rfl⟩
  · rename_i hrange
    rw [not_or, not_lt, not_le] at hrange
    dsimp only at h
    split at h
    · obtain ⟨rfl, rfl⟩ := Prod.mk.inj (Option.some.inj h)
      exact .inl ⟨rfl, rfl⟩
    · rename_i hused
      split at h
      · exact absurd h (by simp)
      · rename_i pids hq
        obtain ⟨rfl, rfl⟩ := Prod.mk.inj (Option.some.inj h)
        exact .inr ⟨⟨hrange.1, hrange.2, by simpa using hused⟩, rfl, pids, hq, rfl⟩

theorem semPost_files {semId : ℤ} {r : Int32} (h : S.semPost semId = some (r, S')) :
    SameFiles S S' := by
  rcases semPost_cases h with ⟨rfl, -⟩ | ⟨-, -, pids, -, rfl⟩
  · exact SameFiles.refl _
  · exact ⟨rfl, rfl, rfl⟩

theorem semDestroy_cases {semId : ℤ} {r : Int32} (h : S.semDestroy semId = some (r, S')) :
    (0 ≤ semId ∧ semId < maxSems) ∧ ∃ pids,
      (S.sems.sems semId.toNat).waiting.elements = some pids ∧
        S' = (({ S with sems := S.sems.release semId.toNat } : Machine).note
          (.semDestroyed semId.toNat)).wakeAll pids := by
  unfold semDestroy at h
  split at h
  · exact absurd h (by simp)
  · rename_i hrange
    rw [not_or, not_lt, not_le] at hrange
    split at h
    · exact absurd h (by simp)
    · rename_i pids hq
      obtain ⟨rfl, rfl⟩ := Prod.mk.inj (Option.some.inj h)
      exact ⟨hrange, pids, hq, rfl⟩

theorem semDestroy_files {semId : ℤ} {r : Int32} (h : S.semDestroy semId = some (r, S')) :
    SameFiles S S' := by
  obtain ⟨-, pids, -, rfl⟩ := semDestroy_cases h
  exact ⟨rfl, rfl, rfl⟩

/-- Setting the value does nothing, or it changes one semaphore in use. -/
theorem semSetValue_cases {semId : ℤ} {value r : Int32}
    (h : S.semSetValue semId value = some (r, S')) :
    S' = S ∨ (0 ≤ semId ∧ semId < maxSems) ∧ ∃ waiting pids,
      S' = ((S.setSem semId.toNat { S.sems.sems semId.toNat with value, waiting }).note
        (.semSet semId.toNat value)).wakeAll pids := by
  unfold semSetValue at h
  split at h
  · obtain ⟨-, rfl⟩ := Prod.mk.inj (Option.some.inj h)
    exact .inl rfl
  · rename_i hrange
    rw [← or_assoc, not_or, not_or, not_lt, not_le] at hrange
    dsimp only at h
    split at h
    · obtain ⟨-, rfl⟩ := Prod.mk.inj (Option.some.inj h)
      exact .inl rfl
    · right
      split at h
      · split at h
        · exact absurd h (by simp)
        · obtain ⟨-, rfl⟩ := Prod.mk.inj (Option.some.inj h)
          exact ⟨hrange.1, _, _, rfl⟩
      · obtain ⟨-, rfl⟩ := Prod.mk.inj (Option.some.inj h)
        exact ⟨hrange.1, (S.sems.sems semId.toNat).waiting, [], rfl⟩

theorem semSetValue_files {semId : ℤ} {value r : Int32}
    (h : S.semSetValue semId value = some (r, S')) : SameFiles S S' := by
  rcases semSetValue_cases h with rfl | ⟨-, _, pids, rfl⟩
  · exact SameFiles.refl _
  · exact ⟨rfl, rfl, rfl⟩

theorem fallAsleep_files (S : Machine) (pid : ℤ) (semId : ℕ) (k : AfterWait) :
    SameFiles S (S.fallAsleep pid semId k) := by
  unfold fallAsleep enlist
  split
  · exact ⟨rfl, rfl, rfl⟩
  · exact ⟨rfl, rfl, rfl⟩

theorem semWaitLoop_files {semId : ℕ} {k : AfterWait} {taken : Bool}
    (h : S.semWaitLoop pid semId k = some (taken, S')) : SameFiles S S' := by
  rcases semWaitLoop_cases h with ⟨-, -, -, rfl⟩ | ⟨-, -, rfl⟩
  · exact fallAsleep_files S pid semId k
  · exact ⟨rfl, rfl, rfl⟩

/-- `semWait` either returns at once, or it is its loop. -/
theorem semWait_cases {semId : ℤ} {k : AfterWait} {returned : Bool}
    (h : S.semWait pid semId k = some (returned, S')) :
    (returned = true ∧ S' = S) ∨ (0 ≤ semId ∧ semId < maxSems ∧
      (S.sems.sems semId.toNat).used = true ∧
        S.semWaitLoop pid semId.toNat k = some (returned, S')) := by
  unfold semWait at h
  split at h
  · obtain ⟨rfl, rfl⟩ := Prod.mk.inj (Option.some.inj h)
    exact .inl ⟨rfl, rfl⟩
  · rename_i hneg
    split at h
    · exact absurd h (by simp)
    · rename_i hlt
      split at h
      · obtain ⟨rfl, rfl⟩ := Prod.mk.inj (Option.some.inj h)
        exact .inl ⟨rfl, rfl⟩
      · rename_i hused
        exact .inr ⟨not_lt.mp hneg, not_le.mp hlt, by simpa using hused, h⟩

theorem semWait_files {semId : ℤ} {k : AfterWait} {returned : Bool}
    (h : S.semWait pid semId k = some (returned, S')) : SameFiles S S' := by
  rcases semWait_cases h with ⟨-, rfl⟩ | ⟨-, -, -, hloop⟩
  · exact SameFiles.refl _
  · exact semWaitLoop_files hloop

/-! ## Reading and writing -/

/-- `readFromFD` takes a byte and goes on, or it returns. -/
theorem takeByte_cases {r : Reader} (h : S.takeByte pid r = some S') : ∃ st,
    S.streams r.stream = some st ∧
      ((!st.eof ∨ (r.fd ≠ stdin ∧ (st.writers ≠ 0 ∨ st.dataAvailable > 0))) ∧ (∃ r₁ S₁,
        ((S.setStream r.stream st.advance).note
          (.took r.stream (st.buffer st.readPos))).semPost st.writeSem = some (r₁, S₁) ∧
        S' = if st.buffer st.readPos = 10 then
            (S₁.setFrame pid .user).note
              (.readReturned pid r.stream r.count (r.sizeRead + 1) true)
          else S₁.setFrame pid (.reading { r with sizeRead := r.sizeRead + 1 })) ∨
      (st.eof ∧ (r.fd = stdin ∨ st.writers = 0 ∧ st.dataAvailable ≤ 0)) ∧
        S' = ((S.setStream r.stream { st with eof := true }).setFrame pid .user).note
          (.readReturned pid r.stream r.count r.sizeRead false)) := by
  simp only [takeByte, Option.bind_eq_bind, Option.bind_eq_some_iff] at h
  obtain ⟨st, hst, h⟩ := h
  refine ⟨st, hst, ?_⟩
  split at h
  · rename_i hgo
    simp only [Option.bind_eq_some_iff, Prod.exists] at h
    obtain ⟨r₁, S₁, hpost, h⟩ := h
    refine .inl ⟨hgo, r₁, S₁, hpost, ?_⟩
    split at h
    · rename_i hnewline
      rw [if_pos hnewline]
      exact (Option.some.inj h).symm
    · rename_i hother
      rw [if_neg hother]
      exact (Option.some.inj h).symm
  · rename_i hstop
    refine .inr ⟨?_, (Option.some.inj h).symm⟩
    simp only [not_or, not_and, Bool.not_eq_true, Bool.not_eq_false', not_not, not_lt] at hstop
    refine ⟨hstop.1, ?_⟩
    by_cases hfd : r.fd = stdin
    · exact .inl hfd
    · exact .inr (hstop.2 hfd)

theorem storeByte_cases {w : Writer} (h : S.storeByte pid w = some S') : ∃ st byte r₁ S₁,
    S.streams w.stream = some st ∧ w.buf[w.written]? = some byte ∧
      ((S.setStream w.stream (st.put byte)).note (.stored w.stream byte)).semPost st.readSem =
        some (r₁, S₁) ∧ S' = S₁.setFrame pid (.writing { w with written := w.written + 1 }) := by
  simp only [storeByte, Option.bind_eq_bind, Option.bind_eq_some_iff, Option.some.injEq,
    Prod.exists] at h
  obtain ⟨st, hst, byte, hbyte, r₁, S₁, hpost, rfl⟩ := h
  exact ⟨st, byte, r₁, S₁, hst, hbyte, hpost, rfl⟩

theorem finishReadAt_cases {stream pos : ℕ} (h : S.finishReadAt pid stream pos = some S') :
    ∃ st, S.streams stream = some st ∧ S' = (S.setStream stream
      (if pos = st.readPos ∧ st.dataAvailable > 0 then st.advance else st)).setFrame pid .user := by
  simp only [finishReadAt, Option.bind_eq_bind, Option.bind_eq_some_iff, Option.some.injEq] at h
  obtain ⟨st, hst, rfl⟩ := h
  exact ⟨st, hst, rfl⟩

/-- `semWait` lets the caller go on, or the caller falls asleep. -/
theorem waitThen_cases {semId : ℤ} {k : AfterWait} (h : S.waitThen pid semId k = some S') :
    (∃ S₁, S.semWait pid semId k = some (true, S₁) ∧ S₁.afterWait pid k = some S') ∨
      S.semWait pid semId k = some (false, S') := by
  simp only [waitThen, Option.bind_eq_bind, Option.bind_eq_some_iff, Prod.exists] at h
  obtain ⟨returned, S₁, hwait, h⟩ := h
  cases returned with
  | false => exact .inr (Option.some.inj h ▸ hwait)
  | true => exact .inl ⟨S₁, hwait, h⟩

theorem afterWait_fds {k : AfterWait} (h : S.afterWait pid k = some S') :
    S'.fileDescriptors = S.fileDescriptors := by
  cases k with
  | done =>
      rw [← Option.some.inj h]
      rfl
  | take r =>
      obtain ⟨st, -, ⟨-, r₁, S₁, hpost, rfl⟩ | ⟨-, rfl⟩⟩ := takeByte_cases h
      · have hfds := (semPost_files hpost).1
        split
        · exact hfds
        · exact hfds
      · rfl
  | store w =>
      obtain ⟨st, byte, r₁, S₁, -, -, hpost, rfl⟩ := storeByte_cases h
      exact (semPost_files hpost).1
  | readAt stream pos =>
      obtain ⟨st, -, rfl⟩ := finishReadAt_cases h
      rfl

theorem waitThen_fds {semId : ℤ} {k : AfterWait} (h : S.waitThen pid semId k = some S') :
    S'.fileDescriptors = S.fileDescriptors := by
  rcases waitThen_cases h with ⟨S₁, hwait, hafter⟩ | hwait
  · exact (afterWait_fds hafter).trans (semWait_files hwait).1
  · exact (semWait_files hwait).1

/-- A round of `readFromFD` returns, or it waits for a byte, with a token of its
own at the end of the stream. -/
theorem readRound_cases {r : Reader} (h : S.readRound pid r = some S') :
    (r.count ≤ r.sizeRead ∧ S' = (S.setFrame pid .user).note
      (.readReturned pid r.stream r.count r.sizeRead false)) ∨
    (r.sizeRead < r.count ∧ ∃ st S₁, S.streams r.stream = some st ∧
      (st.eof = false ∧ S₁ = S ∨ st.eof = true ∧ ∃ r₁, S.semPost st.readSem = some (r₁, S₁)) ∧
        S₁.waitThen pid st.readSem (.take r) = some S') := by
  unfold readRound at h
  split at h
  · rename_i hmore
    simp only [Option.bind_eq_bind, Option.bind_eq_some_iff] at h
    obtain ⟨st, hst, S₁, htoken, h⟩ := h
    refine .inr ⟨hmore, st, S₁, hst, ?_, h⟩
    unfold eofToken at htoken
    split at htoken
    · rename_i heof
      simp only [Option.map_eq_map, Option.map_eq_some_iff, Prod.exists] at htoken
      obtain ⟨r₁, _, hpost, rfl⟩ := htoken
      exact .inr ⟨heof, r₁, hpost⟩
    · rename_i heof
      exact .inl ⟨by simpa using heof, (Option.some.inj htoken).symm⟩
  · rename_i hdone
    exact .inl ⟨not_lt.mp hdone, (Option.some.inj h).symm⟩

theorem readRound_fds {r : Reader} (h : S.readRound pid r = some S') :
    S'.fileDescriptors = S.fileDescriptors := by
  rcases readRound_cases h with ⟨-, rfl⟩ | ⟨-, st, S₁, -, ⟨-, rfl⟩ | ⟨-, r₁, hpost⟩, hwait⟩
  · rfl
  · exact waitThen_fds hwait
  · exact (waitThen_fds hwait).trans (semPost_files hpost).1

theorem writeRound_cases {w : Writer} (h : S.writeRound pid w = some S') :
    (w.buf.length ≤ w.written ∧ S' = S.setFrame pid .user) ∨
    (w.written < w.buf.length ∧ ∃ st, S.streams w.stream = some st ∧
      S.waitThen pid st.writeSem (.store w) = some S') := by
  unfold writeRound at h
  split at h
  · rename_i hmore
    simp only [Option.bind_eq_bind, Option.bind_eq_some_iff] at h
    exact .inr ⟨hmore, h⟩
  · rename_i hdone
    exact .inl ⟨not_lt.mp hdone, (Option.some.inj h).symm⟩

theorem writeRound_fds {w : Writer} (h : S.writeRound pid w = some S') :
    S'.fileDescriptors = S.fileDescriptors := by
  rcases writeRound_cases h with ⟨-, rfl⟩ | ⟨-, st, -, hwait⟩
  · rfl
  · exact waitThen_fds hwait

/-- `readFromFD` returns zero, or its loop begins. -/
theorem readFromFD_cases (h : S.readFromFD pid fd count = some S') :
    S' = S ∨ fd ≠ stdin ∧ ∃ stream, S.resource fd = some stream ∧
      S' = S.setFrame pid (.reading { fd, stream, count, sizeRead := 0 }) := by
  unfold readFromFD at h
  split at h
  · split at h
    · exact .inl (Option.some.inj h).symm
    · exact absurd h (by simp)
  · rename_i hfd
    split at h
    · exact .inl (Option.some.inj h).symm
    · simp only [Option.bind_eq_bind, Option.bind_eq_some_iff, Option.some.injEq] at h
      obtain ⟨stream, hstream, rfl⟩ := h
      exact .inr ⟨hfd, stream, hstream, rfl⟩

/-- `writeToFD` prints, or it clears `eof` and its loop begins. -/
theorem writeToFD_cases (h : S.writeToFD pid fd buf = some S') :
    (fd = stdout ∨ fd = stderr) ∧ S' = S ∨ ∃ stream st, S.resource fd = some stream ∧
      S.streams stream = some st ∧ S' = (S.setStream stream { st with eof := false }).setFrame pid
        (.writing { stream, buf, written := 0 }) := by
  unfold writeToFD at h
  split at h
  · rename_i hfd
    exact .inl ⟨hfd, (Option.some.inj h).symm⟩
  · simp only [Option.bind_eq_bind, Option.bind_eq_some_iff, Option.some.injEq] at h
    obtain ⟨stream, hstream, st, hst, rfl⟩ := h
    exact .inr ⟨stream, st, hstream, hst, rfl⟩

/-- `readFromFDAt` refuses the descriptor, or it waits for the byte in front, or
it advances without waiting. -/
theorem readFromFDAt_cases (h : S.readFromFDAt pid fd = some S') :
    S' = S ∨ ((0 ≤ fd ∧ fd < maxFds) ∧ (S.fileDescriptors fd).isOpen ∧
        (S.fileDescriptors fd).mode ≠ .W) ∧ ∃ stream st,
      (S.fileDescriptors fd).resource = some stream ∧ S.streams stream = some st ∧
        ((st.dataAvailable > 0 ∧ st.buffer st.readPos ≠ 0) ∧
          S.waitThen pid st.readSem (.readAt stream st.readPos) = some S' ∨
        ¬(st.dataAvailable > 0 ∧ st.buffer st.readPos ≠ 0) ∧
          S.finishReadAt pid stream st.readPos = some S') := by
  unfold readFromFDAt at h
  dsimp only at h
  split at h
  · exact .inl (Option.some.inj h).symm
  · rename_i hvalid
    simp only [not_or, not_lt, ge_iff_le, not_le, Bool.not_eq_true', Bool.not_eq_false] at hvalid
    simp only [Option.bind_eq_bind, Option.bind_eq_some_iff] at h
    obtain ⟨stream, hstream, st, hst, h⟩ := h
    refine .inr ⟨⟨⟨hvalid.1, hvalid.2.1⟩, hvalid.2.2.2.2.1, hvalid.2.2.2.2.2⟩, stream, st, hstream,
      hst, ?_⟩
    split at h
    · rename_i hdata
      exact .inl ⟨hdata, h⟩
    · rename_i hdata
      exact .inr ⟨hdata, h⟩

/-! ## Closing -/

theorem postTimes_files {semId : ℤ} : ∀ {n : ℕ} {S : Machine}, postTimes n S semId = some S' →
    SameFiles S S'
  | 0, _, h => Option.some.inj h ▸ SameFiles.refl _
  | n + 1, S, h => by
      simp only [postTimes, Option.bind_eq_bind, Option.bind_eq_some_iff, Prod.exists] at h
      obtain ⟨r, S₁, hpost, hrest⟩ := h
      exact (semPost_files hpost).trans (postTimes_files hrest)

/-- Without writers the readers get a token each. -/
theorem signalEof_cases {id : ℕ} {st : Stream} (h : S.signalEof id st = some S') :
    (st.readers > 0 ∧ st.writers ≤ 0) ∧ postTimes st.readers.toNat
        (S.setStream id { st with eof := true }) st.readSem = some S' ∨
      ¬(st.readers > 0 ∧ st.writers ≤ 0) ∧ S' = S.setStream id st := by
  unfold signalEof at h
  split at h
  · rename_i hwriters
    exact .inl ⟨hwriters, h⟩
  · rename_i hwriters
    exact .inr ⟨hwriters, (Option.some.inj h).symm⟩

/-- Without both ends the stream and its semaphores are gone. -/
theorem freeStream_cases {id : ℕ} {st : Stream} (h : S.freeStream id st = some S') :
    (st.readers = 0 ∧ st.writers = 0) ∧ (∃ r₁ S₁ r₂ S₂, S.semDestroy st.readSem = some (r₁, S₁) ∧
        S₁.semDestroy st.writeSem = some (r₂, S₂) ∧
          S' = { S₂ with streams := Function.update S₂.streams id none }) ∨
      ¬(st.readers = 0 ∧ st.writers = 0) ∧ S' = S := by
  unfold freeStream at h
  split at h
  · rename_i hends
    simp only [Option.bind_eq_bind, Option.bind_eq_some_iff, Option.some.injEq, Prod.exists] at h
    obtain ⟨r₁, S₁, hread, r₂, S₂, hwrite, rfl⟩ := h
    exact .inl ⟨hends, r₁, S₁, r₂, S₂, hread, hwrite, rfl⟩
  · rename_i hends
    exact .inr ⟨hends, (Option.some.inj h).symm⟩

theorem closeEnd_cases {id : ℕ} {st : Stream} {r : Int32}
    (h : S.closeEnd fd id st = some (r, S')) : r = 0 ∧ ∃ S₁ S₂, S.signalEof id st = some S₁ ∧
      S₁.freeStream id st = some S₂ ∧ S' = S₂.setOpen fd false := by
  simp only [closeEnd, Option.bind_eq_bind, Option.bind_eq_some_iff, Option.some.injEq,
    Prod.mk.injEq] at h
  obtain ⟨S₁, hsignal, S₂, hfree, rfl, rfl⟩ := h
  exact ⟨rfl, S₁, S₂, hsignal, hfree, rfl⟩

/-- A descriptor that `closeFD` takes. -/
def Closable (S : Machine) (fd : ℤ) : Prop :=
  (0 ≤ fd ∧ fd < maxFds) ∧ (fd ≠ stdout ∧ fd ≠ stderr) ∧ (S.fileDescriptors fd).isOpen

/-- `closeFD` refuses the descriptor, takes back the end of `STDIN`, or closes an
end of a pipe. -/
theorem closeFD_cases {r : Int32} (h : S.closeFD fd = some (r, S')) :
    (¬S.Closable fd ∧ r = -1 ∧ S' = S) ∨ S.Closable fd ∧ r = 0 ∧ ∃ id st,
      (S.fileDescriptors fd).resource = some id ∧ S.streams id = some st ∧
        (fd = stdin ∧ S' = S.setStream id { st with eof := false } ∨
          fd ≠ stdin ∧ S.closeEnd fd id (st.dropEnd (S.fileDescriptors fd).mode) =
            some (r, S')) := by
  unfold closeFD at h
  dsimp only at h
  split at h
  · rename_i hbad
    obtain ⟨rfl, rfl⟩ := Prod.mk.inj (Option.some.inj h)
    refine .inl ⟨?_, rfl, rfl⟩
    rintro ⟨⟨hpos, hlt⟩, ⟨hout, herr⟩, hopen⟩
    rcases hbad with hneg | hbad | hbad | hge | hclosed
    · exact absurd hpos (not_le.mpr hneg)
    · exact hout hbad
    · exact herr hbad
    · exact absurd hlt (not_lt.mpr hge)
    · simp [hopen] at hclosed
  · rename_i hgood
    simp only [not_or, not_lt, ge_iff_le, not_le, Bool.not_eq_true', Bool.not_eq_false] at hgood
    simp only [Option.bind_eq_bind, Option.bind_eq_some_iff] at h
    obtain ⟨id, hid, st, hst, h⟩ := h
    refine .inr ⟨⟨⟨hgood.1, hgood.2.2.2.1⟩, ⟨hgood.2.1, hgood.2.2.1⟩, hgood.2.2.2.2⟩, ?_⟩
    split at h
    · rename_i hfd
      obtain ⟨rfl, rfl⟩ := Prod.mk.inj (Option.some.inj h)
      exact ⟨rfl, id, st, hid, hst, .inl ⟨hfd, rfl⟩⟩
    · rename_i hfd
      exact ⟨(closeEnd_cases h).1, id, st, hid, hst, .inr ⟨hfd, h⟩⟩

theorem signalEof_fds {id : ℕ} {st : Stream} (h : S.signalEof id st = some S') :
    S'.fileDescriptors = S.fileDescriptors := by
  rcases signalEof_cases h with ⟨-, hposts⟩ | ⟨-, rfl⟩
  · exact (postTimes_files hposts).1
  · rfl

theorem freeStream_fds {id : ℕ} {st : Stream} (h : S.freeStream id st = some S') :
    S'.fileDescriptors = S.fileDescriptors := by
  rcases freeStream_cases h with ⟨-, _, S₁, _, S₂, hread, hwrite, rfl⟩ | ⟨-, rfl⟩
  · exact ((semDestroy_files hread).trans (semDestroy_files hwrite)).1
  · rfl

/-- **What `closeFD` does to the table**: at most the one descriptor is closed. -/
theorem closeFD_fds {r : Int32} (h : S.closeFD fd = some (r, S')) :
    ¬(S.Closable fd ∧ fd ≠ stdin) ∧ S'.fileDescriptors = S.fileDescriptors ∨
      (S.Closable fd ∧ fd ≠ stdin) ∧
        S'.fileDescriptors = (S.setOpen fd false).fileDescriptors := by
  rcases closeFD_cases h with ⟨hbad, -, rfl⟩ | ⟨hgood, -, id, st, -, -, ⟨hfd, rfl⟩ | ⟨hfd, hend⟩⟩
  · exact .inl ⟨fun h => hbad h.1, rfl⟩
  · exact .inl ⟨fun h => h.2 hfd, rfl⟩
  · obtain ⟨-, S₁, S₂, hsignal, hfree, rfl⟩ := closeEnd_cases hend
    have hsame := (freeStream_fds hfree).trans (signalEof_fds hsignal)
    refine .inr ⟨⟨hgood, hfd⟩, ?_⟩
    unfold setOpen
    dsimp only
    rw [hsame]

/-! ## What a close leaves -/

/-- The streams and the descriptors after `closeFD`. -/
def withoutEnd (S : Machine) (fd : ℤ) : Machine :=
  let d := S.fileDescriptors fd
  if fd < 0 ∨ fd = stdin ∨ fd = stdout ∨ fd = stderr ∨ fd ≥ maxFds ∨ !d.isOpen then S
  else
    match d.resource with
    | none => S
    | some id =>
        let left : Option Stream := (S.streams id).bind fun st =>
          let st := st.dropEnd d.mode
          if st.readers = 0 ∧ st.writers = 0 then none else some st
        { S with streams := Function.update S.streams id left }.setOpen fd false

/-- What of a stream decides whether it is freed, and by which semaphores. -/
def ends (st : Stream) : ℤ × ℤ × ℤ × ℤ := (st.readers, st.writers, st.readSem, st.writeSem)

theorem ends_eq {st st' : Stream} (h : ends st = ends st') : st.readers = st'.readers ∧
    st.writers = st'.writers ∧ st.readSem = st'.readSem ∧ st.writeSem = st'.writeSem := by
  simpa [ends] using h

/-- A close leaves of the table and the ends of the streams what `withoutEnd` leaves. -/
theorem closeFD_withoutEnd {r : Int32} (h : S.closeFD fd = some (r, S')) :
    S'.fileDescriptors = (S.withoutEnd fd).fileDescriptors ∧
      ∀ id, (S'.streams id).map ends = ((S.withoutEnd fd).streams id).map ends := by
  unfold withoutEnd
  dsimp only
  rcases closeFD_cases h with ⟨hbad, -, rfl⟩ | ⟨⟨⟨hpos, hlt⟩, ⟨hout, herr⟩, hopen⟩, -, id, st, hid,
    hst, ⟨hfd, rfl⟩ | ⟨hfd, hend⟩⟩
  · rw [if_pos]
    · exact ⟨rfl, fun _ => rfl⟩
    · by_contra hgood
      simp only [not_or, not_lt, ge_iff_le, not_le, Bool.not_eq_true', Bool.not_eq_false] at hgood
      exact hbad ⟨⟨hgood.1, hgood.2.2.2.2.1⟩, ⟨hgood.2.2.1, hgood.2.2.2.1⟩, hgood.2.2.2.2.2⟩
  · rw [if_pos (.inr (.inl hfd))]
    refine ⟨rfl, fun other => ?_⟩
    by_cases heq : other = id
    · rw [heq, hst]
      simp [ends]
    · simp [Function.update_of_ne heq]
  · rw [if_neg (by
      simp only [not_or, not_lt, ge_iff_le, not_le, Bool.not_eq_true', Bool.not_eq_false]
      exact ⟨hpos, hfd, hout, herr, hlt, hopen⟩), hid]
    dsimp only
    rw [hst, Option.bind_some]
    obtain ⟨-, S₁, S₂, hsignal, hfree, rfl⟩ := closeEnd_cases hend
    obtain ⟨st', hst'⟩ : ∃ st', st' = st.dropEnd (S.fileDescriptors fd).mode := ⟨_, rfl⟩
    rw [← hst'] at hsignal hfree ⊢
    -- the stream is marked, the descriptors stay
    obtain ⟨eof, hfds₁, hstreams₁⟩ : ∃ eof, S₁.fileDescriptors = S.fileDescriptors ∧
        S₁.streams = Function.update S.streams id (some { st' with eof := eof }) := by
      rcases signalEof_cases hsignal with ⟨-, hposts⟩ | ⟨-, rfl⟩
      · obtain ⟨hfds, hstreams, -⟩ := postTimes_files hposts
        exact ⟨true, hfds, hstreams⟩
      · exact ⟨st'.eof, rfl, rfl⟩
    obtain ⟨hfds₂, hstreams₂⟩ : S₂.fileDescriptors = S₁.fileDescriptors ∧
        S₂.streams = if st'.readers = 0 ∧ st'.writers = 0 then
          Function.update S₁.streams id none else S₁.streams := by
      rcases freeStream_cases hfree with ⟨hends, _, S₃, _, S₄, hread, hwrite, rfl⟩ | ⟨hends, rfl⟩
      · obtain ⟨hfds, hstreams, -⟩ := (semDestroy_files hread).trans (semDestroy_files hwrite)
        rw [if_pos hends, ← hstreams]
        exact ⟨hfds, rfl⟩
      · rw [if_neg hends]
        exact ⟨rfl, rfl⟩
    constructor
    · unfold setOpen
      dsimp only
      rw [hfds₂, hfds₁]
    · intro other
      change (S₂.streams other).map ends = ((Function.update S.streams id _) other).map ends
      rw [hstreams₂]
      by_cases heq : other = id
      · rw [heq]
        split
        · rw [Function.update_self, Function.update_self]
        · rw [hstreams₁, Function.update_self, Function.update_self]
          rfl
      · rw [Function.update_of_ne heq]
        split
        · rw [Function.update_of_ne heq, hstreams₁, Function.update_of_ne heq]
        · rw [hstreams₁, Function.update_of_ne heq]

/-- Only the table and the streams matter. -/
theorem withoutEnd_congr (hfds : S'.fileDescriptors = S.fileDescriptors)
    (hstreams : S'.streams = S.streams) :
    (S'.withoutEnd fd).fileDescriptors = (S.withoutEnd fd).fileDescriptors ∧
      (S'.withoutEnd fd).streams = (S.withoutEnd fd).streams := by
  unfold withoutEnd setOpen
  dsimp only
  rw [hfds, hstreams]
  split
  · exact ⟨hfds, hstreams⟩
  · split
    · exact ⟨hfds, hstreams⟩
    · exact ⟨rfl, rfl⟩

/-! ## Making pipes -/

/-- A descriptor that `getAvailableFD` may find. -/
def Unused (S : Machine) (fd : ℤ) : Prop :=
  (3 ≤ fd ∧ fd < maxFds) ∧ (S.fileDescriptors fd).isOpen = false

theorem getAvailableFD_cases : S.getAvailableFD = (none, S) ∨
    ∃ fd, S.Unused fd ∧ S.getAvailableFD = (some fd, S.setOpen fd true) := by
  unfold getAvailableFD
  dsimp only
  split
  · exact .inl rfl
  · rename_i fd hfd
    refine .inr ⟨fd, ⟨?_, by simpa using List.find?_some hfd⟩, rfl⟩
    obtain ⟨i, hi, rfl⟩ := List.mem_map.mp (List.mem_of_find?_eq_some hfd)
    rw [List.mem_range] at hi
    unfold maxFds
    omega

/-- Both descriptors are marked, and the block of the stream is taken. -/
def reserve (S : Machine) (fd1 fd2 : ℤ) : Machine :=
  let S := (S.setOpen fd1 true).setOpen fd2 true
  { S with nextStream := S.nextStream + 1, sched := S.sched.dropBlock }

/-- The stream of a new pipe. -/
def newStream (fresh : ℕ → UInt8) (readSem writeSem : ℤ) : Stream :=
  { buffer := fresh, readPos := 0, writePos := 0, dataAvailable := 0, eof := false, readers := 1,
    writers := 1, readSem, writeSem }

/-- The two ends of the stream that `createPipe` makes. -/
def withEnds (S : Machine) (fd1 fd2 : ℤ) (stream : ℕ) : Machine :=
  let ends := Function.update S.fileDescriptors fd1 ⟨true, some stream, .R⟩
  { S with fileDescriptors := Function.update ends fd2 ⟨true, some stream, .W⟩ }

/-- The two descriptors that a new pipe gets. -/
structure Finds (S : Machine) (fd1 fd2 : ℤ) : Prop where
  first : S.Unused fd1
  second : S.Unused fd2
  ne : fd1 ≠ fd2
  found : S.getAvailableFD.1 = some fd1 ∧ S.getAvailableFD.2.getAvailableFD.1 = some fd2

/-- The only descriptor that is left. -/
structure FindsOne (S : Machine) (fd : ℤ) : Prop where
  unused : S.Unused fd
  found : S.getAvailableFD.1 = some fd ∧ S.getAvailableFD.2.getAvailableFD.1 = none

/-- `createPipe` finds no descriptor, or only one, which stays open, or it makes a
stream with two new semaphores. -/
theorem createPipe_cases {fresh : ℕ → UInt8} {r : Int32}
    (h : S.createPipe pid fresh = some (r, S')) :
    r = -1 ∧ (S' = S ∨ ∃ fd, S.FindsOne fd ∧ S' = S.setOpen fd true) ∨
      r = 0 ∧ ∃ fd1 fd2 readSem writeSem S₁ S₂, S.Finds fd1 fd2 ∧
        (S.reserve fd1 fd2).semCreate pid (itoa fd1.toNat) 0 = (readSem, S₁) ∧
        S₁.semCreate pid (itoa fd2.toNat) 2048 = (writeSem, S₂) ∧
        S' = (S₂.setStream S.nextStream (newStream fresh readSem writeSem)).withEnds fd1 fd2
          S.nextStream := by
  unfold createPipe at h
  rcases getAvailableFD_cases (S := S) with hnone | ⟨fd1, hfd1, heq1⟩
  · rw [hnone] at h
    dsimp only at h
    rw [hnone] at h
    obtain ⟨rfl, rfl⟩ := Prod.mk.inj (Option.some.inj h)
    exact .inl ⟨rfl, .inl rfl⟩
  · rw [heq1] at h
    dsimp only at h
    have hone : S.getAvailableFD.1 = some fd1 := by rw [heq1]
    have htwo : S.getAvailableFD.2 = S.setOpen fd1 true := by rw [heq1]
    rcases getAvailableFD_cases (S := S.setOpen fd1 true) with hnone | ⟨fd2, hfd2, heq2⟩
    · rw [hnone] at h
      obtain ⟨rfl, rfl⟩ := Prod.mk.inj (Option.some.inj h)
      refine .inl ⟨rfl, .inr ⟨fd1, ⟨hfd1, hone, ?_⟩, rfl⟩⟩
      rw [htwo, hnone]
    · rw [heq2] at h
      dsimp only at h
      split at h
      · exact absurd h (by simp)
      · obtain ⟨rfl, rfl⟩ := Prod.mk.inj (Option.some.inj h)
        have hne : fd1 ≠ fd2 := by
          rintro rfl
          exact absurd hfd2.2 (by simp [setOpen])
        have hfd2' : S.Unused fd2 := by
          refine ⟨hfd2.1, ?_⟩
          have hclosed := hfd2.2
          rwa [setOpen_fileDescriptors, Function.update_of_ne (Ne.symm hne)] at hclosed
        refine .inr ⟨rfl, fd1, fd2, _, _, _, _, ⟨hfd1, hfd2', hne, hone, ?_⟩, rfl, rfl, rfl⟩
        rw [htwo, heq2]

theorem semCreate_files {name : CString} {value : Int32} {semId : ℤ}
    (h : S.semCreate pid name value = (semId, S')) : SameFiles S S' := by
  unfold semCreate at h
  dsimp only at h
  split at h
  · obtain ⟨-, rfl⟩ := Prod.mk.inj h
    exact SameFiles.refl S
  · obtain ⟨-, rfl⟩ := Prod.mk.inj h
    exact ⟨rfl, rfl, rfl⟩

/-- **What `createPipe` does to the table.** -/
theorem createPipe_fds {fresh : ℕ → UInt8} {r : Int32}
    (h : S.createPipe pid fresh = some (r, S')) :
    r = -1 ∧ (S'.fileDescriptors = S.fileDescriptors ∨ ∃ fd, S.FindsOne fd ∧
        S'.fileDescriptors = (S.setOpen fd true).fileDescriptors) ∨
      r = 0 ∧ ∃ fd1 fd2, S.Finds fd1 fd2 ∧
        S'.fileDescriptors = (((S.setOpen fd1 true).setOpen fd2 true).withEnds fd1 fd2
          S.nextStream).fileDescriptors := by
  rcases createPipe_cases h with ⟨hr, rfl | ⟨fd, hfd, rfl⟩⟩ |
    ⟨hr, fd1, fd2, _, _, S₁, S₂, hfds, hread, hwrite, rfl⟩
  · exact .inl ⟨hr, .inl rfl⟩
  · exact .inl ⟨hr, .inr ⟨fd, hfd, rfl⟩⟩
  · have hsame : S₂.fileDescriptors = ((S.setOpen fd1 true).setOpen fd2 true).fileDescriptors :=
      ((semCreate_files hread).trans (semCreate_files hwrite)).1
    refine .inr ⟨hr, fd1, fd2, hfds, ?_⟩
    unfold withEnds
    change Function.update (Function.update S₂.fileDescriptors fd1 _) fd2 _ = _
    rw [hsame]

/-! ## Steps -/

theorem killWake_files (S : Machine) (pid : ℤ) : SameFiles S (S.killWake pid) := by
  unfold killWake
  dsimp only
  split
  · exact SameFiles.refl S
  · exact ⟨rfl, rfl, rfl⟩

/-- A `kill` that is not refused closes the two descriptors of the process. -/
theorem kill_closes {r : Int32} (h : S.kill pid = some (r, S')) :
    S' = S ∨ ((initPid < pid ∧ pid ≤ maxPid) ∧ (S.sched.processes pid).state ≠ EXITED) ∧
      ∃ r₁ S₁ r₂ S₂, (S.killStart pid .leave).closeFD (S.sched.processes pid).fds.1 =
          some (r₁, S₁) ∧
        S₁.closeFD (S.sched.processes pid).fds.2 = some (r₂, S₂) ∧
          (S' = S₂.killWake pid ∨
            S' = (S₂.killWake pid).onSched Sched.forceSwitchContext) := by
  unfold kill at h
  split at h
  · obtain ⟨-, rfl⟩ := Prod.mk.inj (Option.some.inj h)
    exact .inl rfl
  · rename_i hrange
    rw [not_or, not_or, not_le, not_lt] at hrange
    simp only [Option.bind_eq_bind, Option.bind_eq_some_iff, Prod.exists] at h
    obtain ⟨r₁, S₁, hin, r₂, S₂, hout, h⟩ := h
    refine .inr ⟨⟨⟨hrange.1, hrange.2.1⟩, hrange.2.2⟩, r₁, S₁, r₂, S₂, hin, hout, ?_⟩
    split at h
    · exact .inr (Prod.mk.inj (Option.some.inj h)).2.symm
    · exact .inl (Prod.mk.inj (Option.some.inj h)).2.symm

theorem createProcess_files (S : Machine) (params : Option CreationParameters) :
    SameFiles S (S.createProcess params).2 := by
  unfold createProcess
  cases params with
  | none => exact SameFiles.refl S
  | some params =>
      dsimp only
      split
      · exact SameFiles.refl S
      · split
        · exact SameFiles.refl S
        · split
          · exact ⟨rfl, rfl, rfl⟩
          · split
            · exact ⟨rfl, rfl, rfl⟩
            · exact ⟨rfl, rfl, rfl⟩

theorem waitProcess_files (S : Machine) (pid target : ℤ) (wstatus : Bool) :
    SameFiles S (S.waitProcess pid target wstatus) := by
  unfold waitProcess
  split
  · exact SameFiles.refl S
  · dsimp only
    split
    · exact ⟨rfl, rfl, rfl⟩
    · exact ⟨rfl, rfl, rfl⟩

theorem changeProccessPriority_files (S : Machine) (pid : ℤ) (priority : UInt32) :
    SameFiles S (S.changeProccessPriority pid priority).2 := by
  unfold changeProccessPriority
  split
  · exact SameFiles.refl S
  · dsimp only
    split
    · exact SameFiles.refl S
    · split
      · exact ⟨rfl, rfl, rfl⟩
      · exact ⟨rfl, rfl, rfl⟩

theorem sysBlock_files (S : Machine) (pid : ℤ) : SameFiles S (S.sysBlock pid) := by
  unfold sysBlock
  split
  · exact SameFiles.refl S
  · exact ⟨rfl, rfl, rfl⟩

theorem semOpen_files (S : Machine) (pid : ℤ) (name : CString) :
    SameFiles S (S.semOpen pid name).2 := by
  unfold semOpen
  split
  · exact SameFiles.refl S
  · exact ⟨rfl, rfl, rfl⟩

theorem semClose_files {semId : ℤ} {r : Int32} (h : S.semClose pid semId = some (r, S')) :
    SameFiles S S' := by
  unfold semClose at h
  split at h
  · obtain ⟨-, rfl⟩ := Prod.mk.inj (Option.some.inj h)
    exact SameFiles.refl S
  · split at h
    · exact absurd h (by simp)
    · split at h
      · obtain ⟨-, rfl⟩ := Prod.mk.inj (Option.some.inj h)
        exact SameFiles.refl S
      · obtain ⟨-, rfl⟩ := Prod.mk.inj (Option.some.inj h)
        exact ⟨rfl, rfl, rfl⟩

theorem sysSemOpen_files (S : Machine) (pid : ℤ) (name : CString) (value : Int32) :
    SameFiles S (S.sysSemOpen pid name value).2 := by
  unfold sysSemOpen
  split
  · exact semCreate_files rfl
  · exact semOpen_files S pid name

/-- The steps that open or close descriptors. -/
inductive Table (S : Machine) (c : ℤ) : Event → Machine → Prop where
  | pipe {fresh : ℕ → UInt8} {r : Int32} {S' : Machine}
      (h : S.createPipe c fresh = some (r, S')) : Table S c (.call (.pipe fresh)) S'
  | close {fd : ℤ} {r : Int32} {S' : Machine} (h : S.closeFD fd = some (r, S')) :
      Table S c (.call (.close fd)) S'
  | kill {pid : ℤ} {r₁ r₂ : Int32} {S₁ S₂ S' : Machine}
      (halive : (initPid < pid ∧ pid ≤ maxPid) ∧ (S.sched.processes pid).state ≠ EXITED)
      (hin : (S.killStart pid .leave).closeFD (S.sched.processes pid).fds.1 = some (r₁, S₁))
      (hout : S₁.closeFD (S.sched.processes pid).fds.2 = some (r₂, S₂))
      (hend : S' = S₂.killWake pid ∨ S' = (S₂.killWake pid).onSched Sched.forceSwitchContext) :
      Table S c (.call (.kill pid)) S'
  | closeIn {r : Int32} {S₁ : Machine} (hf : S.frames c = .exiting .closeIn)
      (h : S.closeFD (S.sched.processes c).fds.1 = some (r, S₁)) :
      Table S c .resume (S₁.setFrame c (.exiting .closeOut))
  | closeOut {r : Int32} {S₁ : Machine} (hf : S.frames c = .exiting .closeOut)
      (h : S.closeFD (S.sched.processes c).fds.2 = some (r, S₁)) :
      Table S c .resume (S₁.setFrame c (.exiting .wake))

theorem sysCall_table {call : Syscall} (h : S.sysCall c call = some S') :
    S'.fileDescriptors = S.fileDescriptors ∨ S.Table c (.call call) S' := by
  cases call with
  | createProcess params => exact .inl (Option.some.inj h ▸ (createProcess_files S params).1)
  | kill target =>
      obtain ⟨⟨r, _⟩, hkill, rfl⟩ := Option.map_eq_some_iff.mp h
      rcases kill_closes hkill with heq | ⟨halive, _, _, _, _, hin, hout, hend⟩
      · exact .inl (congrArg _ heq)
      · exact .inr (.kill halive hin hout hend)
  | block target => exact .inl (Option.some.inj h ▸ (sysBlock_files S target).1)
  | unblock target =>
      left
      rw [← Option.some.inj h]
      rfl
  | changePriority target priority =>
      exact .inl (Option.some.inj h ▸ (changeProccessPriority_files S target priority).1)
  | yield =>
      left
      rw [← Option.some.inj h]
      rfl
  | wait target wstatus =>
      exact .inl (Option.some.inj h ▸ (waitProcess_files S c target wstatus).1)
  | semOpen name value => exact .inl (Option.some.inj h ▸ (sysSemOpen_files S c name value).1)
  | semClose semId =>
      obtain ⟨⟨r, _⟩, hclose, rfl⟩ := Option.map_eq_some_iff.mp h
      exact .inl (semClose_files hclose).1
  | semWait semId =>
      simp only [sysCall] at h
      split at h
      · exact .inl (waitThen_fds h)
      · exact .inl (Option.some.inj h ▸ rfl)
  | semPost semId =>
      simp only [sysCall] at h
      split at h
      · obtain ⟨⟨r, _⟩, hpost, rfl⟩ := Option.map_eq_some_iff.mp h
        exact .inl (semPost_files hpost).1
      · exact .inl (Option.some.inj h ▸ rfl)
  | semSetValue semId value =>
      obtain ⟨⟨r, _⟩, hset, rfl⟩ := Option.map_eq_some_iff.mp h
      exact .inl (semSetValue_files hset).1
  | semDestroy semId =>
      simp only [sysCall] at h
      split at h
      · obtain ⟨⟨r, _⟩, hdestroy, rfl⟩ := Option.map_eq_some_iff.mp h
        exact .inl (semDestroy_files hdestroy).1
      · exact .inl (Option.some.inj h ▸ rfl)
  | pipe fresh =>
      simp only [sysCall, Option.map_eq_map, Option.map_eq_some_iff, Prod.exists] at h
      obtain ⟨_, _, hpipe, rfl⟩ := h
      exact .inr (.pipe hpipe)
  | close fd =>
      simp only [sysCall, Option.map_eq_map, Option.map_eq_some_iff, Prod.exists] at h
      obtain ⟨_, _, hclose, rfl⟩ := h
      exact .inr (.close hclose)
  | read fd count =>
      rcases readFromFD_cases h with rfl | ⟨-, _, -, rfl⟩
      · exact .inl rfl
      · exact .inl rfl
  | write fd buf =>
      rcases writeToFD_cases h with ⟨-, rfl⟩ | ⟨_, _, -, -, rfl⟩
      · exact .inl rfl
      · exact .inl rfl
  | readAt fd =>
      rcases readFromFDAt_cases h with rfl | ⟨-, _, _, -, -, ⟨-, hwait⟩ | ⟨-, hfinish⟩⟩
      · exact .inl rfl
      · exact .inl (waitThen_fds hwait)
      · exact .inl (afterWait_fds (k := .readAt _ _) hfinish)

/-- **Every step leaves the table alone**, or it makes a pipe or closes descriptors. -/
theorem step_table (h : S.Step e S') : S'.fileDescriptors = S.fileDescriptors ∨
    ∃ c, S.sched.currentProcess = some c ∧ S.Table c e S' := by
  unfold Step step at h
  split at h
  · split at h
    · exact .inl (Option.some.inj h ▸ rfl)
    · exact absurd h (by simp)
  · rename_i c hc
    split at h
    · split at h
      · exact .inl (Option.some.inj h ▸ rfl)
      · exact absurd h (by simp)
    · split at h
      · exact (sysCall_table h).imp_right fun htable => ⟨c, hc, htable⟩
      · exact absurd h (by simp)
    · generalize hf : S.frames c = f at h
      cases f with
      | user => exact absurd h (by simp [resume])
      | semWait semId k =>
          simp only [resume, Option.bind_eq_bind, Option.bind_eq_some_iff, Prod.exists] at h
          obtain ⟨taken, S₁, hloop, h⟩ := h
          have hsame := (semWaitLoop_files hloop).1
          cases taken with
          | false => exact .inl (Option.some.inj h ▸ hsame)
          | true => exact .inl ((afterWait_fds h).trans hsame)
      | waitBlock target wstatus => exact .inl (Option.some.inj h ▸ rfl)
      | waitForced target wstatus => exact .inl (Option.some.inj h ▸ rfl)
      | reading r => exact .inl (readRound_fds h)
      | writing w => exact .inl (writeRound_fds h)
      | exiting stage =>
          cases stage with
          | closeIn =>
              simp only [resume, exitRound, Option.bind_eq_bind, Option.bind_eq_some_iff,
                Option.some.injEq, Prod.exists] at h
              obtain ⟨r, S₁, hclose, rfl⟩ := h
              exact .inr ⟨c, hc, .closeIn hf hclose⟩
          | closeOut =>
              simp only [resume, exitRound, Option.bind_eq_bind, Option.bind_eq_some_iff,
                Option.some.injEq, Prod.exists] at h
              obtain ⟨r, S₁, hclose, rfl⟩ := h
              exact .inr ⟨c, hc, .closeOut hf hclose⟩
          | wake =>
              rw [← Option.some.inj h]
              exact .inl (killWake_files S c).1
          | leave => exact .inl (Option.some.inj h ▸ rfl)
    · split at h
      · unfold exitProcess at h
        split at h
        · exact absurd h (by simp)
        · exact .inl (Option.some.inj h ▸ rfl)
      · exact absurd h (by simp)

/-- Closing a descriptor changes no other entry of the table, and none of a
standard one. -/
theorem closeFD_fds_other {r : Int32} {fd' : ℤ} (h : S.closeFD fd = some (r, S'))
    (hother : fd' ≠ fd ∨ fd' < 3) : S'.fileDescriptors fd' = S.fileDescriptors fd' := by
  rcases closeFD_fds h with ⟨-, heq⟩ | ⟨⟨⟨⟨hpos, -⟩, ⟨hout, herr⟩, -⟩, hin⟩, heq⟩
  · rw [heq]
  · rw [heq, setOpen_fileDescriptors]
    apply Function.update_of_ne
    rintro rfl
    rcases hother with hne | hlt
    · exact hne rfl
    · simp only [stdin, stdout, stderr] at hin hout herr
      omega

/-- **The standard descriptors stay as they are.** -/
theorem standard_step (hfd : fd < 3) (h : S.Step e S') :
    S'.fileDescriptors fd = S.fileDescriptors fd := by
  rcases step_table h with heq | ⟨c, hc, htable⟩
  · rw [heq]
  · have hunused : ∀ {fd'}, S.Unused fd' → fd ≠ fd' := by
      rintro _ ⟨⟨hlow, -⟩, -⟩ rfl
      omega
    cases htable with
    | pipe hpipe =>
        rcases createPipe_fds hpipe with ⟨-, heq | ⟨fd₁, hfd₁, heq⟩⟩ |
          ⟨-, fd1, fd2, ⟨hfd1, hfd2, -, -⟩, heq⟩
        · rw [heq]
        · rw [heq, setOpen_fileDescriptors, Function.update_of_ne (hunused hfd₁.unused)]
        · rw [heq]
          simp [withEnds, setOpen, Function.update_of_ne (hunused hfd1),
            Function.update_of_ne (hunused hfd2)]
    | close hclose => exact closeFD_fds_other hclose (.inr hfd)
    | kill halive hin hout hend =>
        have hboth := (closeFD_fds_other hout (.inr hfd)).trans (closeFD_fds_other hin (.inr hfd))
        rcases hend with rfl | rfl
        · exact (congrFun (killWake_files _ _).1 fd).trans hboth
        · exact (congrFun (killWake_files _ _).1 fd).trans hboth
    | closeIn hf hclose =>
        have hsame := closeFD_fds_other hclose (.inr hfd)
        exact hsame
    | closeOut hf hclose =>
        have hsame := closeFD_fds_other hclose (.inr hfd)
        exact hsame

theorem standard_boot : (boot nodes blocks).fileDescriptors =
    (off nodes blocks).fileDescriptors := by
  unfold boot
  exact ((createProcess_files _ _).trans (createProcess_files _ _)).1

theorem standard_run (h : Reaches Step always (boot nodes blocks) S) (hfd : fd < 3) :
    S.fileDescriptors fd = (off nodes blocks).fileDescriptors fd := by
  refine h.invariant (I := fun M => M.fileDescriptors fd = (off nodes blocks).fileDescriptors fd)
    ?_ fun _ _ _ hM _ hstep => (standard_step hfd hstep).trans hM
  rw [standard_boot]

end Machine

end BareKernel.Kernel
