import BareKernel.Kernel.FileSteps

/-!
# What a transfer can change

A transfer changes the stream that its frame names, and only uses the semaphores of
that stream. Streams are named by descriptors and frames only after they are made.
-/

namespace BareKernel.Kernel

open ProcessState Runs

namespace Machine

variable {S S' S₁ M : Machine} {e : Event} {c pid fd count : ℤ} {buf : List UInt8}
variable {J : ℕ → Prop} {A : ℤ → Prop} {i j : ℕ} {st st' : Stream}

/-- Only the streams in `J` change, not even those change their semaphores, and only
semaphores in `A` are used. -/
structure Local (J : ℕ → Prop) (A : ℤ → Prop) (S S' : Machine) : Prop where
  next : S'.nextStream = S.nextStream
  streams : ∀ i, ¬J i → S'.streams i = S.streams i
  own : ∀ i st', S'.streams i = some st' → ∃ st, S.streams i = some st ∧
    st'.readSem = st.readSem ∧ st'.writeSem = st.writeSem
  sems : ∀ i : ℕ, ¬A i → (S'.sems.sems i).used = (S.sems.sems i).used ∧
    (S'.sems.sems i).value = (S.sems.sems i).value
  history : ∀ i, ¬J i → S'.history i = S.history i

/-- The semaphores of the streams in `J` are in `A`. -/
def Serves (J : ℕ → Prop) (A : ℤ → Prop) (S : Machine) : Prop :=
  ∀ i st, J i → S.streams i = some st → A st.readSem ∧ A st.writeSem

theorem Local.refl (S : Machine) : Local J A S S :=
  ⟨rfl, fun _ _ => rfl, fun _ st' h => ⟨st', h, rfl, rfl⟩, fun _ _ => ⟨rfl, rfl⟩, fun _ _ => rfl⟩

theorem Local.trans (h : Local J A S S₁) (h' : Local J A S₁ S') : Local J A S S' := by
  refine ⟨h'.next.trans h.next, fun i hi => (h'.streams i hi).trans (h.streams i hi),
    fun i st' hst' => ?_, fun i hi => ⟨?_, ?_⟩, fun i hi =>
      (h'.history i hi).trans (h.history i hi)⟩
  · obtain ⟨st₁, hst₁, hread₁, hwrite₁⟩ := h'.own i st' hst'
    obtain ⟨st, hst, hread, hwrite⟩ := h.own i st₁ hst₁
    exact ⟨st, hst, hread₁.trans hread, hwrite₁.trans hwrite⟩
  · exact (h'.sems i hi).1.trans (h.sems i hi).1
  · exact (h'.sems i hi).2.trans (h.sems i hi).2

theorem Local.serves {J' : ℕ → Prop} {A' : ℤ → Prop} (h : Local J A S S') (hS : Serves J' A' S) :
    Serves J' A' S' := by
  intro i st' hi hst'
  obtain ⟨st, hst, hread, hwrite⟩ := h.own i st' hst'
  rw [hread, hwrite]
  exact hS i st hi hst

/-- Neither streams nor semaphores change. -/
theorem Local.of_same (hstreams : S'.streams = S.streams) (hnext : S'.nextStream = S.nextStream)
    (hsems : S'.sems = S.sems) (htrace : S'.trace = S.trace) : Local J A S S' := by
  refine ⟨hnext, fun i _ => by rw [hstreams], fun i st' hst' => ⟨st', ?_, rfl, rfl⟩,
    fun i _ => by rw [hsems]; exact ⟨rfl, rfl⟩, fun i _ => ?_⟩
  · rwa [hstreams] at hst'
  · unfold Machine.history
    rw [htrace]

theorem Local.setFrame {f : Frame} : Local J A S (S.setFrame pid f) :=
  .of_same rfl rfl rfl rfl

theorem Local.note {o : Obs} (ho : ∀ i, ¬J i → o.on i = false) : Local J A S (S.note o) :=
  ⟨rfl, fun _ _ => rfl, fun _ st' h => ⟨st', h, rfl, rfl⟩, fun _ _ => ⟨rfl, rfl⟩,
    fun i hi => history_note (ho i hi)⟩

theorem Local.setStream (hj : J j) (hst : S.streams j = some st)
    (hsems : st'.readSem = st.readSem ∧ st'.writeSem = st.writeSem) :
    Local J A S (S.setStream j st') := by
  refine ⟨rfl, fun i hi => ?_, fun i st₁ hst₁ => ?_, fun _ _ => ⟨rfl, rfl⟩, fun _ _ => rfl⟩
  · apply Function.update_of_ne
    rintro rfl
    exact hi hj
  · rw [setStream_streams] at hst₁
    by_cases hi : i = j
    · subst hi
      rw [Function.update_self] at hst₁
      obtain rfl := Option.some.inj hst₁
      exact ⟨st, hst, hsems⟩
    · rw [Function.update_of_ne hi] at hst₁
      exact ⟨st₁, hst₁, rfl, rfl⟩

theorem Local.freeStream : Local J A S { S with streams := Function.update S.streams j none } ∨
    ¬J j := by
  by_cases hj : J j
  · left
    refine ⟨rfl, fun i hi => ?_, fun i st₁ hst₁ => ?_, fun _ _ => ⟨rfl, rfl⟩, fun _ _ => rfl⟩
    · apply Function.update_of_ne
      rintro rfl
      exact hi hj
    · by_cases hi : i = j
      · subst hi
        dsimp only at hst₁
        rw [Function.update_self] at hst₁
        exact absurd hst₁ (by simp)
      · dsimp only at hst₁
        rw [Function.update_of_ne hi] at hst₁
        exact ⟨st₁, hst₁, rfl, rfl⟩
  · exact .inr hj

/-- A slot of `A` changes. -/
theorem Local.setSem {semId : ℕ} {s : Sem} (h : A semId) : Local J A S (S.setSem semId s) := by
  refine ⟨rfl, fun _ _ => rfl, fun _ st' h => ⟨st', h, rfl, rfl⟩, fun i hi => ?_, fun _ _ => rfl⟩
  have hne : i ≠ semId := by
    rintro rfl
    exact hi h
  rw [setSem_sems, SemTable.setSem_sems_of_ne hne]
  exact ⟨rfl, rfl⟩

theorem Local.onSched (f : Sched → Sched) : Local J A S (S.onSched f) :=
  .of_same rfl rfl rfl rfl

theorem toNat_mem {semId : ℤ} (hpos : 0 ≤ semId) (h : A semId) : A (semId.toNat : ℤ) := by
  rwa [Int.toNat_of_nonneg hpos]

theorem semPost_local {semId : ℤ} {r : Int32} (hA : A semId)
    (h : S.semPost semId = some (r, S')) : Local J A S S' := by
  rcases semPost_cases h with ⟨rfl, -⟩ | ⟨⟨hpos, -⟩, -, pids, -, rfl⟩
  · exact .refl _
  · exact ((Local.setSem (toNat_mem hpos hA)).trans (.note fun _ _ => rfl)).trans (.onSched _)

theorem semDestroy_local {semId : ℤ} {r : Int32} (hA : A semId)
    (h : S.semDestroy semId = some (r, S')) : Local J A S S' := by
  obtain ⟨⟨hpos, -⟩, pids, -, rfl⟩ := semDestroy_cases h
  have hrelease : Local J A S { S with sems := S.sems.release semId.toNat } :=
    Local.setSem (toNat_mem hpos hA)
  exact (hrelease.trans (.note fun _ _ => rfl)).trans (.onSched _)

theorem semSetValue_local {semId : ℤ} {value r : Int32} (hA : A semId)
    (h : S.semSetValue semId value = some (r, S')) : Local J A S S' := by
  rcases semSetValue_cases h with rfl | ⟨⟨hpos, -⟩, _, pids, rfl⟩
  · exact .refl _
  · exact ((Local.setSem (toNat_mem hpos hA)).trans (.note fun _ _ => rfl)).trans (.onSched _)

/-- Falling asleep changes no value. -/
theorem fallAsleep_local (S : Machine) (pid : ℤ) (semId : ℕ) (k : AfterWait) :
    Local J A S (S.fallAsleep pid semId k) := by
  have hlist : Local J A S (S.enlist pid semId) := by
    unfold enlist
    split
    · refine (?_ : Local J A S (S.setSem semId _)).trans (.onSched _)
      refine ⟨rfl, fun _ _ => rfl, fun _ st' h => ⟨st', h, rfl, rfl⟩, fun i _ => ?_, fun _ _ => rfl⟩
      by_cases hi : i = semId
      · subst hi
        rw [setSem_sems, SemTable.setSem_sems_self]
        exact ⟨rfl, rfl⟩
      · rw [setSem_sems, SemTable.setSem_sems_of_ne hi]
        exact ⟨rfl, rfl⟩
    · exact .refl _
  exact (hlist.trans .setFrame).trans (.onSched _)

theorem takeOne_local {semId : ℕ} (hA : A semId) : Local J A S (S.takeOne pid semId) :=
  (Local.setSem hA).trans (.note fun _ _ => rfl)

theorem semWaitLoop_local {semId : ℕ} {k : AfterWait} {taken : Bool} (hA : A semId)
    (h : S.semWaitLoop pid semId k = some (taken, S')) : Local J A S S' := by
  rcases semWaitLoop_cases h with ⟨-, -, -, rfl⟩ | ⟨-, -, rfl⟩
  · exact fallAsleep_local S pid semId k
  · exact takeOne_local hA

theorem semWait_local {semId : ℤ} {k : AfterWait} {returned : Bool} (hA : A semId)
    (h : S.semWait pid semId k = some (returned, S')) : Local J A S S' := by
  rcases semWait_cases h with ⟨-, rfl⟩ | ⟨hpos, -, -, hloop⟩
  · exact .refl _
  · exact semWaitLoop_local (toNat_mem hpos hA) hloop

/-- What is recorded about a stream in `J` is not about the others. -/
theorem on_other {o : Obs} (hon : ∀ i, o.on i = true → i = j) (hj : J j) :
    ∀ i, ¬J i → o.on i = false := by
  intro i hi
  by_contra htrue
  rw [Bool.not_eq_false] at htrue
  exact hi (hon i htrue ▸ hj)

theorem takeByte_local {r : Reader} (hj : J r.stream) (hA : Serves J A S)
    (h : S.takeByte pid r = some S') : Local J A S S' := by
  have hnote : ∀ {M : Machine} {n m : ℤ} {nl : Bool}, Local J A M
      (M.note (.readReturned pid r.stream n m nl)) := Local.note (on_other (j := r.stream)
    (fun _ hi => (of_decide_eq_true hi).symm) hj)
  have htook : ∀ i byte, (Obs.took r.stream byte).on i = true → i = r.stream :=
    fun _ _ hi => (of_decide_eq_true hi).symm
  obtain ⟨st, hst, ⟨-, r₁, S₁, hpost, rfl⟩ | ⟨-, rfl⟩⟩ := takeByte_cases h
  · have hmoved : Local J A S (S.setStream r.stream st.advance) := .setStream hj hst ⟨rfl, rfl⟩
    have htake : Local J A S ((S.setStream r.stream st.advance).note
        (.took r.stream (st.buffer st.readPos))) :=
      hmoved.trans (.note (on_other (fun i hi => htook i _ hi) hj))
    have hposted := htake.trans (semPost_local (hA _ st hj hst).2 hpost)
    split
    · exact (hposted.trans .setFrame).trans hnote
    · exact hposted.trans .setFrame
  · have hended : Local J A S (S.setStream r.stream { st with eof := true }) :=
      Local.setStream hj hst ⟨rfl, rfl⟩
    exact (hended.trans .setFrame).trans hnote

theorem storeByte_local {w : Writer} (hj : J w.stream) (hA : Serves J A S)
    (h : S.storeByte pid w = some S') : Local J A S S' := by
  obtain ⟨st, byte, r₁, S₁, hst, -, hpost, rfl⟩ := storeByte_cases h
  have hstored : ∀ i, (Obs.stored w.stream byte).on i = true → i = w.stream :=
    fun _ hi => (of_decide_eq_true hi).symm
  have hmoved : Local J A S (S.setStream w.stream (st.put byte)) := .setStream hj hst ⟨rfl, rfl⟩
  have hstore : Local J A S ((S.setStream w.stream (st.put byte)).note (.stored w.stream byte)) :=
    hmoved.trans (.note (on_other (fun i hi => hstored i hi) hj))
  exact (hstore.trans (semPost_local (hA _ st hj hst).1 hpost)).trans .setFrame

theorem finishReadAt_local {pos : ℕ} (hj : J j) (h : S.finishReadAt pid j pos = some S') :
    Local J A S S' := by
  obtain ⟨st, hst, rfl⟩ := finishReadAt_cases h
  refine (Local.setStream hj hst ?_).trans .setFrame
  split <;> exact ⟨rfl, rfl⟩

theorem afterWait_local {k : AfterWait} (hj : ∀ i, k.stream = some i → J i) (hA : Serves J A S)
    (h : S.afterWait pid k = some S') : Local J A S S' := by
  cases k with
  | done => exact Option.some.inj h ▸ .setFrame
  | take r => exact takeByte_local (hj _ rfl) hA h
  | store w => exact storeByte_local (hj _ rfl) hA h
  | readAt stream pos => exact finishReadAt_local (hj _ rfl) h

theorem waitThen_local {semId : ℤ} {k : AfterWait} (hsem : A semId)
    (hj : ∀ i, k.stream = some i → J i) (hA : Serves J A S)
    (h : S.waitThen pid semId k = some S') : Local J A S S' := by
  rcases waitThen_cases h with ⟨S₁, hwait, hafter⟩ | hwait
  · have hfirst : Local J A S S₁ := semWait_local hsem hwait
    exact hfirst.trans (afterWait_local hj (hfirst.serves hA) hafter)
  · exact semWait_local hsem hwait

theorem readRound_local {r : Reader} (hj : J r.stream) (hA : Serves J A S)
    (h : S.readRound pid r = some S') : Local J A S S' := by
  rcases readRound_cases h with ⟨-, rfl⟩ | ⟨-, st, S₁, hst, htoken, hwait⟩
  · exact Local.setFrame.trans (Local.note (on_other (j := r.stream)
      (fun _ hi => (of_decide_eq_true hi).symm) hj))
  · have hread := (hA _ st hj hst).1
    have hfirst : Local J A S S₁ := by
      rcases htoken with ⟨-, rfl⟩ | ⟨-, r₁, hpost⟩
      · exact .refl _
      · exact semPost_local hread hpost
    refine hfirst.trans (waitThen_local hread (fun i hi => ?_) (hfirst.serves hA) hwait)
    exact Option.some.inj hi ▸ hj

theorem writeRound_local {w : Writer} (hj : J w.stream) (hA : Serves J A S)
    (h : S.writeRound pid w = some S') : Local J A S S' := by
  rcases writeRound_cases h with ⟨-, rfl⟩ | ⟨-, st, hst, hwait⟩
  · exact .setFrame
  · refine waitThen_local (hA _ st hj hst).2 (fun i hi => ?_) hA hwait
    exact Option.some.inj hi ▸ hj

theorem postTimes_local {semId : ℤ} {n : ℕ} (hA : A semId)
    (h : postTimes n S semId = some S') : Local J A S S' := by
  induction n generalizing S with
  | zero => exact Option.some.inj h ▸ .refl S
  | succ n ih =>
      simp only [postTimes, Option.bind_eq_bind, Option.bind_eq_some_iff, Prod.exists] at h
      obtain ⟨r, S₁, hpost, hrest⟩ := h
      exact (semPost_local hA hpost).trans (ih hrest)

theorem dropEnd_sems (st : Stream) (mode : FdMode) :
    (st.dropEnd mode).readSem = st.readSem ∧ (st.dropEnd mode).writeSem = st.writeSem := by
  cases mode <;> exact ⟨rfl, rfl⟩

theorem closeFD_local {r : Int32}
    (hj : ∀ i, S.Closable fd → (S.fileDescriptors fd).resource = some i → J i) (hA : Serves J A S)
    (h : S.closeFD fd = some (r, S')) : Local J A S S' := by
  rcases closeFD_cases h with ⟨-, -, rfl⟩ | ⟨hgood, -, id, st, hid, hst, ⟨-, rfl⟩ | ⟨-, hend⟩⟩
  · exact .refl _
  · exact Local.setStream (hj id hgood hid) hst ⟨rfl, rfl⟩
  · have hid := hj id hgood hid
    obtain ⟨hread, hwrite⟩ := hA id st hid hst
    obtain ⟨-, S₁, S₂, hsignal, hfree, rfl⟩ := closeEnd_cases hend
    obtain ⟨hsame, hsame'⟩ := dropEnd_sems st (S.fileDescriptors fd).mode
    generalize st.dropEnd (S.fileDescriptors fd).mode = st' at *
    rw [← hsame] at hread
    rw [← hsame'] at hwrite
    have hsignalled : Local J A S S₁ := by
      rcases signalEof_cases hsignal with ⟨-, hposts⟩ | ⟨-, rfl⟩
      · have hended : Local J A S (S.setStream id { st' with eof := true }) :=
          Local.setStream hid hst ⟨hsame, hsame'⟩
        exact hended.trans (postTimes_local hread hposts)
      · exact Local.setStream hid hst ⟨hsame, hsame'⟩
    have hfreed : Local J A S₁ S₂ := by
      rcases freeStream_cases hfree with ⟨-, _, M, _, M', hone, htwo, rfl⟩ | ⟨-, rfl⟩
      · have hgone := (Local.freeStream (J := J) (A := A) (S := M') (j := id)).resolve_right
          fun hno => hno hid
        exact ((semDestroy_local hread hone).trans (semDestroy_local hwrite htwo)).trans hgone
      · exact .refl _
    exact (hsignalled.trans hfreed).trans (.of_same rfl rfl rfl rfl)

/-! ## Streams are named only after they are made -/

variable {nodes blocks : ℕ → Bool}

/-- A new pipe takes the next stream. -/
theorem createPipe_next {fresh : ℕ → UInt8} {r : Int32}
    (h : S.createPipe pid fresh = some (r, S')) : r = -1 ∧ S'.nextStream = S.nextStream ∨
      r = 0 ∧ S'.nextStream = S.nextStream + 1 := by
  rcases createPipe_cases h with ⟨hr, rfl | ⟨fd, -, rfl⟩⟩ |
    ⟨hr, fd1, fd2, _, _, S₁, S₂, -, hread, hwrite, rfl⟩
  · exact .inl ⟨hr, rfl⟩
  · exact .inl ⟨hr, rfl⟩
  · exact .inr ⟨hr, ((semCreate_files hread).trans (semCreate_files hwrite)).2.2⟩

theorem setOpen_resource (S : Machine) (fd fd' : ℤ) (isOpen : Bool) :
    ((S.setOpen fd' isOpen).fileDescriptors fd).resource = (S.fileDescriptors fd).resource := by
  rw [setOpen_fileDescriptors]
  by_cases hfd : fd = fd'
  · subst hfd
    rw [Function.update_self]
  · rw [Function.update_of_ne hfd]

theorem closeFD_resource {r : Int32} {fd' : ℤ} (h : S.closeFD fd' = some (r, S')) :
    (S'.fileDescriptors fd).resource = (S.fileDescriptors fd).resource := by
  rcases closeFD_fds h with ⟨-, heq⟩ | ⟨-, heq⟩
  · rw [heq]
  · rw [heq, setOpen_resource]

theorem Aside.local (h : Aside S S') : Local J (fun _ => True) S S' := by
  obtain ⟨⟨-, hstreams, hnext⟩, -, hhistory, -⟩ := h
  refine ⟨hnext, fun i _ => by rw [hstreams], fun i st' hst' => ⟨st', ?_, rfl, rfl⟩,
    fun i hi => absurd trivial hi, fun i _ => hhistory i⟩
  rwa [hstreams] at hst'

theorem resource_some (h : S.resource fd = some i) :
    (S.fileDescriptors fd).resource = some i := by
  unfold Machine.resource at h
  split at h
  · exact h
  · exact absurd h (by simp)

/-- **A step only changes streams that are named**, unless it makes one. -/
theorem Uses.local (h : S.Uses c e S')
    (hfds : ∀ fd i, (S.fileDescriptors fd).resource = some i → J i)
    (hframe : ∀ i, (S.frames c).stream = some i → J i) :
    (∃ fresh r, S.createPipe c fresh = some (r, S')) ∨ Local J (fun _ => True) S S' := by
  have hall : ∀ M, Serves J (fun _ => True) M := fun _ _ _ _ _ => ⟨trivial, trivial⟩
  have hclose : ∀ {M M' : Machine} {fd : ℤ} {r : Int32},
      (∀ fd i, (M.fileDescriptors fd).resource = some i → J i) →
        M.closeFD fd = some (r, M') → Local J (fun _ => True) M M' := fun hM hcall =>
    closeFD_local (fun i _ hi => hM _ i hi) (hall _) hcall
  cases h with
  | semWait hwait =>
      have hnone : ∀ i, AfterWait.done.stream = some i → J i := fun _ hi =>
        absurd hi (by simp [AfterWait.stream])
      exact .inr (waitThen_local trivial hnone (hall S) hwait)
  | semPost hpost => exact .inr (semPost_local trivial hpost)
  | semSetValue hset => exact .inr (semSetValue_local trivial hset)
  | semDestroy hdestroy => exact .inr (semDestroy_local trivial hdestroy)
  | @pipe fresh r _ hpipe => exact .inl ⟨fresh, r, hpipe⟩
  | close hcall => exact .inr (hclose hfds hcall)
  | @kill pid r₁ r₂ S₁ S₂ _ halive hin hout hend =>
      right
      have hstart : Local J (fun _ => True) S (S.killStart pid .leave) :=
        (Aside.killStart S pid .leave).local
      have hfirst : Local J (fun _ => True) (S.killStart pid .leave) S₁ := hclose hfds hin
      have hsecond : Local J (fun _ => True) S₁ S₂ :=
        hclose (fun fd i hi => hfds fd i ((closeFD_resource hin).symm.trans hi)) hout
      exact ((hstart.trans hfirst).trans hsecond).trans hend.local
  | closeIn hf hcall => exact .inr ((hclose hfds hcall).trans .setFrame)
  | closeOut hf hcall => exact .inr ((hclose hfds hcall).trans .setFrame)
  | read hread =>
      rcases readFromFD_cases hread with rfl | ⟨-, stream, -, rfl⟩
      · exact .inr (.refl _)
      · exact .inr .setFrame
  | write hwrite =>
      rcases writeToFD_cases hwrite with ⟨-, rfl⟩ | ⟨stream, st, hstream, hst, rfl⟩
      · exact .inr (.refl _)
      · have hset : Local J (fun _ => True) S (S.setStream stream { st with eof := false }) :=
          .setStream (hfds _ stream (resource_some hstream)) hst ⟨rfl, rfl⟩
        exact .inr (hset.trans .setFrame)
  | readAt hread =>
      rcases readFromFDAt_cases hread
        with rfl | ⟨-, stream, st, hstream, -, ⟨-, hwait⟩ | ⟨-, hfinish⟩⟩
      · exact .inr (.refl _)
      · refine .inr (waitThen_local trivial (fun i hi => ?_) (hall S) hwait)
        exact hfds _ i (hstream.trans hi)
      · exact .inr (finishReadAt_local (hfds _ _ hstream) hfinish)
  | reading hf hread => exact .inr (readRound_local (hframe _ (hf ▸ rfl)) (hall S) hread)
  | writing hf hwrite => exact .inr (writeRound_local (hframe _ (hf ▸ rfl)) (hall S) hwrite)
  | woken hf hloop hnext =>
      have hfirst := semWaitLoop_local (J := J) (A := fun _ => True) trivial hloop
      rcases hnext with ⟨-, rfl⟩ | ⟨-, hafter⟩
      · exact .inr hfirst
      · exact .inr (hfirst.trans (afterWait_local (fun i hi => hframe i (hf ▸ hi)) (hall _) hafter))

theorem step_next (h : S.Step e S') : S.nextStream ≤ S'.nextStream := by
  rcases step_uses h with haside | ⟨c, -, huses⟩
  · exact haside.files.2.2.ge
  · rcases huses.local (J := fun _ => True) (fun _ _ _ => trivial) (fun _ _ => trivial) with
      ⟨fresh, r, hpipe⟩ | hlocal
    · rcases createPipe_next hpipe with ⟨-, heq⟩ | ⟨-, heq⟩
      · exact heq.ge
      · exact heq ▸ Nat.le_succ _
    · exact hlocal.next.ge

/-- A new pipe has no history. -/
theorem createPipe_history {fresh : ℕ → UInt8} {r : Int32}
    (h : S.createPipe pid fresh = some (r, S')) (i : ℕ) : S'.history i = S.history i := by
  have hcreate : ∀ {M M' : Machine} {name : CString} {value : Int32} {semId : ℤ},
      M.semCreate pid name value = (semId, M') → M'.history i = M.history i := by
    intro M M' name value semId hM
    rcases semCreate_free hM with ⟨-, rfl⟩ | ⟨_, -, -, -, -, -, haside⟩
    · rfl
    · exact haside.history i
  rcases createPipe_cases h with ⟨-, rfl | ⟨fd, -, rfl⟩⟩ |
    ⟨-, fd1, fd2, _, _, S₁, S₂, -, hread, hwrite, rfl⟩
  · rfl
  · rfl
  · change S₂.history i = S.history i
    rw [hcreate hwrite, hcreate hread]
    rfl

theorem createPipe_resource {fresh : ℕ → UInt8} {r : Int32}
    (h : S.createPipe pid fresh = some (r, S'))
    (hi : (S'.fileDescriptors fd).resource = some i) :
    (S.fileDescriptors fd).resource = some i ∨ i = S.nextStream ∧ i < S'.nextStream := by
  rcases createPipe_fds h with ⟨-, heq | ⟨fd₁, -, heq⟩⟩ | ⟨hr, fd1, fd2, -, heq⟩
  · exact .inl (heq ▸ hi)
  · rw [heq, setOpen_resource] at hi
    exact .inl hi
  · have hnew : some S.nextStream = some i → i = S.nextStream ∧ i < S'.nextStream := by
      intro hsome
      obtain rfl := Option.some.inj hsome
      rcases createPipe_next h with ⟨hr', -⟩ | ⟨-, hnext⟩
      · exact absurd (hr.symm.trans hr') (by decide)
      · exact ⟨rfl, hnext ▸ Nat.lt_succ_self _⟩
    rw [heq] at hi
    dsimp only [withEnds] at hi
    by_cases hsecond : fd = fd2
    · subst hsecond
      rw [Function.update_self] at hi
      exact .inr (hnew hi)
    · rw [Function.update_of_ne hsecond] at hi
      by_cases hfirst : fd = fd1
      · subst hfirst
        rw [Function.update_self] at hi
        exact .inr (hnew hi)
      · rw [Function.update_of_ne hfirst, setOpen_resource, setOpen_resource] at hi
        exact .inl hi

/-- A step leads descriptors to no stream but a new one. -/
theorem step_resource (h : S.Step e S') (hi : (S'.fileDescriptors fd).resource = some i) :
    (S.fileDescriptors fd).resource = some i ∨ i = S.nextStream ∧ i < S'.nextStream := by
  rcases step_table h with heq | ⟨c, -, htable⟩
  · exact .inl (heq ▸ hi)
  · cases htable with
    | pipe hpipe => exact createPipe_resource hpipe hi
    | close hclose => exact .inl ((closeFD_resource hclose).symm.trans hi)
    | @kill pid r₁ r₂ S₁ S₂ _ halive hin hout hend =>
        have hfiles : S'.fileDescriptors = S₂.fileDescriptors := by
          rcases hend with rfl | rfl
          · exact (killWake_files S₂ pid).1
          · exact (killWake_files S₂ pid).1
        rw [hfiles, closeFD_resource hout] at hi
        exact .inl ((closeFD_resource hin).symm.trans hi)
    | closeIn hf hclose => exact .inl ((closeFD_resource hclose).symm.trans hi)
    | closeOut hf hclose => exact .inl ((closeFD_resource hclose).symm.trans hi)

/-- Whatever names a stream names one that was made, and `STDIN` has the first. -/
structure Named (S : Machine) : Prop where
  first : 0 < S.nextStream
  resource : ∀ fd i, (S.fileDescriptors fd).resource = some i → i < S.nextStream
  frames : ∀ q i, (S.frames q).stream = some i → i < S.nextStream
  history : ∀ i, S.nextStream ≤ i → S.history i = []

theorem named_step (h : S.Named) (hstep : S.Step e S') : S'.Named := by
  have hnext := step_next hstep
  refine ⟨h.first.trans_le hnext, fun fd i hi => ?_, fun q i hi => ?_, fun i hi => ?_⟩
  · rcases step_resource hstep hi with hi | ⟨-, hlt⟩
    · exact (h.resource fd i hi).trans_le hnext
    · exact hlt
  · apply lt_of_lt_of_le ?_ hnext
    obtain ⟨c, hmoves⟩ := step_moves hstep
    rcases hmoves q with heq | hidle | ⟨rfl, hfollows⟩
    · exact h.frames q i (heq ▸ hi)
    · exact absurd (hidle.stream.symm.trans hi) (by simp)
    · generalize S'.frames q = f at hi hfollows
      cases hfollows with
      | idle hidle => exact absurd (hidle.stream.symm.trans hi) (by simp)
      | semWait => exact absurd hi (by simp [Frame.stream, AfterWait.stream])
      | read hfd hres => exact h.resource _ i ((resource_some hres).trans hi)
      | write hres => exact h.resource _ i ((resource_some hres).trans hi)
      | readAt hres => exact h.resource _ i (Option.some.inj hi ▸ hres)
      | take hf => exact h.frames q i (hf ▸ hi)
      | taken n hf =>
          rcases hf with hf | ⟨semId, hf⟩
          · exact h.frames q i (hf ▸ hi)
          · exact h.frames q i (hf ▸ hi)
      | store hf => exact h.frames q i (hf ▸ hi)
      | stored n hf =>
          rcases hf with hf | ⟨semId, hf⟩
          · exact h.frames q i (hf ▸ hi)
          · exact h.frames q i (hf ▸ hi)
  · have hold := h.history i (hnext.trans hi)
    rcases step_uses hstep with haside | ⟨c, -, huses⟩
    · exact (haside.history i).trans hold
    · rcases huses.local h.resource (h.frames c) with ⟨fresh, r, hpipe⟩ | hlocal
      · exact (createPipe_history hpipe i).trans hold
      · exact (hlocal.history i (not_lt.mpr (hnext.trans hi))).trans hold

/-- At boot every process is in user mode. -/
theorem boot_frames (q : ℤ) : (boot nodes blocks).frames q = .user := by
  have hcreate : ∀ (M : Machine) (params : Option CreationParameters), M.frames q = .user →
      (M.createProcess params).2.frames q = .user := by
    intro M params hM
    unfold Machine.createProcess
    cases params with
    | none => exact hM
    | some params =>
        dsimp only
        split
        · exact hM
        · split
          · exact hM
          · split
            · exact hM
            · split
              · exact hM
              · rename_i pid _
                by_cases hq : q = pid
                · subst hq
                  exact Function.update_self _ _ _
                · exact (Function.update_of_ne hq _ _).trans hM
  exact hcreate _ _ (hcreate _ _ rfl)

theorem named_boot : (boot nodes blocks).Named := by
  have hfiles : SameFiles (off nodes blocks) (boot nodes blocks) := by
    unfold boot
    exact (createProcess_files _ _).trans (createProcess_files _ _)
  refine ⟨?_, fun fd i hi => ?_, fun q i hi => ?_, fun i _ => ?_⟩
  · rw [hfiles.2.2]
    exact Nat.one_pos
  · rw [hfiles.1] at hi
    rw [hfiles.2.2]
    simp only [off] at hi ⊢
    split_ifs at hi
    exact Option.some.inj hi ▸ Nat.one_pos
  · rw [boot_frames] at hi
    exact absurd hi (by simp [Frame.stream])
  · unfold boot
    exact ((Aside.createProcess _ _).trans (.createProcess _ _)).history i

theorem named_run (h : Reaches Step always (boot nodes blocks) S) : S.Named :=
  h.invariant named_boot fun _ _ _ hM _ hstep => named_step hM hstep

end Machine

end BareKernel.Kernel
