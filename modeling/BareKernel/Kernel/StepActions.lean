import BareKernel.Kernel.Actions

/-!
# The actions of every step

Each function of the kernel is taken apart into actions. `closing` actions only
touch semaphores, those who wait in them, and files; `Allowed` bounds the other
actions of a step by its event.
-/

namespace BareKernel.Kernel

open ProcessState Runs

namespace Machine

variable {S S' S₁ : Machine} {a : Act} {c pid : ℤ} {semId : ℕ} {P D : ℕ → Prop}

/-- A sequence of actions of some kinds. -/
def Path (ok : Act → Prop) : Machine → Machine → Prop := Reaches Does fun _ a => ok a

variable {ok ok' : Act → Prop}

theorem Path.refl (S : Machine) : Path ok S S := Reaches.refl S

theorem Path.one (ha : ok a) (h : S.Does a S') : Path ok S S' := (Reaches.refl S).tail ha h

theorem Path.trans (h : Path ok S S₁) (h' : Path ok S₁ S') : Path ok S S' :=
  Relation.ReflTransGen.trans h h'

theorem Path.tail (h : Path ok S S₁) (ha : ok a) (hd : S₁.Does a S') : Path ok S S' :=
  Reaches.tail h ha hd

theorem Path.mono (h : Path ok S S') (himp : ∀ a, ok a → ok' a) : Path ok' S S' :=
  Reaches.mono h fun _ a => himp a

/-- What every action of a kind keeps, a path of this kind keeps. -/
theorem Path.invariant {I : Machine → Prop} (h : Path ok S S') (hS : I S)
    (hstep : ∀ S a S', I S → ok a → S.Does a S' → I S') : I S' :=
  Reaches.invariant h hS hstep

/-- A sequence of actions that can only give up the CPU in the last one. -/
def Ends (ok : Act → Prop) (S S' : Machine) : Prop :=
  ∃ M, Path (fun a => ok a ∧ a.quiet) S M ∧ (S' = M ∨ ∃ a, ok a ∧ ¬a.quiet ∧ M.Does a S')

theorem Ends.refl (S : Machine) : Ends ok S S := ⟨S, Path.refl S, .inl rfl⟩

theorem Ends.one (ha : ok a) (h : S.Does a S') : Ends ok S S' := by
  by_cases hquiet : a.quiet
  · exact ⟨S', Path.one ⟨ha, hquiet⟩ h, .inl rfl⟩
  · exact ⟨S, Path.refl S, .inr ⟨a, ha, hquiet, h⟩⟩

/-- Quiet actions come first. -/
theorem Ends.after (h : Path ok' S S₁) (hquiet : ∀ a, ok' a → ok a ∧ a.quiet)
    (hends : Ends ok S₁ S') : Ends ok S S' := by
  obtain ⟨M, hpath, hlast⟩ := hends
  exact ⟨M, (h.mono hquiet).trans hpath, hlast⟩

theorem Ends.of_path (h : Path ok' S S') (hquiet : ∀ a, ok' a → ok a ∧ a.quiet) : Ends ok S S' :=
  Ends.after h hquiet (Ends.refl S')

theorem Ends.mono (h : Ends ok S S') (himp : ∀ a, ok a → ok' a) : Ends ok' S S' := by
  obtain ⟨M, hpath, hlast⟩ := h
  refine ⟨M, hpath.mono fun a ha => ⟨himp a ha.1, ha.2⟩, hlast.imp_right ?_⟩
  rintro ⟨a, ha, hd⟩
  exact ⟨a, himp a ha, hd⟩

theorem Ends.path (h : Ends ok S S') : Path ok S S' := by
  obtain ⟨M, hpath, rfl | ⟨a, ha, -, hd⟩⟩ := h
  · exact hpath.mono fun _ => And.left
  · exact (hpath.mono fun _ => And.left).tail ha hd

/-- Quiet actions leave the CPU to who has it. -/
theorem Does.quiet_current (hd : S.Does a S') (hquiet : a.quiet) :
    S'.sched.currentProcess = S.sched.currentProcess := by
  cases hd with
  | switch => exact hquiet.elim
  | block => exact hquiet.elim
  | waitBlock => exact hquiet.elim
  | sleep => exact hquiet.elim
  | unblock => exact Sched.unblockProcess_currentProcess
  | create => exact Sched.schedule_currentProcess
  | killWake =>
      unfold Machine.killWake
      dsimp only
      split
      · rfl
      · exact Sched.unblockProcess_currentProcess
  | wake => exact Sched.unblockProcess_currentProcess
  | _ => rfl

/-! ## Closing actions -/

/-- Posts to semaphores of `P`, the destruction of those of `D`, and changes of files. -/
def closing (P D : ℕ → Prop) : Act → Prop
  | .post semId | .wake semId => P semId
  | .destroy semId => D semId
  | .files => True
  | _ => False

/-- The process that has the CPU keeps it, and no frame changes. -/
def Calm (S S' : Machine) : Prop :=
  S'.sched.currentProcess = S.sched.currentProcess ∧ S'.frames = S.frames

theorem Path.calm (h : Path (closing P D) S S') : Calm S S' := by
  refine h.invariant (I := Calm S) ⟨rfl, rfl⟩ fun S₁ a S₂ hcalm hok hd => ?_
  obtain ⟨hcur, hframes⟩ := hcalm
  cases hd <;> simp only [closing] at hok
  case wake => exact ⟨by simpa [wakeFirst] using hcur, hframes⟩
  all_goals exact ⟨hcur, hframes⟩

theorem setSem_same (S : Machine) (semId : ℕ) : S.setSem semId (S.sems.sems semId) = S := by
  unfold setSem SemTable.setSem
  rw [Function.update_eq_self]

/-- Waking the first waiters of a queue, one after another. -/
theorem wakeAll_path (hP : P semId) : ∀ {pids rest : List ℤ} {S : Machine},
    S.sched.currentProcess = some c → (S.sems.sems semId).waiting = .queue (pids ++ rest) →
      Path (closing P D) S
        ((S.setSem semId { S.sems.sems semId with waiting := .queue rest }).wakeAll pids)
  | [], rest, S, _, hq => by
      have hsame : { S.sems.sems semId with waiting := .queue rest } = S.sems.sems semId := by
        rw [← List.nil_append rest, ← hq]
      rw [hsame, setSem_same]
      exact Path.refl S
  | pid :: pids, rest, S, hc, hq => by
      have hfirst : S.Does (.wake semId) (S.wakeFirst semId pid (pids ++ rest)) := .wake hc hq
      have hwaiting : ((S.wakeFirst semId pid (pids ++ rest)).sems.sems semId).waiting =
          .queue (pids ++ rest) := by simp [wakeFirst]
      have hrest := wakeAll_path hP (by simpa [wakeFirst] using hc) hwaiting
      refine (Path.one hP hfirst).trans ?_
      have heq : ((S.setSem semId { S.sems.sems semId with waiting := .queue rest }).wakeAll
          (pid :: pids)) = (((S.wakeFirst semId pid (pids ++ rest)).setSem semId
          { (S.wakeFirst semId pid (pids ++ rest)).sems.sems semId with
            waiting := .queue rest }).wakeAll pids) := by
        simp [wakeAll, wakeFirst, onSched, setSem, SemTable.setSem]
      rw [heq]
      exact hrest

theorem toNat_lt_maxSems {semId : ℤ} (h : ¬(semId < 0 ∨ semId ≥ maxSems)) :
    semId.toNat < maxSems := by
  simp only [maxSems] at *
  omega

/-- A queue that is not freed is null, and then nobody is in it, or holds its
elements. -/
theorem elements_some {w : WaitQueue} {pids : List ℤ} (h : w.elements = some pids) :
    (w = .null ∧ pids = []) ∨ w = .queue pids := by
  cases w with
  | null => exact .inl ⟨rfl, by simpa [WaitQueue.elements] using h.symm⟩
  | freed => simp [WaitQueue.elements] at h
  | queue q =>
      obtain rfl : q = pids := by simpa [WaitQueue.elements] using h
      exact .inr rfl

@[simp] theorem wakeAll_sems (S : Machine) (pids : List ℤ) : (S.wakeAll pids).sems = S.sems := rfl

/-- Waking the first waiters, when the queue may be null. -/
theorem wakeSome_path (hP : P semId) {pids : List ℤ} (n : ℕ)
    (hc : S.sched.currentProcess = some c)
    (hq : (S.sems.sems semId).waiting.elements = some pids) :
    Path (closing P D) S ((S.setSem semId { S.sems.sems semId with
      waiting := (S.sems.sems semId).waiting.drop n }).wakeAll (pids.take n)) := by
  rcases elements_some hq with ⟨hnull, rfl⟩ | hqueue
  · have hsame : { S.sems.sems semId with waiting := (S.sems.sems semId).waiting.drop n } =
        S.sems.sems semId := by
      rw [hnull, WaitQueue.drop, ← hnull]
      simp
    rw [hsame, setSem_same, List.take_nil]
    exact Path.refl S
  · rw [hqueue]
    exact wakeAll_path hP hc (by rw [List.take_append_drop]; exact hqueue)

theorem bump_drop (S : Machine) (semId n : ℕ) :
    (S.bump semId).setSem semId { (S.bump semId).sems.sems semId with
      waiting := ((S.bump semId).sems.sems semId).waiting.drop n } =
    (S.setSem semId { S.sems.sems semId with
      value := (S.sems.sems semId).value + 1
      waiting := (S.sems.sems semId).waiting.drop n }).note
      (.semPosted S.sched.currentProcess semId (S.sems.sems semId).value) := by
  simp [bump, setSem, SemTable.setSem, note]

theorem putValue_drop (S : Machine) (semId n : ℕ) (value : Int32) :
    (S.putValue semId value).setSem semId { (S.putValue semId value).sems.sems semId with
      waiting := ((S.putValue semId value).sems.sems semId).waiting.drop n } =
    (S.setSem semId { S.sems.sems semId with
      value := value
      waiting := (S.sems.sems semId).waiting.drop n }).note (.semSet semId value) := by
  simp [putValue, setSem, SemTable.setSem, note]

theorem semPost_path {semId : ℤ} {r : Int32} (hP : P semId.toNat)
    (h : S.semPost semId = some (r, S')) (hc : S.sched.currentProcess = some c) :
    Path (closing P D) S S' := by
  unfold semPost at h
  split at h
  · simp only [Option.some.injEq, Prod.mk.injEq] at h
    rw [← h.2]
    exact Path.refl S
  · rename_i hrange
    dsimp only at h
    split at h
    · simp only [Option.some.injEq, Prod.mk.injEq] at h
      rw [← h.2]
      exact Path.refl S
    · rename_i hused
      split at h
      · simp at h
      · rename_i pids hq
        simp only [Option.some.injEq, Prod.mk.injEq] at h
        rw [← h.2]
        have hpost : S.Does (.post semId.toNat) _ :=
          .post (toNat_lt_maxSems hrange) (by simpa using hused)
        have hwake := wakeSome_path (D := D) hP pids.length (S := S.bump semId.toNat) hc
          (by simpa [bump] using hq)
        rw [List.take_length, bump_drop] at hwake
        exact (Path.one hP hpost).trans hwake

theorem semDestroy_path {semId : ℤ} {r : Int32} (hP : P semId.toNat) (hD : D semId.toNat)
    (hc : S.sched.currentProcess = some c) (h : S.semDestroy semId = some (r, S')) :
    Path (closing P D) S S' := by
  unfold semDestroy at h
  split at h
  · simp at h
  · rename_i hrange
    split at h
    · simp at h
    · rename_i pids hq
      simp only [Option.some.injEq, Prod.mk.injEq] at h
      rw [← h.2]
      have hwake := wakeSome_path (D := D) hP pids.length hc hq
      rw [List.take_length] at hwake
      refine hwake.tail (a := .destroy semId.toNat) hD ?_
      have hempty : ((S.setSem semId.toNat { S.sems.sems semId.toNat with
          waiting := (S.sems.sems semId.toNat).waiting.drop pids.length }).wakeAll
          pids).sems.sems semId.toNat = { S.sems.sems semId.toNat with
          waiting := (S.sems.sems semId.toNat).waiting.drop pids.length } := by
        simp
      have hdone : (((S.setSem semId.toNat { S.sems.sems semId.toNat with
          waiting := (S.sems.sems semId.toNat).waiting.drop pids.length }).wakeAll
          pids).sems.sems semId.toNat).waiting.elements = some [] := by
        rw [hempty]
        rcases elements_some hq with ⟨hnull, _⟩ | hqueue
        · simp [hnull, WaitQueue.drop, WaitQueue.elements]
        · simp [hqueue, WaitQueue.drop, WaitQueue.elements]
      convert Does.destroy (toNat_lt_maxSems hrange) hdone using 1
      rcases elements_some hq with ⟨hnull, _⟩ | hqueue
      · simp [releaseSem, SemTable.release, wakeAll, onSched, note, setSem, SemTable.setSem, hnull,
          WaitQueue.drop]
      · simp [releaseSem, SemTable.release, wakeAll, onSched, note, setSem, SemTable.setSem, hqueue,
          WaitQueue.drop, WaitQueue.free]

theorem semSetValue_path {semId : ℤ} {value r : Int32} (hP : P semId.toNat)
    (hc : S.sched.currentProcess = some c) (h : S.semSetValue semId value = some (r, S')) :
    Path (fun a => closing P D a ∨ a = .set semId.toNat value) S S' := by
  unfold semSetValue at h
  split at h
  · simp only [Option.some.injEq, Prod.mk.injEq] at h
    rw [← h.2]
    exact Path.refl S
  · rename_i hrange
    rw [← or_assoc, not_or, Int32.not_lt] at hrange
    dsimp only at h
    split at h
    · simp only [Option.some.injEq, Prod.mk.injEq] at h
      rw [← h.2]
      exact Path.refl S
    · rename_i hused
      have hset : S.Does (.set semId.toNat value) (S.putValue semId.toNat value) :=
        .set (toNat_lt_maxSems hrange.1) (by simpa using hused) hrange.2
      split at h
      · split at h
        · simp at h
        · rename_i pids hq
          simp only [Option.some.injEq, Prod.mk.injEq] at h
          rw [← h.2]
          have hwake :=
            wakeSome_path (D := D) hP (value - (S.sems.sems semId.toNat).value).toInt.toNat
            (S := S.putValue semId.toNat value) hc (by simpa [putValue] using hq)
          rw [putValue_drop] at hwake
          exact (Path.one (.inr rfl) hset).trans (hwake.mono fun _ => .inl)
      · simp only [Option.some.injEq, Prod.mk.injEq] at h
        rw [← h.2]
        exact Path.one (.inr rfl) hset

/-! ## Closing a descriptor -/

theorem postTimes_path (hP : ∀ semId, P semId) {semId : ℤ} : ∀ {n : ℕ} {S : Machine},
    S.sched.currentProcess = some c → postTimes n S semId = some S' → Path (closing P D) S S'
  | 0, S, _, h => by
      simp only [postTimes, Option.some.injEq] at h
      rw [h]
      exact Path.refl _
  | n + 1, S, hc, h => by
      simp only [postTimes, Option.bind_eq_bind, Option.bind_eq_some_iff, Prod.exists] at h
      obtain ⟨r, S₁, hpost, hrest⟩ := h
      have hfirst := semPost_path (D := D) (hP _) hpost hc
      exact hfirst.trans (postTimes_path hP (hfirst.calm.1.trans hc) hrest)

theorem files_path {fileDescriptors : ℤ → FD} {streams : ℕ → Option Stream} {nextStream : ℕ} :
    Path (closing P D) S { S with fileDescriptors, streams, nextStream } :=
  Path.one (a := .files) trivial .files

theorem setStream_path (S : Machine) (id : ℕ) (st : Stream) :
    Path (closing P D) S (S.setStream id st) := files_path

theorem setOpen_path (S : Machine) (fd : ℤ) (isOpen : Bool) :
    Path (closing P D) S (S.setOpen fd isOpen) := files_path

theorem signalEof_path (hP : ∀ semId, P semId) {id : ℕ} {st : Stream}
    (hc : S.sched.currentProcess = some c) (h : S.signalEof id st = some S') :
    Path (closing P D) S S' := by
  unfold signalEof at h
  split at h
  · exact (setStream_path S id _).trans (postTimes_path hP hc h)
  · rw [← Option.some.inj h]
    exact setStream_path S id _

theorem freeStream_path (hP : ∀ semId, P semId) (hD : ∀ semId, D semId) {id : ℕ} {st : Stream}
    (hc : S.sched.currentProcess = some c) (h : S.freeStream id st = some S') :
    Path (closing P D) S S' := by
  unfold freeStream at h
  split at h
  · simp only [Option.bind_eq_bind, Option.bind_eq_some_iff, Option.some.injEq, Prod.exists] at h
    obtain ⟨_, S₁, hread, _, S₂, hwrite, rfl⟩ := h
    have hread := semDestroy_path (hP _) (hD _) hc hread
    have hwrite := semDestroy_path (hP _) (hD _) (hread.calm.1.trans hc) hwrite
    exact (hread.trans hwrite).trans files_path
  · rw [← Option.some.inj h]
    exact Path.refl _

theorem closeEnd_path (hP : ∀ semId, P semId) (hD : ∀ semId, D semId) {fd : ℤ} {id : ℕ}
    {st : Stream} {r : Int32}
    (hc : S.sched.currentProcess = some c) (h : S.closeEnd fd id st = some (r, S')) :
    Path (closing P D) S S' := by
  simp only [closeEnd, Option.bind_eq_bind, Option.bind_eq_some_iff, Option.some.injEq,
    Prod.mk.injEq] at h
  obtain ⟨S₁, hsignal, S₂, hfree, -, rfl⟩ := h
  have hfirst := signalEof_path (D := D) hP hc hsignal
  have hsecond := freeStream_path hP hD (hfirst.calm.1.trans hc) hfree
  exact (hfirst.trans hsecond).trans (setOpen_path S₂ fd false)

theorem closeFD_path (hP : ∀ semId, P semId) (hD : ∀ semId, D semId) {fd : ℤ} {r : Int32}
    (hc : S.sched.currentProcess = some c) (h : S.closeFD fd = some (r, S')) :
    Path (closing P D) S S' := by
  unfold closeFD at h
  dsimp only at h
  split at h
  · simp only [Option.some.injEq, Prod.mk.injEq] at h
    rw [← h.2]
    exact Path.refl S
  · simp only [Option.bind_eq_bind, Option.bind_eq_some_iff] at h
    obtain ⟨id, -, st, -, h⟩ := h
    split at h
    · simp only [Option.some.injEq, Prod.mk.injEq] at h
      rw [← h.2]
      exact setStream_path S id _
    · exact closeEnd_path hP hD hc h

/-! ## Waiting on a semaphore, reading and writing -/

/-- Actions of a process that reads, writes or waits on a semaphore. -/
def atWork (pid : ℤ) : Act → Prop
  | .post _ | .wake _ | .files | .moved _ => True
  | .sleep p _ _ | .take p _ | .frame p => p = pid
  | _ => False

/-- Those of them with which it keeps the CPU. -/
def atWorkQuiet (pid : ℤ) (a : Act) : Prop := atWork pid a ∧ a.quiet

theorem closing_atWork (h : closing P (fun _ => False) a) : atWorkQuiet pid a := by
  cases a <;> simp_all [closing, atWorkQuiet, atWork, Act.quiet]

/-- The caller falls asleep, or takes one. -/
theorem semWaitLoop_cases {k : AfterWait} {taken : Bool}
    (h : S.semWaitLoop pid semId k = some (taken, S')) :
    (taken = false ∧ (S.sems.sems semId).value = 0 ∧ (S.sems.sems semId).waiting ≠ .freed ∧
      S' = S.fallAsleep pid semId k) ∨
    (taken = true ∧ (S.sems.sems semId).value ≠ 0 ∧ S' = S.takeOne pid semId) := by
  unfold semWaitLoop at h
  dsimp only at h
  split at h
  · rename_i hzero
    left
    split at h
    · simp at h
    · rename_i hw
      simp only [Option.some.injEq, Prod.mk.injEq] at h
      refine ⟨h.1.symm, hzero, by simp [hw], ?_⟩
      rw [← h.2, fallAsleep, enlist, hw]
    · rename_i q hw
      simp only [Option.some.injEq, Prod.mk.injEq] at h
      refine ⟨h.1.symm, hzero, by simp [hw], ?_⟩
      rw [← h.2, fallAsleep, enlist, hw]
  · rename_i hvalue
    simp only [Option.some.injEq, Prod.mk.injEq] at h
    exact .inr ⟨h.1.symm, hvalue, h.2.symm⟩

theorem semWaitLoop_path {k : AfterWait} {taken : Bool}
    (hc : S.sched.currentProcess = some pid) (hf : (S.frames pid).working)
    (hin : S.Entered pid semId) (h : S.semWaitLoop pid semId k = some (taken, S')) :
    (taken = false ∧ Ends (atWork pid) S S') ∨ (taken = true ∧ Path (atWorkQuiet pid) S S' ∧
      S'.sched.currentProcess = some pid ∧ (S'.frames pid).working) := by
  rcases semWaitLoop_cases h with ⟨rfl, hvalue, hwaiting, rfl⟩ | ⟨rfl, hvalue, rfl⟩
  · exact .inl ⟨rfl, Ends.one (a := .sleep pid semId k) rfl (.sleep hc hf hvalue hwaiting hin)⟩
  · exact .inr
      ⟨rfl, Path.one (a := .take pid semId) ⟨rfl, trivial⟩ (.take hc hf hvalue hin), hc, hf⟩

theorem semWait_path {semId : ℤ} {k : AfterWait} {returned : Bool}
    (hc : S.sched.currentProcess = some pid) (hf : (S.frames pid).working)
    (h : S.semWait pid semId k = some (returned, S')) :
    (returned = false ∧ Ends (atWork pid) S S') ∨ (returned = true ∧ Path (atWorkQuiet pid) S S' ∧
      S'.sched.currentProcess = some pid ∧ (S'.frames pid).working) := by
  unfold semWait at h
  split at h
  · simp only [Option.some.injEq, Prod.mk.injEq] at h
    rw [← h.2]
    exact .inr ⟨h.1.symm, Path.refl S, hc, hf⟩
  · rename_i hneg
    split at h
    · simp at h
    · rename_i hge
      split at h
      · simp only [Option.some.injEq, Prod.mk.injEq] at h
        rw [← h.2]
        exact .inr ⟨h.1.symm, Path.refl S, hc, hf⟩
      · rename_i hused
        have hin : S.Entered pid semId.toNat :=
          .inr ⟨toNat_lt_maxSems (by rw [not_or]; exact ⟨hneg, hge⟩), by simpa using hused⟩
        exact semWaitLoop_path hc hf hin h

/-- The process that has the CPU goes back to user mode or on with its call. -/
theorem setFrame_path {f : Frame} (hc : S.sched.currentProcess = some pid)
    (hf : (S.frames pid).working) (hg : f.working) (hsem : ∀ semId k, f ≠ .semWait semId k) :
    Path (atWorkQuiet pid) S (S.setFrame pid f) :=
  Path.one (a := .frame pid) ⟨rfl, trivial⟩ (.frame hc (.work hf hg hsem))

theorem moved_path {o : Obs} (ho : o.ofPipe) : Path (atWorkQuiet pid) S (S.note o) :=
  Path.one (a := .moved o) ⟨trivial, trivial⟩ (.moved ho)

theorem takeByte_path {r : Reader} (hc : S.sched.currentProcess = some pid)
    (hf : (S.frames pid).working) (h : S.takeByte pid r = some S') :
    Path (atWorkQuiet pid) S S' := by
  simp only [takeByte, Option.bind_eq_bind, Option.bind_eq_some_iff] at h
  obtain ⟨st, -, h⟩ := h
  split at h
  · simp only [Option.bind_eq_some_iff, Prod.exists] at h
    obtain ⟨_, S₁, hpost, h⟩ := h
    have hbyte : Path (atWorkQuiet pid) S ((S.setStream r.stream st.advance).note
        (.took r.stream (st.buffer st.readPos))) :=
      ((setStream_path (P := fun _ => True) (D := fun _ => False) S r.stream _).mono
        fun _ => closing_atWork).trans
        (moved_path trivial)
    have hposts := semPost_path (P := fun _ => True) (D := fun _ => False) trivial hpost hc
    have hc₁ : S₁.sched.currentProcess = some pid := hposts.calm.1.trans hc
    have hf₁ : (S₁.frames pid).working := by rw [hposts.calm.2]; exact hf
    refine (hbyte.trans (hposts.mono fun _ => closing_atWork)).trans ?_
    split at h
    · rw [← Option.some.inj h]
      exact (setFrame_path (f := .user) hc₁ hf₁ trivial (by simp)).trans (moved_path trivial)
    · rw [← Option.some.inj h]
      exact setFrame_path hc₁ hf₁ trivial (by simp)
  · rw [← Option.some.inj h]
    exact (((setStream_path (P := fun _ => True) (D := fun _ => False) S r.stream _).mono
      fun _ => closing_atWork).trans
      (setFrame_path (f := .user) hc hf trivial (by simp))).trans (moved_path trivial)

theorem storeByte_path {w : Writer} (hc : S.sched.currentProcess = some pid)
    (hf : (S.frames pid).working) (h : S.storeByte pid w = some S') :
    Path (atWorkQuiet pid) S S' := by
  simp only [storeByte, Option.bind_eq_bind, Option.bind_eq_some_iff, Option.some.injEq,
    Prod.exists] at h
  obtain ⟨st, -, byte, -, _, S₁, hpost, rfl⟩ := h
  have hbyte : Path (atWorkQuiet pid) S ((S.setStream w.stream (st.put byte)).note
      (.stored w.stream byte)) :=
    ((setStream_path (P := fun _ => True) (D := fun _ => False) S w.stream _).mono
      fun _ => closing_atWork).trans
      (moved_path trivial)
  have hposts := semPost_path (P := fun _ => True) (D := fun _ => False) trivial hpost hc
  have hf₁ : (S₁.frames pid).working := by rw [hposts.calm.2]; exact hf
  exact (hbyte.trans (hposts.mono fun _ => closing_atWork)).trans
    (setFrame_path (hposts.calm.1.trans hc) hf₁ trivial (by simp))

theorem finishReadAt_path {stream pos : ℕ} (hc : S.sched.currentProcess = some pid)
    (hf : (S.frames pid).working) (h : S.finishReadAt pid stream pos = some S') :
    Path (atWorkQuiet pid) S S' := by
  simp only [finishReadAt, Option.bind_eq_bind, Option.bind_eq_some_iff, Option.some.injEq] at h
  obtain ⟨st, -, rfl⟩ := h
  exact ((setStream_path (P := fun _ => True) (D := fun _ => False) S stream _).mono
    fun _ => closing_atWork).trans
    (setFrame_path (f := .user) hc hf trivial (by simp))

theorem afterWait_path {k : AfterWait} (hc : S.sched.currentProcess = some pid)
    (hf : (S.frames pid).working) (h : S.afterWait pid k = some S') :
    Path (atWorkQuiet pid) S S' := by
  cases k with
  | done =>
      rw [← Option.some.inj h]
      exact setFrame_path hc hf trivial (by simp)
  | take r => exact takeByte_path hc hf h
  | store w => exact storeByte_path hc hf h
  | readAt stream pos => exact finishReadAt_path hc hf h

theorem waitThen_path {semId : ℤ} {k : AfterWait} (hc : S.sched.currentProcess = some pid)
    (hf : (S.frames pid).working) (h : S.waitThen pid semId k = some S') :
    Ends (atWork pid) S S' := by
  simp only [waitThen, Option.bind_eq_bind, Option.bind_eq_some_iff, Prod.exists] at h
  obtain ⟨returned, S₁, hwait, h⟩ := h
  rcases semWait_path hc hf hwait with ⟨rfl, hsleeps⟩ | ⟨rfl, hpath, hc₁, hf₁⟩
  · exact Option.some.inj h ▸ hsleeps
  · exact Ends.of_path (hpath.trans (afterWait_path hc₁ hf₁ h)) fun _ => id

theorem readRound_path {r : Reader} (hc : S.sched.currentProcess = some pid)
    (hf : (S.frames pid).working) (h : S.readRound pid r = some S') : Ends (atWork pid) S S' := by
  unfold readRound at h
  split at h
  · simp only [Option.bind_eq_bind, Option.bind_eq_some_iff] at h
    obtain ⟨st, -, S₁, htoken, h⟩ := h
    have hfirst : Path (closing (fun _ => True) fun _ => False) S S₁ := by
      unfold eofToken at htoken
      split at htoken
      · simp only [Option.map_eq_map, Option.map_eq_some_iff, Prod.exists] at htoken
        obtain ⟨_, _, hpost, rfl⟩ := htoken
        exact semPost_path trivial hpost hc
      · rw [Option.some.inj htoken]
        exact Path.refl _
    have hf₁ : (S₁.frames pid).working := by rw [hfirst.calm.2]; exact hf
    exact Ends.after hfirst (fun _ => closing_atWork) (waitThen_path (hfirst.calm.1.trans hc) hf₁ h)
  · rw [← Option.some.inj h]
    exact Ends.of_path ((setFrame_path (f := .user) hc hf trivial (by simp)).trans
      (moved_path trivial)) fun _ => id

theorem writeRound_path {w : Writer} (hc : S.sched.currentProcess = some pid)
    (hf : (S.frames pid).working) (h : S.writeRound pid w = some S') : Ends (atWork pid) S S' := by
  unfold writeRound at h
  split at h
  · simp only [Option.bind_eq_bind, Option.bind_eq_some_iff] at h
    obtain ⟨st, -, h⟩ := h
    exact waitThen_path hc hf h
  · rw [← Option.some.inj h]
    exact Ends.of_path (setFrame_path hc hf trivial (by simp)) fun _ => id

/-- The call of `read` only enters its loop. -/
theorem readFromFD_quiet {fd count : ℤ} (hc : S.sched.currentProcess = some pid)
    (hf : (S.frames pid).working) (h : S.readFromFD pid fd count = some S') :
    Path (atWorkQuiet pid) S S' := by
  unfold readFromFD at h
  split at h
  · split at h
    · rw [Option.some.inj h]
      exact Path.refl _
    · simp at h
  · split at h
    · rw [Option.some.inj h]
      exact Path.refl _
    · simp only [Option.bind_eq_bind, Option.bind_eq_some_iff, Option.some.injEq] at h
      obtain ⟨stream, -, rfl⟩ := h
      exact setFrame_path hc hf trivial (by simp)

/-- The call of `write` only enters its loop. -/
theorem writeToFD_quiet {fd : ℤ} {buf : List UInt8} (hc : S.sched.currentProcess = some pid)
    (hf : (S.frames pid).working) (h : S.writeToFD pid fd buf = some S') :
    Path (atWorkQuiet pid) S S' := by
  unfold writeToFD at h
  split at h
  · rw [Option.some.inj h]
    exact Path.refl _
  · simp only [Option.bind_eq_bind, Option.bind_eq_some_iff, Option.some.injEq] at h
    obtain ⟨stream, -, st, -, rfl⟩ := h
    exact ((setStream_path (P := fun _ => True) (D := fun _ => False) S stream _).mono
      fun _ => closing_atWork).trans (setFrame_path hc hf trivial (by simp))

theorem readFromFD_path {fd count : ℤ} (hc : S.sched.currentProcess = some pid)
    (hf : (S.frames pid).working) (h : S.readFromFD pid fd count = some S') :
    Ends (atWork pid) S S' :=
  Ends.of_path (readFromFD_quiet hc hf h) fun _ => id

theorem writeToFD_path {fd : ℤ} {buf : List UInt8} (hc : S.sched.currentProcess = some pid)
    (hf : (S.frames pid).working) (h : S.writeToFD pid fd buf = some S') :
    Ends (atWork pid) S S' :=
  Ends.of_path (writeToFD_quiet hc hf h) fun _ => id

theorem readFromFDAt_path {fd : ℤ} (hc : S.sched.currentProcess = some pid)
    (hf : (S.frames pid).working) (h : S.readFromFDAt pid fd = some S') :
    Ends (atWork pid) S S' := by
  unfold readFromFDAt at h
  dsimp only at h
  split at h
  · rw [Option.some.inj h]
    exact Ends.refl _
  · simp only [Option.bind_eq_bind, Option.bind_eq_some_iff] at h
    obtain ⟨stream, -, st, -, h⟩ := h
    split at h
    · exact waitThen_path hc hf h
    · exact Ends.of_path (finishReadAt_path hc hf h) fun _ => id

/-! ## Ending a process -/

theorem killWake_eq (h : (S.sched.processes pid).waitPid = nonPid) : S.killWake pid = S := by
  unfold killWake
  exact if_pos h

/-- A `kill` of another process or of itself: the process is over, its files are
closed, the waiter is woken, and the CPU is given up if it was its own. -/
theorem kill_cases {r : Int32} (hc : S.sched.currentProcess = some c)
    (h : S.kill pid = some (r, S')) :
    (S' = S ∧ (pid ≤ initPid ∨ pid > maxPid ∨ (S.sched.processes pid).state = EXITED)) ∨
    ((initPid < pid ∧ pid ≤ maxPid) ∧ (S.sched.processes pid).state ≠ EXITED ∧
      ∃ S₁, Path (closing (fun _ => True) fun _ => True) (S.killStart pid .leave) S₁ ∧
        S' = if c = pid then (S₁.killWake pid).onSched Sched.forceSwitchContext
          else S₁.killWake pid) := by
  unfold kill at h
  split at h
  · rename_i hrefused
    simp only [Option.some.injEq, Prod.mk.injEq] at h
    exact .inl ⟨h.2.symm, hrefused⟩
  · rename_i hrange
    right
    rw [not_or, not_or, not_le, not_lt] at hrange
    simp only [Option.bind_eq_bind, Option.bind_eq_some_iff, Prod.exists] at h
    obtain ⟨_, S₁, hin, _, S₂, hout, h⟩ := h
    have hc₀ : (S.killStart pid .leave).sched.currentProcess = some c := hc
    have hin := closeFD_path (P := fun _ => True) (D := fun _ => True)
      (fun _ => trivial) (fun _ => trivial) hc₀ hin
    have hc₁ : S₁.sched.currentProcess = some c := hin.calm.1.trans hc₀
    have hout := closeFD_path (P := fun _ => True) (D := fun _ => True)
      (fun _ => trivial) (fun _ => trivial) hc₁ hout
    have hc₂ : S₂.sched.currentProcess = some c := hout.calm.1.trans hc₁
    have hc₃ : (S₂.killWake pid).sched.currentProcess = some c := by
      unfold killWake
      dsimp only
      split
      · exact hc₂
      · simpa using hc₂
    refine ⟨⟨hrange.1, hrange.2.1⟩, hrange.2.2, S₂, hin.trans hout, ?_⟩
    rw [hc₃] at h
    simp only [Option.some.injEq] at h
    split at h
    · rename_i heq
      simp only [Option.some.injEq, Prod.mk.injEq] at h
      rw [if_pos heq, h.2]
    · rename_i hne
      simp only [Option.some.injEq, Prod.mk.injEq] at h
      rw [if_neg hne, h.2]

/-- The actions by which a process is ended. -/
def ending (pid : ℤ) : Act → Prop
  | .post _ | .wake _ | .destroy _ | .files | .switch _ => True
  | .kill p | .killWake p => p = pid
  | _ => False

theorem closing_ending (h : closing P D a) : ending pid a ∧ a.quiet := by
  cases a <;> simp_all [closing, ending, Act.quiet]

theorem closing_exited (h : Path (closing P D) S S') (pid : ℤ) :
    (S'.sched.processes pid).state = EXITED ↔ (S.sched.processes pid).state = EXITED := by
  refine h.invariant (I := fun S₁ => (S₁.sched.processes pid).state = EXITED ↔
    (S.sched.processes pid).state = EXITED) Iff.rfl fun S₁ a S₂ hiff hok hd => ?_
  cases hd <;> simp only [closing] at hok
  case wake => simpa [wakeFirst, Sched.unblockProcess_exited] using hiff
  all_goals exact hiff

theorem killStart_state (S : Machine) (pid : ℤ) (stage : ExitStage) :
    ((S.killStart pid stage).sched.processes pid).state = EXITED := by
  simp [killStart]

theorem switch_path (S : Machine) : S.Does (.switch S.sched.isYield)
    (S.onSched Sched.forceSwitchContext) := .switch

theorem kill_path {r : Int32} (hc : S.sched.currentProcess = some c)
    (h : S.kill pid = some (r, S')) : Ends (ending pid) S S' := by
  rcases kill_cases hc h with ⟨rfl, _⟩ | ⟨hrange, halive, S₁, hclose, rfl⟩
  · exact Ends.refl _
  · have hc₁ : S₁.sched.currentProcess = some c := hclose.calm.1.trans hc
    have hexited : (S₁.sched.processes pid).state = EXITED :=
      (closing_exited hclose pid).mpr (killStart_state S pid _)
    have hkill : Path (fun a => ending pid a ∧ a.quiet) S (S.killStart pid .leave) :=
      Path.one (a := .kill pid) ⟨rfl, trivial⟩ (.kill hc hrange halive)
    have hpath : Path (fun a => ending pid a ∧ a.quiet) S (S₁.killWake pid) :=
      (hkill.trans (hclose.mono fun _ => closing_ending)).tail (a := .killWake pid) ⟨rfl, trivial⟩
        (.killWake hc₁ hexited)
    split
    · exact Ends.after hpath (fun _ => id)
        (Ends.one (a := .switch (S₁.killWake pid).sched.isYield) trivial (switch_path _))
    · exact Ends.of_path hpath fun _ => id

/-- The actions of one part of the `kill` in `processLoader`. -/
def leaving (pid : ℤ) (stage : ExitStage) : Act → Prop
  | .post _ | .wake _ | .destroy _ | .files | .switch _ => True
  | .frame p => p = pid
  | .killWake p => p = pid ∧ stage = .wake
  | _ => False

theorem closing_leaving {stage : ExitStage} (h : closing P D a) :
    leaving pid stage a ∧ a.quiet := by
  cases a <;> simp_all [closing, leaving, Act.quiet]

/-- What the next part of the `kill` in `processLoader` does. -/
theorem exitRound_path {stage : ExitStage} (hc : S.sched.currentProcess = some pid)
    (hf : S.frames pid = .exiting stage) (hexited : (S.sched.processes pid).state = EXITED)
    (h : S.exitRound pid stage = some S') : Ends (leaving pid stage) S S' := by
  have hframe : ∀ {S₁ : Machine} (stage' : ExitStage), S₁.sched.currentProcess = some pid →
      S₁.frames pid = .exiting stage → S₁.Does (.frame pid) (S₁.setFrame pid (.exiting stage')) :=
    fun stage' hc₁ hf₁ => .frame hc₁ (by rw [hf₁]; exact .exiting)
  have hclose : ∀ {fd : ℤ} {r : Int32} {S₁ : Machine} (stage' : ExitStage),
      S.closeFD fd = some (r, S₁) → Ends (leaving pid stage) S
        (S₁.setFrame pid (.exiting stage')) := by
    intro fd r S₁ stage' hfd
    have hpath := closeFD_path (P := fun _ => True) (D := fun _ => True)
      (fun _ => trivial) (fun _ => trivial) hc hfd
    apply Ends.after hpath fun _ => closing_leaving
    exact Ends.one (a := .frame pid) rfl
      (hframe stage' (hpath.calm.1.trans hc) (by rw [hpath.calm.2]; exact hf))
  cases stage with
  | closeIn =>
      simp only [exitRound, Option.bind_eq_bind, Option.bind_eq_some_iff, Option.some.injEq,
        Prod.exists] at h
      obtain ⟨_, S₁, hfd, rfl⟩ := h
      exact hclose .closeOut hfd
  | closeOut =>
      simp only [exitRound, Option.bind_eq_bind, Option.bind_eq_some_iff, Option.some.injEq,
        Prod.exists] at h
      obtain ⟨_, S₁, hfd, rfl⟩ := h
      exact hclose .wake hfd
  | wake =>
      simp only [exitRound, Option.some.injEq] at h
      rw [← h]
      have hwake : S.Does (.killWake pid) (S.killWake pid) := .killWake hc hexited
      have hcalm : (S.killWake pid).sched.currentProcess = some pid ∧
          (S.killWake pid).frames = S.frames := by
        unfold killWake
        dsimp only
        split
        · exact ⟨hc, rfl⟩
        · exact ⟨by simpa using hc, rfl⟩
      have hfirst : Path (fun a => leaving pid .wake a ∧ a.quiet) S (S.killWake pid) :=
        Path.one (a := .killWake pid) ⟨⟨rfl, rfl⟩, trivial⟩ hwake
      apply Ends.after hfirst fun _ => id
      exact Ends.one (a := .frame pid) rfl (hframe .leave hcalm.1 (by rw [hcalm.2]; exact hf))
  | leave =>
      simp only [exitRound, Option.some.injEq] at h
      rw [← h]
      exact Ends.one (a := .switch S.sched.isYield) trivial (switch_path S)

/-! ## Creating processes, semaphores and pipes -/

theorem allocBlocks_eq : ∀ {n : ℕ} {s : Sched}, ∃ outcomes,
    (s.allocBlocks n).2 = { s with blocks := outcomes }
  | 0, s => ⟨s.blocks, rfl⟩
  | n + 1, s => by
      unfold Sched.allocBlocks
      split
      · obtain ⟨outcomes, heq⟩ := allocBlocks_eq (n := n) (s := s.dropBlock)
        exact ⟨outcomes, by rw [heq]; rfl⟩
      · exact ⟨_, rfl⟩

theorem getFreeProcess_some (h : S.getFreeProcess = some pid) :
    (0 < pid ∧ pid ≤ maxPid) ∧ (S.sched.processes pid).state = EXITED := by
  unfold getFreeProcess at h
  have hstate := List.find?_some h
  exact ⟨mem_pids.mp (List.mem_of_find?_eq_some h), of_decide_eq_true hstate⟩

/-- The actions by which semaphores and pipes are made. -/
def making : Act → Prop
  | .blocks _ | .files | .semCreate _ _ => True
  | _ => False

/-- `createProcess` fails and only allocates, or it fills the first free slot. -/
theorem createProcess_cases (S : Machine) (params : Option CreationParameters) :
    (∃ outcomes, S.createProcess params = (-1, S.onSched fun s => { s with blocks := outcomes })) ∨
    ∃ given name pid outcomes, params = some given ∧ checkPriority given.priority ∧
      S.getFreeProcess = some pid ∧ S.createProcess params = (pid, ((S.onSched fun s =>
        (({ s with blocks := outcomes } : Sched).setProcess pid
          (newProcess (S.sched.processes pid) name given)).schedule pid).setFrame pid
            .user).note (.created pid)) := by
  unfold createProcess
  cases params with
  | none => exact .inl ⟨S.sched.blocks, rfl⟩
  | some given =>
      dsimp only
      split
      · exact .inl ⟨S.sched.blocks, rfl⟩
      · split
        · exact .inl ⟨S.sched.blocks, rfl⟩
        · rename_i name hname hcheck
          obtain ⟨outcomes, hblocks⟩ := allocBlocks_eq (n := neededBlocks given) (s := S.sched)
          split
          · rename_i s hs
            obtain rfl : s = { S.sched with blocks := outcomes } := by rw [← hblocks, hs]
            exact .inl ⟨outcomes, rfl⟩
          · rename_i s hs
            obtain rfl : s = { S.sched with blocks := outcomes } := by rw [← hblocks, hs]
            split
            · exact .inl ⟨outcomes, rfl⟩
            · rename_i pid hpid
              have hpriority : checkPriority given.priority := by
                rw [not_or] at hcheck
                simpa using hcheck.1
              exact .inr ⟨given, name, pid, outcomes, rfl, hpriority, hpid, rfl⟩

theorem newProcess_fresh {old : Process} {name : List UInt8} {params : CreationParameters}
    (h : checkPriority params.priority) : Fresh old (newProcess old name params) :=
  ⟨h, rfl, rfl, rfl, rfl, rfl⟩

theorem createProcess_path (params : Option CreationParameters)
    (hrun : ∀ c, S.sched.currentProcess = some c → (S.sched.processes c).state ≠ EXITED) :
    Path (fun a => (∃ outcomes, a = .blocks outcomes) ∨ ∃ pid, a = .create pid) S
      (S.createProcess params).2 := by
  have hblocks : ∀ outcomes, Path (fun a => (∃ outcomes, a = .blocks outcomes) ∨
      ∃ pid, a = .create pid) S { S with sched := { S.sched with blocks := outcomes } } :=
    fun outcomes => Path.one (a := .blocks outcomes) (.inl ⟨outcomes, rfl⟩) .blocks
  rcases createProcess_cases S params with
    ⟨outcomes, heq⟩ | ⟨given, name, pid, outcomes, -, hpriority, hpid, heq⟩ <;> rw [heq]
  · exact hblocks outcomes
  · obtain ⟨hrange, hexited⟩ := getFreeProcess_some hpid
    refine (hblocks outcomes).tail (a := .create pid) (.inr ⟨pid, rfl⟩) ?_
    exact Does.create hrange hexited (fun hc => hrun pid hc hexited) (newProcess_fresh hpriority)

/-- A PID that is returned is that of a free slot, which is made and scheduled. -/
theorem createProcess_pos {params : Option CreationParameters}
    (h : S.createProcess params = (pid, S')) (hpos : 0 < pid) : pid ≤ maxPid ∧
      (S.sched.processes pid).state = EXITED ∧
      ∃ outcomes p, Fresh (S.sched.processes pid) p ∧ S' = ((S.onSched fun s =>
        (({ s with blocks := outcomes } : Sched).setProcess pid p).schedule pid).setFrame pid
          .user).note (.created pid) := by
  rcases createProcess_cases S params with
    ⟨outcomes, heq⟩ | ⟨given, name, found, outcomes, -, hpriority, hfound, heq⟩ <;>
      rw [heq, Prod.mk.injEq] at h
  · rw [← h.1] at hpos
    exact absurd hpos (by decide)
  · obtain ⟨rfl, rfl⟩ := h
    obtain ⟨hrange, hexited⟩ := getFreeProcess_some hfound
    exact ⟨hrange.2, hexited, outcomes, _, newProcess_fresh hpriority, rfl⟩

theorem semCreate_path (name : CString) (value : Int32) (hc : S.sched.currentProcess = some pid)
    (hf : S.frames pid = .user) : Path making S (S.semCreate pid name value).2 ∧
      (S.semCreate pid name value).2.sched.currentProcess = some pid ∧
      (S.semCreate pid name value).2.frames pid = .user := by
  unfold semCreate
  dsimp only
  split
  · exact ⟨Path.refl S, hc, hf⟩
  · rename_i semId T h
    refine ⟨Path.one (a := .semCreate semId value) trivial (.semCreate hc hf ?_ h), hc, hf⟩
    split
    · exact .inl rfl
    · exact .inr rfl

theorem getAvailableFD_path : Path making S S.getAvailableFD.2 ∧
    S.getAvailableFD.2.sched = S.sched ∧ S.getAvailableFD.2.frames = S.frames := by
  unfold getAvailableFD
  dsimp only
  split
  · exact ⟨Path.refl S, rfl, rfl⟩
  · exact ⟨Path.one (a := .files) trivial .files, rfl, rfl⟩

theorem createPipe_path {fresh : ℕ → UInt8} {r : Int32} (hc : S.sched.currentProcess = some pid)
    (hf : S.frames pid = .user) (h : S.createPipe pid fresh = some (r, S')) : Path making S S' := by
  unfold createPipe at h
  dsimp only at h
  obtain ⟨hfirst, hsched₁, hframes₁⟩ := getAvailableFD_path (S := S)
  obtain ⟨hsecond, hsched₂, hframes₂⟩ := getAvailableFD_path (S := S.getAvailableFD.2)
  have hfds := hfirst.trans hsecond
  generalize S.getAvailableFD.2.getAvailableFD.2 = S₀ at *
  have hsched : S₀.sched = S.sched := hsched₂.trans hsched₁
  have hf₀ : S₀.frames pid = .user := by rw [hframes₂, hframes₁, hf]
  split at h
  · split at h
    · simp at h
    · rename_i fd1 fd2 _ _ _
      simp only [Option.some.injEq, Prod.mk.injEq] at h
      rw [← h.2]
      have hblock : Path making S₀
          { S₀ with nextStream := S₀.nextStream + 1, sched := S₀.sched.dropBlock } :=
        (Path.one (a := .files) trivial (show S₀.Does .files
          { S₀ with nextStream := S₀.nextStream + 1 } from .files)).tail
          (a := .blocks _) trivial .blocks
      have hc₀ : S₀.sched.dropBlock.currentProcess = some pid := by
        rw [hsched]
        exact hc
      obtain ⟨hread, hc₁, hf₁⟩ := semCreate_path (itoa fd1.toNat) 0
        (S := { S₀ with nextStream := S₀.nextStream + 1, sched := S₀.sched.dropBlock }) hc₀ hf₀
      obtain ⟨hwrite, -, -⟩ := semCreate_path (itoa fd2.toNat) 2048 hc₁ hf₁
      exact (((hfds.trans hblock).trans hread).trans hwrite).tail (a := .files) trivial .files
  · simp only [Option.some.injEq, Prod.mk.injEq] at h
    rw [← h.2]
    exact hfds

/-! ## Steps -/

/-- The semaphores that an event may post to or take waiters off. -/
def MayPost : Event → ℕ → Prop
  | .call (.semPost i), semId | .call (.semSetValue i _), semId | .call (.semDestroy i), semId =>
      semId = i.toNat
  | .call (.kill _), _ | .call (.close _), _ | .call (.semWait _), _ | .call (.readAt _), _
  | .resume, _ => True
  | .call (.read _ _), _ | .call (.write _ _), _ => True
  | _, _ => False

/-- The events in which a process may call `semWait`. -/
def MayWait : Event → Prop
  | .call (.semWait _) | .call (.read _ _) | .call (.write _ _) | .call (.readAt _) | .resume =>
      True
  | _ => False

/-- The semaphores that an event may destroy: by the call, or with the end of a pipe. -/
def MayDestroy (S : Machine) : Event → ℕ → Prop
  | .call (.semDestroy i), semId => semId = i.toNat
  | .call (.kill _), _ | .call (.close _), _ => True
  | .resume, _ => ∃ c stage, S.sched.currentProcess = some c ∧ S.frames c = .exiting stage
  | _, _ => False

/-- The events that may create semaphores. -/
def MayCreate : Event → Prop
  | .call (.semOpen _ _) | .call (.pipe _) => True
  | _ => False

theorem mayCreate_call {e : Event} (h : MayCreate e) : ∃ call, e = .call call := by
  unfold MayCreate at h
  split at h
  · exact ⟨_, rfl⟩
  · exact ⟨_, rfl⟩
  · exact h.elim

/-- The actions that a step in state `S` may consist of. -/
def Allowed (S : Machine) (e : Event) : Act → Prop
  | .block pid => e = .call (.block pid) ∧ pid ≠ initPid
  | .unblock pid => e = .call (.unblock pid)
  | .create _ => ∃ params, e = .call (.createProcess params)
  | .returned pid r => e = .exit r ∧ S.sched.currentProcess = some pid
  | .kill pid => e = .call (.kill pid) ∨ (∃ r, e = .exit r) ∧ S.sched.currentProcess = some pid
  | .killWake pid => e = .call (.kill pid) ∨
      e = .resume ∧ S.sched.currentProcess = some pid ∧ S.frames pid = .exiting .wake
  | .priority pid => ∃ priority, e = .call (.changePriority pid priority)
  | .waitBlock pid target wstatus | .waitGone pid target wstatus =>
      e = .call (.wait target wstatus) ∧ S.sched.currentProcess = some pid
  | .waitRead pid target wstatus => e = .resume ∧ S.sched.currentProcess = some pid ∧
      S.frames pid = .waitForced target wstatus
  | .sleep pid _ _ | .take pid _ =>
      MayWait e ∧ S.sched.currentProcess = some pid ∧ (S.frames pid).working
  | .frame pid => S.sched.currentProcess = some pid
  | .post semId | .wake semId => MayPost e semId
  | .destroy semId => MayDestroy S e semId
  | .set semId value => ∃ i, e = .call (.semSetValue i value) ∧ semId = i.toNat
  | .semCreate _ _ => MayCreate e
  | .mark _ => ∃ call, e = .call call
  | _ => True

theorem closing_allowed {e : Event} (hP : ∀ semId, P semId → MayPost e semId)
    (hD : ∀ semId, D semId → S.MayDestroy e semId) (h : closing P D a) :
    Allowed S e a ∧ a.quiet := by
  cases a <;> simp_all [closing, Allowed, Act.quiet]

theorem atWork_allowed {e : Event} (hc : S.sched.currentProcess = some pid)
    (hf : (S.frames pid).working) (hW : MayWait e) (hP : ∀ semId, MayPost e semId)
    (h : atWork pid a) : Allowed S e a := by
  cases a <;> simp_all [atWork, Allowed]

theorem making_allowed {call : Syscall} (hcall : MayCreate (.call call)) (h : making a) :
    Allowed S (.call call) a ∧ a.quiet := by
  cases a <;> simp_all [making, Allowed, Act.quiet]

theorem ending_allowed (h : ending pid a) : Allowed S (.call (.kill pid)) a := by
  cases a <;> simp_all [ending, Allowed, MayPost, MayDestroy]

theorem leaving_allowed {stage : ExitStage} (hc : S.sched.currentProcess = some pid)
    (hf : S.frames pid = .exiting stage) (h : leaving pid stage a) : Allowed S .resume a := by
  cases a <;> simp_all [leaving, Allowed, MayPost, MayDestroy]

/-- A system call of the process that has the CPU. -/
theorem sysCall_ends {call : Syscall} (hbase : S.Base) (hc : S.sched.currentProcess = some pid)
    (hf : S.frames pid = .user) (h : S.sysCall pid call = some S') :
    Ends (Allowed S (.call call)) S S' := by
  have hwork : (S.frames pid).working := by rw [hf]; trivial
  have hrunning : (S.sched.processes pid).state = RUNNING :=
    hbase.running hc fun stage => by rw [hf]; simp
  cases call with
  | createProcess params =>
      rw [← Option.some.inj h]
      have hpath := createProcess_path params fun c' hc' => by
        rw [hc, Option.some.injEq] at hc'
        rw [← hc', hrunning]
        decide
      refine Ends.of_path hpath fun a ha => ?_
      rcases ha with ⟨outcomes, rfl⟩ | ⟨p, rfl⟩
      · exact ⟨trivial, trivial⟩
      · exact ⟨⟨params, rfl⟩, trivial⟩
  | kill target =>
      simp only [sysCall, Option.map_eq_map, Option.map_eq_some_iff, Prod.exists] at h
      obtain ⟨_, _, hkill, rfl⟩ := h
      exact (kill_path hc hkill).mono fun _ => ending_allowed
  | block target =>
      rw [← Option.some.inj h]
      unfold sysBlock
      split
      · exact Ends.refl S
      · rename_i hrefused
        rw [not_or] at hrefused
        exact Ends.one (a := .block target) ⟨rfl, hrefused.1⟩
          (.block hc hf (by simpa using hrefused.2))
  | unblock target =>
      rw [← Option.some.inj h]
      exact Ends.one (a := .unblock target) rfl (.unblock hc)
  | changePriority target priority =>
      rw [← Option.some.inj h]
      unfold changeProccessPriority
      split
      · exact Ends.refl S
      · rename_i hrefused
        rw [not_or] at hrefused
        dsimp only
        split
        · exact Ends.refl S
        · have hset : Path (· = .priority target) S
              (S.onSched fun s => s.setProcess target { s.processes target with
                priority := priority, originalPriority := priority, agingCounter := 0 }) :=
            Path.one rfl (.priority hc (by simpa using hrefused.2))
          have hallowed : ∀ a, a = .priority target →
              Allowed S (.call (.changePriority target priority)) a ∧ a.quiet := by
            rintro _ rfl
            exact ⟨⟨priority, rfl⟩, trivial⟩
          split
          · exact Ends.after hset hallowed (Ends.one (a := .switch true) trivial .switch)
          · exact Ends.of_path hset hallowed
  | yield =>
      rw [← Option.some.inj h]
      exact Ends.one (a := .switch true) trivial .switch
  | wait target wstatus =>
      rw [← Option.some.inj h]
      unfold waitProcess
      split
      · exact Ends.refl S
      · rename_i hrange
        rw [not_or, not_le, not_lt] at hrange
        dsimp only
        split
        · rename_i hexited
          exact Ends.one (a := .waitGone pid target wstatus) ⟨rfl, hc⟩ (.waitGone hc hf hexited)
        · rename_i halive
          exact Ends.one (a := .waitBlock pid target wstatus) ⟨rfl, hc⟩
            (.waitBlock hc hf hrange halive)
  | semOpen name value =>
      rw [← Option.some.inj h]
      unfold sysSemOpen
      split
      · exact Ends.of_path (semCreate_path name value hc hf).1 fun _ => making_allowed trivial
      · unfold semOpen
        split
        · exact Ends.refl S
        · rename_i semId T hopen
          obtain ⟨hused, rfl⟩ := SemTable.semOpen_eq hopen
          exact Ends.one (a := .mark semId) ⟨_, rfl⟩ (.mark hc hf hused)
  | semClose semId =>
      simp only [sysCall, Option.map_eq_map, Option.map_eq_some_iff, Prod.exists] at h
      obtain ⟨_, _, hclose, rfl⟩ := h
      unfold semClose at hclose
      split at hclose
      · simp only [Option.some.injEq, Prod.mk.injEq] at hclose
        rw [← hclose.2]
        exact Ends.refl S
      · split at hclose
        · simp at hclose
        · split at hclose
          · simp only [Option.some.injEq, Prod.mk.injEq] at hclose
            rw [← hclose.2]
            exact Ends.refl S
          · rename_i T hT
            simp only [Option.some.injEq, Prod.mk.injEq] at hclose
            rw [← hclose.2]
            obtain ⟨hused, rfl⟩ := SemTable.semClose_eq hT
            exact Ends.one (a := .mark semId.toNat) ⟨_, rfl⟩ (.mark hc hf hused)
  | semWait semId =>
      simp only [sysCall] at h
      split at h
      · exact (waitThen_path hc hwork h).mono fun _ => atWork_allowed hc hwork trivial
          fun _ => trivial
      · rw [Option.some.inj h]
        exact Ends.refl _
  | semPost semId =>
      simp only [sysCall] at h
      split at h
      · simp only [Option.map_eq_map, Option.map_eq_some_iff, Prod.exists] at h
        obtain ⟨_, _, hpost, rfl⟩ := h
        exact Ends.of_path
          (semPost_path (P := (· = semId.toNat)) (D := fun _ => False) rfl hpost hc)
          fun _ => closing_allowed (fun _ => id) fun _ => False.elim
      · rw [Option.some.inj h]
        exact Ends.refl _
  | semSetValue semId value =>
      simp only [sysCall, Option.map_eq_map, Option.map_eq_some_iff, Prod.exists] at h
      obtain ⟨_, _, hset, rfl⟩ := h
      refine Ends.of_path (semSetValue_path (P := (· = semId.toNat)) (D := fun _ => False) rfl hc
        hset) fun a ha => ?_
      rcases ha with ha | rfl
      · exact closing_allowed (fun _ => id) (fun _ => False.elim) ha
      · exact ⟨⟨semId, rfl, rfl⟩, trivial⟩
  | semDestroy semId =>
      simp only [sysCall] at h
      split at h
      · simp only [Option.map_eq_map, Option.map_eq_some_iff, Prod.exists] at h
        obtain ⟨_, _, hdestroy, rfl⟩ := h
        exact Ends.of_path
          (semDestroy_path (P := (· = semId.toNat)) (D := (· = semId.toNat)) rfl rfl
          hc hdestroy) fun _ => closing_allowed (fun _ => id) fun _ => id
      · rw [Option.some.inj h]
        exact Ends.refl _
  | pipe fresh =>
      simp only [sysCall, Option.map_eq_map, Option.map_eq_some_iff, Prod.exists] at h
      obtain ⟨_, _, hpipe, rfl⟩ := h
      exact Ends.of_path (createPipe_path hc hf hpipe) fun _ => making_allowed trivial
  | close fd =>
      simp only [sysCall, Option.map_eq_map, Option.map_eq_some_iff, Prod.exists] at h
      obtain ⟨_, _, hclose, rfl⟩ := h
      exact Ends.of_path (closeFD_path (P := fun _ => True) (D := fun _ => True) (fun _ => trivial)
        (fun _ => trivial) hc hclose)
        fun _ => closing_allowed (fun _ _ => trivial) fun _ _ => trivial
  | read fd count =>
      exact (readFromFD_path hc hwork h).mono fun _ => atWork_allowed hc hwork trivial
        fun _ => trivial
  | write fd buf =>
      exact (writeToFD_path hc hwork h).mono fun _ => atWork_allowed hc hwork trivial
        fun _ => trivial
  | readAt fd =>
      exact (readFromFDAt_path hc hwork h).mono fun _ => atWork_allowed hc hwork trivial
        fun _ => trivial

/-- A system call is made by the process that has the CPU, in user mode. -/
theorem step_call {call : Syscall} (h : S.Step (.call call) S') : ∃ pid,
    S.sched.currentProcess = some pid ∧ S.frames pid = .user ∧ S.sysCall pid call = some S' := by
  unfold Step step at h
  cases hc : S.sched.currentProcess with
  | none => simp [hc] at h
  | some pid =>
      simp only [hc] at h
      split at h
      · rename_i hf
        exact ⟨pid, rfl, hf, h⟩
      · simp at h

/-- **Every step is a sequence of allowed actions**, and only the last can switch. -/
theorem step_ends {e : Event} (hbase : S.Base) (h : S.Step e S') : Ends (Allowed S e) S S' := by
  unfold Step step at h
  split at h
  · split at h
    · rw [← Option.some.inj h]
      exact Ends.one (a := .switch S.sched.isYield) trivial (switch_path S)
    · simp at h
  · rename_i pid hc
    split at h
    · split at h
      · rw [← Option.some.inj h]
        exact Ends.one (a := .switch S.sched.isYield) trivial (switch_path S)
      · simp at h
    · split at h
      · rename_i hf
        exact sysCall_ends hbase hc hf h
      · simp at h
    · generalize hf : S.frames pid = f at h
      cases f with
      | user => simp [resume] at h
      | semWait semId k =>
          have hwork : (S.frames pid).working := by rw [hf]; trivial
          simp only [resume, Option.bind_eq_bind, Option.bind_eq_some_iff, Prod.exists] at h
          obtain ⟨taken, S₁, hloop, h⟩ := h
          refine Ends.mono (?_ : Ends (atWork pid) S S') fun _ => atWork_allowed hc hwork
            trivial fun _ => trivial
          rcases semWaitLoop_path hc hwork (.inl ⟨k, hf⟩) hloop with
            ⟨rfl, hsleeps⟩ | ⟨rfl, hpath, hc₁, hf₁⟩
          · exact Option.some.inj h ▸ hsleeps
          · exact Ends.of_path (hpath.trans (afterWait_path hc₁ hf₁ h)) fun _ => id
      | waitBlock target wstatus =>
          rw [← Option.some.inj h]
          have hframe : S.Does (.frame pid) (S.setFrame pid (.waitForced target wstatus)) :=
            .frame hc (by rw [hf]; exact .forced)
          have hpath : Path (· = .frame pid) S (S.setFrame pid (.waitForced target wstatus)) :=
            Path.one rfl hframe
          refine Ends.after hpath ?_
            (Ends.one (a := .switch S.sched.isYield) trivial (switch_path _))
          rintro _ rfl
          exact ⟨hc, trivial⟩
      | waitForced target wstatus =>
          rw [← Option.some.inj h]
          exact Ends.one (a := .waitRead pid target wstatus) ⟨rfl, hc, hf⟩ (.waitRead hc hf)
      | reading r =>
          have hwork : (S.frames pid).working := by rw [hf]; trivial
          exact (readRound_path hc hwork h).mono fun _ => atWork_allowed hc hwork trivial
            fun _ => trivial
      | writing w =>
          have hwork : (S.frames pid).working := by rw [hf]; trivial
          exact (writeRound_path hc hwork h).mono fun _ => atWork_allowed hc hwork trivial
            fun _ => trivial
      | exiting stage =>
          exact (exitRound_path hc hf (hbase.ended pid stage hf) h).mono fun _ =>
            leaving_allowed hc hf
    · split at h
      · rename_i returnValue hf
        unfold exitProcess at h
        split at h
        · simp at h
        · rename_i hinit
          rw [← Option.some.inj h]
          have hrunning : (S.sched.processes pid).state = RUNNING :=
            hbase.running hc fun stage => by rw [hf]; simp
          obtain ⟨_, hle⟩ := hbase.sound.current pid hc
          have hret : Path (· = .returned pid returnValue) S _ := Path.one rfl (.returned hc hf)
          refine Ends.after hret ?_ (Ends.one (a := .kill pid) (.inr ⟨⟨_, rfl⟩, hc⟩)
            (.kill hc ⟨not_le.mp hinit, hle⟩ ?_))
          · rintro _ rfl
            exact ⟨⟨rfl, hc⟩, trivial⟩
          · simp [hrunning]
      · simp at h

theorem step_path {e : Event} (hbase : S.Base) (h : S.Step e S') : Path (Allowed S e) S S' :=
  (step_ends hbase h).path

theorem Path.base (h : Path ok S S') (hbase : S.Base) : S'.Base :=
  h.invariant hbase fun _ _ _ h _ hd => h.does hd

theorem Base.step {e : Event} (h : S.Base) (hstep : S.Step e S') : S'.Base :=
  (step_path h hstep).base h

/-! ## Boot -/

variable {nodes blocks : ℕ → Bool}

theorem base_off : (off nodes blocks).Base :=
  ⟨⟨fun _ _ hpid => absurd hpid List.not_mem_nil, fun _ hc => absurd hc (by simp [off]),
    fun _ _ _ _ hpid => absurd hpid List.not_mem_nil, fun _ hrun =>
      absurd hrun (by simp [off, emptyProcess])⟩,
    fun _ hc => absurd hc (by simp [off]), fun _ _ hf => absurd hf (by simp [off])⟩

/-- The actions of `main`. -/
def starting : Act → Prop
  | .blocks _ | .files | .semCreate _ _ | .create _ | .switch _ => True
  | _ => False

theorem createProcess_currentProcess (S : Machine) (params : Option CreationParameters) :
    (S.createProcess params).2.sched.currentProcess = S.sched.currentProcess := by
  rcases createProcess_cases S params with
    ⟨outcomes, heq⟩ | ⟨given, name, pid, outcomes, -, -, -, heq⟩ <;> rw [heq]
  · rfl
  · exact Sched.schedule_currentProcess

theorem boot_path : Path starting (off nodes blocks) (boot nodes blocks) := by
  have hmono : ∀ a, ((∃ outcomes, a = .blocks outcomes) ∨ ∃ pid, a = .create pid) →
      starting a := by
    rintro a (⟨outcomes, rfl⟩ | ⟨pid, rfl⟩)
    · trivial
    · trivial
  have hnone : ∀ {S : Machine}, S.sched.currentProcess = none →
      ∀ c, S.sched.currentProcess = some c → (S.sched.processes c).state ≠ EXITED := by
    intro S hS c hc
    rw [hS] at hc
    exact absurd hc (by simp)
  have hinit : Path starting (off nodes blocks)
      ((off nodes blocks).createProcess (some initParams)).2 :=
    (createProcess_path _ (hnone rfl)).mono hmono
  have hshell : Path starting ((off nodes blocks).createProcess (some initParams)).2
      (((off nodes blocks).createProcess (some initParams)).2.createProcess
        (some shellParams)).2 := (createProcess_path _ (hnone
    ((createProcess_currentProcess (off nodes blocks) (some initParams)).trans rfl))).mono hmono
  exact (hinit.trans hshell).tail (a := .switch _) trivial (switch_path _)

theorem base_boot : (boot nodes blocks).Base := boot_path.base base_off

end Machine

end BareKernel.Kernel
