import BareKernel.Kernel.StepTrace

/-!
# Blocks by the user

One state stands for every reason to be blocked, so a process that the user blocked is
woken by whatever else may wake it: a semaphore in whose queue it stands, or the end of
a process it waits for. Nothing but these, the user and a new process in its slot makes
it run again.
-/

namespace BareKernel.Kernel

open ProcessState Runs

namespace Machine

variable {S S' S₀ M : Machine} {a : Act} {e : Event} {c p pid : ℤ} {semId : ℕ} {ok : Act → Prop}

/-- The process is blocked, or over. -/
def Stopped (S : Machine) (p : ℤ) : Prop :=
  (S.sched.processes p).state = BLOCKED ∨ (S.sched.processes p).state = EXITED

/-- No semaphore that the process waited on in the first state was posted or destroyed. -/
def Untouched (p : ℤ) (S₀ S : Machine) : Prop :=
  ∀ semId o, S₀.Listed p semId → o.Touches semId → ¬S₀.Records S o

/-- The process is still stopped, and stands in no queue it did not stand in before. -/
structure AtRest (p : ℤ) (S₀ S : Machine) : Prop where
  trace : S₀.trace <:+ S.trace
  stopped : S.Stopped p
  listed : ∀ semId, S.Listed p semId → S₀.Listed p semId

theorem AtRest.start (h : S.Stopped p) : AtRest p S S := ⟨List.suffix_refl _, h, fun _ hl => hl⟩

theorem Untouched.before (h : Untouched p S₀ S') (hsuffix : M.trace <:+ S'.trace) :
    Untouched p S₀ M :=
  fun semId o hlisted ho hrec => h semId o hlisted ho (hrec.within (List.suffix_refl _) hsuffix)

/-- From one state to the other the process stays stopped, unless a semaphore it waits on
is touched. -/
structure Passes (p : ℤ) (S S' : Machine) : Prop where
  trace : S.trace <:+ S'.trace
  rests : ∀ S₀, Untouched p S₀ S' → AtRest p S₀ S → AtRest p S₀ S'

theorem Passes.refl (S : Machine) : Passes p S S := ⟨List.suffix_refl _, fun _ _ h => h⟩

theorem Passes.trans (h : Passes p S M) (h' : Passes p M S') : Passes p S S' :=
  ⟨h.trace.trans h'.trace, fun S₀ hu hrest => h'.rests S₀ hu
    (h.rests S₀ (hu.before h'.trace) hrest)⟩

/-- What neither wakes the process nor lists it. -/
theorem Passes.of (htrace : S.trace <:+ S'.trace) (hstopped : S.Stopped p → S'.Stopped p)
    (hlisted : ∀ semId, S'.Listed p semId → S.Listed p semId) : Passes p S S' :=
  ⟨htrace, fun _ _ h => ⟨h.trace.trans htrace, hstopped h.stopped,
    fun semId hl => h.listed semId (hlisted semId hl)⟩⟩

theorem Passes.same (htrace : S.trace <:+ S'.trace)
    (hstate : (S'.sched.processes p).state = (S.sched.processes p).state)
    (hsems : S'.sems = S.sems) : Passes p S S' := by
  refine .of htrace (fun h => ?_) fun semId h => ?_
  · unfold Stopped
    rw [hstate]
    exact h
  · unfold Listed at *
    rwa [hsems] at h

theorem Passes.note (S : Machine) (o : Obs) : Passes p S (S.note o) :=
  .same (suffix_note S o) rfl rfl

theorem Passes.setFrame (S : Machine) (pid : ℤ) (f : Frame) : Passes p S (S.setFrame pid f) :=
  .same (List.suffix_refl _) rfl rfl

theorem Passes.setStream (S : Machine) (id : ℕ) (st : Stream) : Passes p S (S.setStream id st) :=
  .same (List.suffix_refl _) rfl rfl

/-- The waiting queue of a slot gets no new waiters. -/
theorem Passes.setSem {s : Sem}
    (hs : ∀ q, s.waiting = .queue q → p ∈ q → S.Listed p semId) :
    Passes p S (S.setSem semId s) := by
  refine .of (List.suffix_refl _) (fun h => h) fun other h => ?_
  obtain ⟨q, hq, hp⟩ := h
  by_cases heq : other = semId
  · subst heq
    rw [setSem_sems, SemTable.setSem_sems_self] at hq
    exact hs q hq hp
  · rw [setSem_sems, SemTable.setSem_sems_of_ne heq] at hq
    exact ⟨q, hq, hp⟩

theorem quiet_stopped {s : Sched} (h : Sched.Quiet S.sched s) (hstopped : S.Stopped p) :
    (s.processes p).state = BLOCKED ∨ (s.processes p).state = EXITED :=
  hstopped.imp (h.blocked p).mpr (h.exited p).mpr

theorem Passes.quiet {s : Sched} (h : Sched.Quiet S.sched s) : Passes p S { S with sched := s } :=
  .of (List.suffix_refl _) (quiet_stopped h) fun _ hl => hl

/-- Another process blocks, and gives up the CPU if it had it. -/
theorem Passes.block (hne : p ≠ pid) (hc : S.sched.currentProcess = some c) :
    Passes p S (S.onSched fun s => (s.blockProcess pid).2) := by
  cases hvalid : S.sched.isValidPID pid with
  | true =>
      refine .of (List.suffix_refl _) (fun h => ?_) fun _ hl => hl
      have hset : ((S.sched.setState pid BLOCKED).processes p).state =
          (S.sched.processes p).state := by
        rw [Sched.setState, Sched.setProcess_of_ne hne]
      have hquiet := Sched.blockProcess_quiet hc hvalid
      unfold Stopped at *
      rw [onSched_sched, hquiet.blocked, hquiet.exited, hset]
      exact h
  | false =>
      have hnone : S.sched.getProcess pid = none := by
        unfold Sched.isValidPID at hvalid
        unfold Sched.getProcess
        exact if_neg (of_decide_eq_false hvalid)
      have hsame : (S.sched.blockProcess pid).2 = S.sched := by
        unfold Sched.blockProcess
        rw [hnone]
      refine .same (List.suffix_refl _) ?_ rfl
      rw [onSched_sched, hsame]

/-! ## Posts -/

theorem Passes.wakeAll {pids : List ℤ} (hp : p ∉ pids) : Passes p S (S.wakeAll pids) := by
  have hall : ∀ {pids : List ℤ} {s : Sched}, p ∉ pids →
      (pids.foldl (fun s pid => (s.unblockProcess pid).2) s).processes p = s.processes p := by
    intro pids
    induction pids with
    | nil => exact fun _ => rfl
    | cons pid pids ih =>
        intro s hp
        rw [List.mem_cons, not_or] at hp
        rw [List.foldl_cons, ih hp.2, Sched.unblockProcess_of_ne hp.1]
  exact .same (List.suffix_refl _) (by rw [Machine.wakeAll, onSched_sched, hall hp]) rfl

/-- A record about the semaphore comes before the waiters are woken. -/
theorem Passes.touched {o : Obs} {pids : List ℤ} (hM : Passes p S M) (ho : o.Touches semId)
    (hlisted : p ∈ pids → S.Listed p semId) : Passes p S ((M.note o).wakeAll pids) := by
  refine ⟨hM.trace.trans (suffix_note M o), fun S₀ hu hrest => ?_⟩
  by_cases hp : p ∈ pids
  · have hrec : S₀.Records (M.note o) o := records_note o (hrest.trace.trans hM.trace)
    exact absurd hrec (hu semId o (hrest.listed semId (hlisted hp)) ho)
  · exact ((hM.trans (.note M o)).trans (.wakeAll hp)).rests S₀ hu hrest

theorem listed_of_elements {pids : List ℤ} (h : (S.sems.sems semId).waiting.elements = some pids)
    (hp : p ∈ pids) : S.Listed p semId := by
  rcases elements_some h with ⟨_, rfl⟩ | hq
  · cases hp
  · exact ⟨pids, hq, hp⟩

theorem Passes.semPost {semId : ℤ} {r : Int32} (h : S.semPost semId = some (r, S')) :
    Passes p S S' := by
  unfold Machine.semPost at h
  split at h
  · simp only [Option.some.injEq, Prod.mk.injEq] at h
    exact h.2 ▸ .refl S
  · dsimp only at h
    split at h
    · simp only [Option.some.injEq, Prod.mk.injEq] at h
      exact h.2 ▸ .refl S
    · split at h
      · simp at h
      · rename_i pids hpids
        simp only [Option.some.injEq, Prod.mk.injEq] at h
        rw [← h.2]
        refine .touched (.setSem fun q hq hp => ?_) rfl (listed_of_elements hpids)
        cases hw : (S.sems.sems semId.toNat).waiting with
        | queue elements =>
            rw [hw] at hq
            obtain rfl : elements.drop pids.length = q := by simpa [WaitQueue.drop] using hq
            exact ⟨elements, hw, List.mem_of_mem_drop hp⟩
        | null => simp [hw, WaitQueue.drop] at hq
        | freed => simp [hw, WaitQueue.drop] at hq

theorem Passes.semDestroy {semId : ℤ} {r : Int32} (h : S.semDestroy semId = some (r, S')) :
    Passes p S S' := by
  unfold Machine.semDestroy at h
  split at h
  · simp at h
  · split at h
    · simp at h
    · rename_i pids hpids
      simp only [Option.some.injEq, Prod.mk.injEq] at h
      rw [← h.2]
      have hrelease : Passes p S { S with sems := S.sems.release semId.toNat } := by
        refine Passes.setSem fun q hq _ => ?_
        cases hw : (S.sems.sems semId.toNat).waiting <;> simp [hw, WaitQueue.free] at hq
      exact hrelease.touched rfl (listed_of_elements hpids)

theorem Passes.postTimes {semId : ℤ} : ∀ {n : ℕ} {S : Machine},
    Machine.postTimes n S semId = some S' → Passes p S S' := by
  intro n
  induction n with
  | zero =>
      intro S h
      obtain rfl := Option.some.inj h
      exact .refl S
  | succ n ih =>
      intro S h
      simp only [Machine.postTimes, Option.bind_eq_bind, Option.bind_eq_some_iff, Prod.exists] at h
      obtain ⟨_, S₁, hpost, hrest⟩ := h
      exact (Passes.semPost hpost).trans (ih hrest)

/-! ## Closing a descriptor -/

theorem Passes.signalEof {id : ℕ} {st : Stream} (h : S.signalEof id st = some S') :
    Passes p S S' := by
  unfold Machine.signalEof at h
  split at h
  · exact (Passes.setStream S id _).trans (.postTimes h)
  · obtain rfl := Option.some.inj h
    exact .setStream S id st

theorem Passes.freeStream {id : ℕ} {st : Stream} (h : S.freeStream id st = some S') :
    Passes p S S' := by
  unfold Machine.freeStream at h
  split at h
  · simp only [Option.bind_eq_bind, Option.bind_eq_some_iff, Prod.exists] at h
    obtain ⟨_, S₁, hread, _, S₂, hwrite, h⟩ := h
    obtain rfl := Option.some.inj h
    exact ((Passes.semDestroy hread).trans (.semDestroy hwrite)).trans
      (.same (List.suffix_refl _) rfl rfl)
  · obtain rfl := Option.some.inj h
    exact .refl S

theorem Passes.closeFD {fd : ℤ} {r : Int32} (h : S.closeFD fd = some (r, S')) : Passes p S S' := by
  unfold Machine.closeFD at h
  dsimp only at h
  split at h
  · simp only [Option.some.injEq, Prod.mk.injEq] at h
    exact h.2 ▸ .refl S
  · simp only [Option.bind_eq_bind, Option.bind_eq_some_iff] at h
    obtain ⟨id, -, st, -, h⟩ := h
    split at h
    · simp only [Option.some.injEq, Prod.mk.injEq] at h
      exact h.2 ▸ .setStream S id _
    · simp only [closeEnd, Option.bind_eq_bind, Option.bind_eq_some_iff, Option.some.injEq,
        Prod.mk.injEq] at h
      obtain ⟨S₁, hsignal, S₂, hfree, -, rfl⟩ := h
      exact ((Passes.signalEof hsignal).trans (.freeStream hfree)).trans
        (.same (List.suffix_refl _) rfl rfl)

/-! ## Reading and writing -/

theorem Passes.takeByte {r : Reader} (h : S.takeByte pid r = some S') : Passes p S S' := by
  simp only [Machine.takeByte, Option.bind_eq_bind, Option.bind_eq_some_iff] at h
  obtain ⟨st, -, h⟩ := h
  split at h
  · simp only [Option.bind_eq_some_iff, Prod.exists] at h
    obtain ⟨_, S₁, hpost, h⟩ := h
    have hfirst := ((Passes.setStream (p := p) S r.stream st.advance).trans
      (.note _ (.took r.stream (st.buffer st.readPos)))).trans (.semPost hpost)
    split at h
    · obtain rfl := Option.some.inj h
      exact (hfirst.trans (.setFrame _ _ _)).trans (.note _ _)
    · obtain rfl := Option.some.inj h
      exact hfirst.trans (.setFrame _ _ _)
  · obtain rfl := Option.some.inj h
    exact ((Passes.setStream S _ _).trans (.setFrame _ _ _)).trans (.note _ _)

theorem Passes.storeByte {w : Writer} (h : S.storeByte pid w = some S') : Passes p S S' := by
  simp only [Machine.storeByte, Option.bind_eq_bind, Option.bind_eq_some_iff, Prod.exists] at h
  obtain ⟨st, -, byte, -, _, S₁, hpost, h⟩ := h
  obtain rfl := Option.some.inj h
  exact (((Passes.setStream S _ _).trans (.note _ _)).trans (.semPost hpost)).trans
    (.setFrame _ _ _)

theorem Passes.finishReadAt {stream pos : ℕ} (h : S.finishReadAt pid stream pos = some S') :
    Passes p S S' := by
  simp only [Machine.finishReadAt, Option.bind_eq_bind, Option.bind_eq_some_iff] at h
  obtain ⟨st, -, h⟩ := h
  obtain rfl := Option.some.inj h
  exact (Passes.setStream S _ _).trans (.setFrame _ _ _)

theorem Passes.afterWait {k : AfterWait} (h : S.afterWait pid k = some S') : Passes p S S' := by
  cases k with
  | done =>
      obtain rfl := Option.some.inj h
      exact .setFrame S _ _
  | take r => exact .takeByte h
  | store w => exact .storeByte h
  | readAt stream pos => exact .finishReadAt h

/-- Another process takes a token, or stands in the queue and sleeps. -/
theorem Passes.semWaitLoop {k : AfterWait} {taken : Bool} (hne : p ≠ pid)
    (hc : S.sched.currentProcess = some c)
    (h : S.semWaitLoop pid semId k = some (taken, S')) : Passes p S S' := by
  rcases semWaitLoop_cases h with ⟨-, -, -, rfl⟩ | ⟨-, -, rfl⟩
  · have hlist : Passes p S (S.enlist pid semId) := by
      unfold enlist
      split
      · rename_i q hq
        refine (Passes.setSem fun q' hq' hp => ?_).trans
          (.quiet (Sched.Quiet.of_processes rfl))
        obtain rfl : S.sched.append q pid = q' := by simpa using hq'
        unfold Sched.append at hp
        split at hp
        · rcases List.mem_append.mp hp with hp | hp
          · exact ⟨q, hq, hp⟩
          · exact absurd (List.mem_singleton.mp hp) hne
        · exact ⟨q, hq, hp⟩
      · exact .refl S
    have hc' : ((S.enlist pid semId).setFrame pid (.semWait semId k)).sched.currentProcess =
        some c := by
      rcases enlist_sched S pid semId with heq | heq <;> rw [setFrame_sched, heq] <;> exact hc
    exact (hlist.trans (.setFrame _ _ _)).trans (.block hne hc')
  · have hset : Passes p S (S.setSem semId
        { S.sems.sems semId with value := (S.sems.sems semId).value - 1 }) :=
      .setSem fun q hq hp => ⟨q, hq, hp⟩
    exact hset.trans (.note _ _)

theorem Passes.semWait {semId : ℤ} {k : AfterWait} {returned : Bool} (hne : p ≠ pid)
    (hc : S.sched.currentProcess = some c)
    (h : S.semWait pid semId k = some (returned, S')) : Passes p S S' := by
  unfold Machine.semWait at h
  split at h
  · simp only [Option.some.injEq, Prod.mk.injEq] at h
    exact h.2 ▸ .refl S
  · split at h
    · simp at h
    · split at h
      · simp only [Option.some.injEq, Prod.mk.injEq] at h
        exact h.2 ▸ .refl S
      · exact .semWaitLoop hne hc h

theorem Passes.waitThen {semId : ℤ} {k : AfterWait} (hne : p ≠ pid)
    (hc : S.sched.currentProcess = some c) (h : S.waitThen pid semId k = some S') :
    Passes p S S' := by
  simp only [Machine.waitThen, Option.bind_eq_bind, Option.bind_eq_some_iff, Prod.exists] at h
  obtain ⟨returned, S₁, hwait, h⟩ := h
  have hfirst := Passes.semWait hne hc hwait
  split at h
  · exact hfirst.trans (.afterWait h)
  · obtain rfl := Option.some.inj h
    exact hfirst

theorem Passes.readRound {r : Reader} (hne : p ≠ pid) (hc : S.sched.currentProcess = some c)
    (h : S.readRound pid r = some S') : Passes p S S' := by
  unfold Machine.readRound at h
  split at h
  · simp only [Option.bind_eq_bind, Option.bind_eq_some_iff] at h
    obtain ⟨st, -, S₁, htoken, h⟩ := h
    unfold eofToken at htoken
    split at htoken
    · simp only [Option.map_eq_map, Option.map_eq_some_iff, Prod.exists] at htoken
      obtain ⟨_, _, hpost, rfl⟩ := htoken
      have hcalm := (semPost_path (P := fun _ => True) (D := fun _ => True) trivial
        hpost hc).calm.1
      exact (Passes.semPost hpost).trans (.waitThen hne (hcalm.trans hc) h)
    · obtain rfl := Option.some.inj htoken
      exact .waitThen hne hc h
  · obtain rfl := Option.some.inj h
    exact (Passes.setFrame S _ _).trans (.note _ _)

theorem Passes.writeRound {w : Writer} (hne : p ≠ pid) (hc : S.sched.currentProcess = some c)
    (h : S.writeRound pid w = some S') : Passes p S S' := by
  unfold Machine.writeRound at h
  split at h
  · simp only [Option.bind_eq_bind, Option.bind_eq_some_iff] at h
    obtain ⟨st, -, h⟩ := h
    exact .waitThen hne hc h
  · obtain rfl := Option.some.inj h
    exact .setFrame S _ _

theorem Passes.readFromFDAt {fd : ℤ} (hne : p ≠ pid) (hc : S.sched.currentProcess = some c)
    (h : S.readFromFDAt pid fd = some S') : Passes p S S' := by
  unfold Machine.readFromFDAt at h
  dsimp only at h
  split at h
  · obtain rfl := Option.some.inj h
    exact .refl S
  · simp only [Option.bind_eq_bind, Option.bind_eq_some_iff] at h
    obtain ⟨stream, -, st, -, h⟩ := h
    split at h
    · exact .waitThen hne hc h
    · exact .finishReadAt h

/-! ## Ending a process -/

/-- The process is killed, or another one is. -/
theorem Passes.killStart (stage : ExitStage) : Passes p S (S.killStart pid stage) := by
  refine .of (suffix_note _ _) (fun h => ?_) fun _ hl => hl
  by_cases heq : p = pid
  · subst heq
    exact .inr (killStart_state S p stage)
  · unfold Stopped Machine.killStart at *
    rw [note_sched, setFrame_sched, Sched.setProcess_of_ne heq, Sched.unscheduleProcess_processes]
    exact h

theorem Passes.killWake (hne : (S.sched.processes pid).waitPid ≠ p) :
    Passes p S (S.killWake pid) := by
  refine .same ⟨[], (killWake_trace S pid).symm⟩ ?_ (killWake_sems S pid)
  unfold Machine.killWake
  dsimp only
  split
  · rfl
  · rw [onSched_sched]
    by_cases heq : p = pid
    · subst heq
      rw [Sched.setProcess_self, Sched.unblockProcess_of_ne (Ne.symm hne)]
    · rw [Sched.setProcess_of_ne heq, Sched.unblockProcess_of_ne (Ne.symm hne)]

/-- Closing a descriptor does not change who waits for whom. -/
theorem closing_waitPid {P D : ℕ → Prop} (h : Path (closing P D) S S') (q : ℤ) :
    (S'.sched.processes q).waitPid = (S.sched.processes q).waitPid := by
  refine h.invariant (I := fun M => (M.sched.processes q).waitPid = (S.sched.processes q).waitPid)
    rfl fun M a M' hM hok hd => ?_
  cases hd <;> simp only [closing] at hok
  case wake => simpa [wakeFirst, Sched.unblockProcess_waitPid] using hM
  all_goals exact hM

theorem Passes.switch (hc : S.sched.currentProcess = some c) :
    Passes p S (S.onSched Sched.forceSwitchContext) :=
  .quiet (Sched.switchContext_quiet (Sched.settled_of_some hc))

theorem Passes.kill {r : Int32} (hc : S.sched.currentProcess = some c)
    (hne : (S.sched.processes pid).waitPid ≠ p) (h : S.kill pid = some (r, S')) :
    Passes p S S' := by
  unfold Machine.kill at h
  split at h
  · simp only [Option.some.injEq, Prod.mk.injEq] at h
    exact h.2 ▸ .refl S
  · simp only [Option.bind_eq_bind, Option.bind_eq_some_iff, Prod.exists] at h
    obtain ⟨_, S₁, hin, _, S₂, hout, h⟩ := h
    have hc₀ : (S.killStart pid .leave).sched.currentProcess = some c := hc
    have hpathIn := closeFD_path (P := fun _ => True) (D := fun _ => True)
      (fun _ => trivial) (fun _ => trivial) hc₀ hin
    have hc₁ : S₁.sched.currentProcess = some c := hpathIn.calm.1.trans hc₀
    have hpathOut := closeFD_path (P := fun _ => True) (D := fun _ => True)
      (fun _ => trivial) (fun _ => trivial) hc₁ hout
    have hwait : (S₂.sched.processes pid).waitPid = (S.sched.processes pid).waitPid := by
      rw [closing_waitPid hpathOut, closing_waitPid hpathIn]
      unfold Machine.killStart
      rw [note_sched, setFrame_sched, Sched.setProcess_self, Sched.unscheduleProcess_processes]
    have hpass : Passes p S (S₂.killWake pid) :=
      (((Passes.killStart .leave).trans (.closeFD hin)).trans (.closeFD hout)).trans
        (.killWake (hwait ▸ hne))
    split at h <;> simp only [Option.some.injEq, Prod.mk.injEq] at h
    · rename_i hcur
      exact h.2 ▸ hpass.trans (.switch hcur)
    · exact h.2 ▸ hpass

/-- A part of the end of the current process; only the last but one wakes somebody. -/
theorem Passes.exitRound {stage : ExitStage} (hc : S.sched.currentProcess = some pid)
    (hne : stage = .wake → (S.sched.processes pid).waitPid ≠ p)
    (h : S.exitRound pid stage = some S') : Passes p S S' := by
  cases stage with
  | closeIn =>
      simp only [Machine.exitRound, Option.bind_eq_bind, Option.bind_eq_some_iff, Prod.exists] at h
      obtain ⟨_, S₁, hclose, h⟩ := h
      obtain rfl := Option.some.inj h
      exact (Passes.closeFD hclose).trans (.setFrame _ _ _)
  | closeOut =>
      simp only [Machine.exitRound, Option.bind_eq_bind, Option.bind_eq_some_iff, Prod.exists] at h
      obtain ⟨_, S₁, hclose, h⟩ := h
      obtain rfl := Option.some.inj h
      exact (Passes.closeFD hclose).trans (.setFrame _ _ _)
  | wake =>
      obtain rfl := Option.some.inj h
      exact (Passes.killWake (hne rfl)).trans (.setFrame _ _ _)
  | leave =>
      obtain rfl := Option.some.inj h
      exact .switch hc

/-! ## Steps without posts -/

/-- The actions that may make a blocked process ready, or use its slot again. -/
def mayWake (p : ℤ) : Act → Prop
  | .create q | .unblock q => q = p
  | .wake _ | .killWake _ => True
  | _ => False

theorem blockProcess_stopped {s : Sched} (hc : s.currentProcess = some c)
    (hvalid : s.isValidPID pid)
    (h : (s.processes p).state = BLOCKED ∨ (s.processes p).state = EXITED) :
    ((s.blockProcess pid).2.processes p).state = BLOCKED ∨
      ((s.blockProcess pid).2.processes p).state = EXITED := by
  have hquiet := Sched.blockProcess_quiet hc hvalid
  rw [hquiet.blocked, hquiet.exited]
  by_cases heq : p = pid
  · subst heq
    exact .inl Sched.setState_state
  · rwa [Sched.setState, Sched.setProcess_of_ne heq]

theorem setProcess_stopped {s : Sched} {q : ℤ} {b : Process}
    (hb : b.state = (s.processes q).state)
    (h : (s.processes p).state = BLOCKED ∨ (s.processes p).state = EXITED) :
    ((s.setProcess q b).processes p).state = BLOCKED ∨
      ((s.setProcess q b).processes p).state = EXITED := by
  by_cases heq : p = q
  · subst heq
    rwa [Sched.setProcess_self, hb]
  · rwa [Sched.setProcess_of_ne heq]

/-- **No other action wakes a process.** -/
theorem Does.stopped (hbase : S.Base) (hd : S.Does a S') (hno : ¬mayWake p a)
    (h : S.Stopped p) : S'.Stopped p := by
  cases hd with
  | @switch isYield =>
      have hquiet := Sched.switchContext_quiet (s := { S.sched with isYield := isYield })
        hbase.sound.settled
      exact h.imp (hquiet.blocked p).mpr (hquiet.exited p).mpr
  | block hc _ hvalid => exact blockProcess_stopped hc hvalid h
  | @unblock c q hc =>
      have hne : p ≠ q := by
        rintro rfl
        exact hno rfl
      unfold Stopped at *
      rwa [onSched_sched, Sched.unblockProcess_of_ne hne]
  | @create q b hq hexited hc hb =>
      have hne : p ≠ q := by
        rintro rfl
        exact hno rfl
      unfold Stopped at *
      rwa [note_sched, setFrame_sched, onSched_sched, Sched.schedule_processes,
        Sched.setProcess_of_ne hne]
  | returned => exact setProcess_stopped (q := _) rfl h
  | @kill c q stage hc hq halive =>
      by_cases heq : p = q
      · subst heq
        exact .inr (killStart_state S p stage)
      · unfold Stopped Machine.killStart at *
        rwa [note_sched, setFrame_sched, Sched.setProcess_of_ne heq,
          Sched.unscheduleProcess_processes]
  | killWake => exact absurd trivial hno
  | priority => exact setProcess_stopped (q := _) rfl h
  | @waitBlock q target wstatus hc hf htarget halive =>
      have hset := setProcess_stopped (q := target)
        (b := { S.sched.processes target with waitPid := q }) rfl h
      exact blockProcess_stopped hc (waitFor_valid hbase hc hf target) hset
  | @sleep q semId k hc hf hvalue hwaiting hin =>
      have hsched : (S.enlist q semId).sched.processes = S.sched.processes ∧
          (S.enlist q semId).sched.currentProcess = S.sched.currentProcess := by
        rcases enlist_sched S q semId with heq | heq <;> rw [heq] <;> exact ⟨rfl, rfl⟩
      refine blockProcess_stopped (hsched.2.trans hc) (enlist_valid hbase hc hf semId) ?_
      rw [setFrame_sched, hsched.1]
      exact h
  | wake => exact absurd trivial hno
  | _ => exact h

theorem records_created (hd : S.Does (.create p) S') : S.Records S' (.created p) := by
  cases hd with
  | create => exact records_note _ (List.suffix_refl _)

/-- A run of actions that wake nobody leaves the process stopped. -/
theorem Path.stopped (hbase : S.Base) (h : Path ok S S')
    (hok : ∀ a, ok a → ¬mayWake p a ∨ a = .create p) (hno : ¬S.Records S' (.created p))
    (hS : S.Stopped p) : S'.Stopped p := by
  refine (h.within (I := fun M => M.Base ∧ M.Stopped p) ⟨hbase, hS⟩ ?_).2
  rintro M a M' ⟨hM, hstopped⟩ ha hfirst hlast hd
  refine ⟨hM.does hd, ?_⟩
  rcases hok a ha with hcalm | rfl
  · exact hd.stopped hM hcalm hstopped
  · exact absurd ((records_created hd).within hfirst hlast) hno

/-! ## Steps -/

/-- **What wakes a blocked process**: the user, its slot being used again, a semaphore in
whose queue it stands, and the end of a process it is noted down to wait for. -/
def Wakes (p : ℤ) (S S' : Machine) (e : Event) : Prop :=
  e = .call (.unblock p) ∨
  S.Records S' (.created p) ∨
  (∃ semId o, S.Listed p semId ∧ o.Touches semId ∧ S.Records S' o) ∨
  (∃ semId value q, e = .call (.semSetValue semId value) ∧
    (S.sems.sems semId.toNat).waiting = .queue q ∧
    p ∈ q.take (value - (S.sems.sems semId.toNat).value).toInt.toNat) ∨
  ∃ q, (S.sched.processes q).waitPid = p ∧ (e = .call (.kill q) ∧ S.Records S' (.ended q) ∨
    e = .resume ∧ S.sched.currentProcess = some q ∧ S.frames q = .exiting .wake)

/-- The event does not wake the process. -/
def Spares (p : ℤ) (S : Machine) (e : Event) : Prop := ∀ S', S.Step e S' → ¬Wakes p S S' e

theorem Passes.stopped (h : Passes p S S') (hno : ¬Wakes p S S' e) (hS : S.Stopped p) :
    S'.Stopped p := by
  refine (h.rests S ?_ (.start hS)).stopped
  intro semId o hlisted ho hrec
  exact hno (.inr (.inr (.inl ⟨semId, o, hlisted, ho, hrec⟩)))

theorem allowed_calm (hpost : ∀ semId, ¬MayPost e semId) (hunblock : e ≠ .call (.unblock p))
    (ha : Allowed S e a) : ¬mayWake p a ∨ a = .create p := by
  cases a with
  | create q =>
      by_cases heq : q = p
      · exact .inr (by rw [heq])
      · exact .inl heq
  | unblock q =>
      left
      rintro rfl
      exact hunblock ha
  | wake semId => exact absurd ha (hpost semId)
  | killWake q =>
      rcases ha with rfl | ⟨rfl, -⟩
      · exact absurd trivial (hpost 0)
      · exact absurd trivial (hpost 0)
  | _ => exact .inl id

/-- A process that is killed without being waited for by this one. -/
theorem Passes.killCall {q : ℤ} {r : Int32} (hc : S.sched.currentProcess = some c)
    (hno : ¬Wakes p S S' (.call (.kill q))) (h : S.kill q = some (r, S')) : Passes p S S' := by
  by_cases hwait : (S.sched.processes q).waitPid = p
  · rcases kill_cases hc h with ⟨rfl, -⟩ | ⟨-, -, S₁, hclose, hlast⟩
    · exact .refl S'
    · have hpath : (S.killStart q .leave).trace <:+ S'.trace := by
        have hwake : (S₁.killWake q).trace = S₁.trace := killWake_trace S₁ q
        rw [hlast]
        split
        · rw [onSched_trace, hwake]
          exact hclose.trace
        · rw [hwake]
          exact hclose.trace
      have hrec : S.Records (S.killStart q .leave) (.ended q) :=
        records_note _ (List.suffix_refl _)
      have hended : S.Records S' (.ended q) := hrec.within (List.suffix_refl _) hpath
      exact absurd (.inr (.inr (.inr (.inr ⟨q, hwait, .inl ⟨rfl, hended⟩⟩)))) hno
  · exact .kill hc hwait h

/-- A semaphore is raised, and the process is not among those that are woken. -/
theorem Passes.semSetValue {semId : ℤ} {value r : Int32}
    (hno : ¬Wakes p S S' (.call (.semSetValue semId value)))
    (h : S.semSetValue semId value = some (r, S')) : Passes p S S' := by
  have hset : ∀ {w : WaitQueue}, (∀ q, w = .queue q → p ∈ q → S.Listed p semId.toNat) →
      Passes p S ((S.setSem semId.toNat { S.sems.sems semId.toNat with
        value := value, waiting := w }).note (.semSet semId.toNat value)) := fun hw =>
    (Passes.setSem hw).trans (.note _ _)
  unfold Machine.semSetValue at h
  split at h
  · simp only [Option.some.injEq, Prod.mk.injEq] at h
    exact h.2 ▸ .refl S
  · dsimp only at h
    split at h
    · simp only [Option.some.injEq, Prod.mk.injEq] at h
      exact h.2 ▸ .refl S
    · split at h
      · split at h
        · simp at h
        · rename_i pids hpids
          simp only [Option.some.injEq, Prod.mk.injEq] at h
          rw [← h.2]
          refine (hset fun q hq hp => ?_).trans (.wakeAll fun hp => ?_)
          · cases hw : (S.sems.sems semId.toNat).waiting with
            | queue elements =>
                rw [hw] at hq
                obtain rfl : elements.drop _ = q := by simpa [WaitQueue.drop] using hq
                exact ⟨elements, hw, List.mem_of_mem_drop hp⟩
            | null => simp [hw, WaitQueue.drop] at hq
            | freed => simp [hw, WaitQueue.drop] at hq
          · rcases elements_some hpids with ⟨-, rfl⟩ | hw
            · simp at hp
            · exact hno (.inr (.inr (.inr (.inl ⟨semId, value, pids, rfl, hw, hp⟩))))
      · simp only [Option.some.injEq, Prod.mk.injEq] at h
        exact h.2 ▸ hset fun q hq hp => ⟨q, hq, hp⟩

/-- A system call of another process that may take waiters off a queue. -/
theorem Passes.sysCall {call : Syscall} (hne : p ≠ c) (hc : S.sched.currentProcess = some c)
    (hpost : ∃ semId, MayPost (.call call) semId) (hno : ¬Wakes p S S' (.call call))
    (h : S.sysCall c call = some S') : Passes p S S' := by
  cases call with
  | kill q =>
      simp only [Machine.sysCall, Option.map_eq_map, Option.map_eq_some_iff, Prod.exists] at h
      obtain ⟨r, _, hkill, rfl⟩ := h
      exact .killCall hc hno hkill
  | semWait semId =>
      simp only [Machine.sysCall] at h
      split at h
      · exact .waitThen hne hc h
      · exact Option.some.inj h ▸ .refl S
  | semPost semId =>
      simp only [Machine.sysCall] at h
      split at h
      · simp only [Option.map_eq_map, Option.map_eq_some_iff, Prod.exists] at h
        obtain ⟨r, _, hsem, rfl⟩ := h
        exact .semPost hsem
      · exact Option.some.inj h ▸ .refl S
  | semSetValue semId value =>
      simp only [Machine.sysCall, Option.map_eq_map, Option.map_eq_some_iff, Prod.exists] at h
      obtain ⟨r, _, hset, rfl⟩ := h
      exact .semSetValue hno hset
  | semDestroy semId =>
      simp only [Machine.sysCall] at h
      split at h
      · simp only [Option.map_eq_map, Option.map_eq_some_iff, Prod.exists] at h
        obtain ⟨r, _, hsem, rfl⟩ := h
        exact .semDestroy hsem
      · exact Option.some.inj h ▸ .refl S
  | close fd =>
      simp only [Machine.sysCall, Option.map_eq_map, Option.map_eq_some_iff, Prod.exists] at h
      obtain ⟨r, _, hclose, rfl⟩ := h
      exact .closeFD hclose
  | read fd count =>
      simp only [Machine.sysCall, readFromFD] at h
      split at h
      · split at h
        · exact Option.some.inj h ▸ .refl S
        · simp at h
      · split at h
        · exact Option.some.inj h ▸ .refl S
        · simp only [Option.bind_eq_bind, Option.bind_eq_some_iff] at h
          obtain ⟨stream, -, h⟩ := h
          exact Option.some.inj h ▸ .setFrame S _ _
  | write fd buf =>
      simp only [Machine.sysCall, writeToFD] at h
      split at h
      · exact Option.some.inj h ▸ .refl S
      · simp only [Option.bind_eq_bind, Option.bind_eq_some_iff] at h
        obtain ⟨stream, -, st, -, h⟩ := h
        exact Option.some.inj h ▸ (Passes.setStream S _ _).trans (.setFrame _ _ _)
  | readAt fd => exact .readFromFDAt hne hc h
  | _ =>
      obtain ⟨semId, hmay⟩ := hpost
      exact absurd hmay id

/-- Another process goes on inside the kernel, or this one ends itself. -/
theorem Passes.resume (hbase : S.Base) (hS : S.Stopped p) (hc : S.sched.currentProcess = some c)
    (hno : ¬Wakes p S S' .resume) (h : S.resume c (S.frames c) = some S') : Passes p S S' := by
  have hne : (∀ stage, S.frames c ≠ .exiting stage) → p ≠ c := by
    rintro hf rfl
    have hrun := hbase.running hc hf
    rcases hS with hS | hS <;> rw [hrun] at hS <;> exact absurd hS (by decide)
  generalize hf : S.frames c = f at h hne
  cases f with
  | user => simp [Machine.resume] at h
  | semWait semId k =>
      have hother : p ≠ c := hne fun stage => by simp
      simp only [Machine.resume, Option.bind_eq_bind, Option.bind_eq_some_iff, Prod.exists] at h
      obtain ⟨taken, S₁, hloop, h⟩ := h
      have hfirst := Passes.semWaitLoop hother hc hloop
      split at h
      · exact hfirst.trans (.afterWait h)
      · exact Option.some.inj h ▸ hfirst
  | waitBlock target wstatus =>
      have hc' : (S.setFrame c (.waitForced target wstatus)).sched.currentProcess = some c := hc
      exact Option.some.inj h ▸ (Passes.setFrame S _ _).trans (.switch hc')
  | waitForced target wstatus =>
      exact Option.some.inj h ▸ (Passes.setFrame S _ _).trans (.note _ _)
  | reading r => exact .readRound (hne fun stage => by simp) hc h
  | writing w => exact .writeRound (hne fun stage => by simp) hc h
  | exiting stage =>
      refine .exitRound hc ?_ h
      rintro rfl hwait
      exact hno (.inr (.inr (.inr (.inr ⟨c, hwait, .inr ⟨rfl, hc, hf⟩⟩))))

/-- **A step leaves a stopped process stopped**, unless it wakes it. -/
theorem step_stopped (hbase : S.Base) (hS : S.Stopped p) (h : S.Step e S')
    (hno : ¬Wakes p S S' e) : S'.Stopped p := by
  by_cases hpost : ∃ semId, MayPost e semId
  · cases e with
    | call call =>
        obtain ⟨c, hc, hf, hcall⟩ := step_call h
        have hne : p ≠ c := by
          rintro rfl
          have hrun := hbase.running hc fun stage => by rw [hf]; simp
          rcases hS with hS | hS <;> rw [hrun] at hS <;> exact absurd hS (by decide)
        exact (Passes.sysCall hne hc hpost hno hcall).stopped hno hS
    | resume =>
        unfold Step step at h
        cases hc : S.sched.currentProcess with
        | none => simp [hc] at h
        | some c =>
            simp only [hc] at h
            exact (Passes.resume hbase hS hc hno h).stopped hno hS
    | tick =>
        obtain ⟨semId, hmay⟩ := hpost
        exact absurd hmay id
    | exit r =>
        obtain ⟨semId, hmay⟩ := hpost
        exact absurd hmay id
  · have hunblock : e ≠ .call (.unblock p) := fun heq => hno (.inl heq)
    exact (step_path hbase h).stopped hbase
      (fun a ha => allowed_calm (fun semId hmay => hpost ⟨semId, hmay⟩) hunblock ha)
      (fun hrec => hno (.inr (.inl hrec))) hS

/-! ## Runs -/

/-- What the user blocks is blocked when the call is over. -/
theorem block_stopped (hpid : p ≠ initPid) (hvalid : S.sched.isValidPID p)
    (h : S.Step (.call (.block p)) S') : S'.Stopped p := by
  obtain ⟨c, hc, hf, hcall⟩ := step_call h
  have hdone : S' = S.onSched fun s => (s.blockProcess p).2 := by
    rw [← Option.some.inj hcall, sysBlock, if_neg]
    simp [hpid, hvalid]
  have hquiet := Sched.blockProcess_quiet hc hvalid
  left
  rw [hdone, onSched_sched, hquiet.blocked]
  exact Sched.setState_state

/-- **A user block is respected until something else wakes the process.** -/
theorem user_block (nodes blocks : ℕ → Bool) (S S₁ S₂ : Machine) (p : ℤ)
    (hreach : Reaches Step always (boot nodes blocks) S) (hpid : p ≠ initPid)
    (hvalid : S.sched.isValidPID p) (hblock : S.Step (.call (.block p)) S₁)
    (hrun : Reaches Step (Spares p) S₁ S₂) : (S₂.sched.processes p).state ≠ RUNNING := by
  have hbase : S.Base := hreach.invariant base_boot fun _ _ _ h _ hstep => h.step hstep
  have hstopped : S₁.Stopped p := block_stopped hpid hvalid hblock
  have hall : S₂.Base ∧ S₂.Stopped p := by
    refine hrun.invariant (I := fun M => M.Base ∧ M.Stopped p) ⟨hbase.step hblock, hstopped⟩ ?_
    rintro M e M' ⟨hM, hst⟩ hspares hstep
    exact ⟨hM.step hstep, step_stopped hM hst hstep (hspares M' hstep)⟩
  rcases hall.2 with h | h <;> rw [h] <;> decide

/-- A call of `yield` wakes nobody. -/
theorem spares_yield (S : Machine) (p : ℤ) : S.Spares p (.call .yield) := by
  intro S' hstep hwakes
  obtain ⟨c, hc, hf, hcall⟩ := step_call hstep
  have htrace : ∀ o, ¬S.Records S' o := by
    intro o hrec
    rw [← Option.some.inj hcall] at hrec
    exact Nat.lt_irrefl _ hrec
  rcases hwakes with h | h | ⟨_, o, -, -, h⟩ | ⟨_, _, _, h, -⟩ | ⟨q, -, ⟨h, -⟩ | ⟨h, -⟩⟩
  · exact absurd h (by simp)
  · exact htrace _ h
  · exact htrace o h
  · exact absurd h (by simp)
  · exact absurd h (by simp)
  · exact absurd h (by simp)

/-- The shell blocks a worker that sleeps in `semWait`, and yields. -/
theorem user_block_worker : ∃ S, exec step booted
    (workerSleeps ++ [.call (.block 3), .call .yield]) = some S ∧
      (S.sched.processes 3).state ≠ RUNNING := by
  obtain ⟨S, hS⟩ := Option.isSome_iff_exists.mp (by decide +kernel :
    (exec step booted workerSleeps).isSome)
  obtain ⟨S₁, hS₁⟩ := Option.isSome_iff_exists.mp (by decide +kernel :
    ((exec step booted workerSleeps).bind fun S => S.step (.call (.block 3))).isSome)
  obtain ⟨S₂, hS₂⟩ := Option.isSome_iff_exists.mp (by decide +kernel :
    (((exec step booted workerSleeps).bind fun S => S.step (.call (.block 3))).bind
      fun S => S.step (.call .yield)).isSome)
  have hvalid : (exec step booted workerSleeps).map (fun S => S.sched.isValidPID 3) =
      some true := by
    decide +kernel
  rw [hS₁] at hS₂
  rw [hS] at hS₁ hvalid
  simp only [Option.map_some, Option.some.injEq, Option.bind_some] at *
  have hrun : Reaches Step (Spares 3) S₁ S₂ :=
    (Reaches.refl S₁).tail (spares_yield S₁ 3) hS₂
  refine ⟨S₂, ?_, user_block _ _ S S₁ S₂ 3 (exec_always hS fun _ _ _ => trivial) (by decide)
    hvalid hS₁ hrun⟩
  rw [exec_append, hS]
  simp [exec, hS₁, hS₂]

/-- The process is not unblocked by the user, and its slot is not used again. -/
def Unreleased (p : ℤ) (S : Machine) (e : Event) : Prop :=
  e ≠ .call (.unblock p) ∧ ∀ S', S.Step e S' → ¬S.Records S' (.created p)

/-- **A post ends a user block**: the shell blocks a worker that sleeps in `semWait`, and
posts to the semaphore; the worker runs. -/
theorem post_ends_block : ¬∀ nodes blocks S S₁ S₂ p,
    Reaches Step always (boot nodes blocks) S → p ≠ initPid → S.sched.isValidPID p →
      S.Step (.call (.block p)) S₁ → Reaches Step (Unreleased p) S₁ S₂ →
        (S₂.sched.processes p).state ≠ RUNNING := by
  intro hall
  obtain ⟨S, hS⟩ := Option.isSome_iff_exists.mp (by decide +kernel :
    (exec step booted workerSleeps).isSome)
  obtain ⟨S₁, hS₁⟩ := Option.isSome_iff_exists.mp (by decide +kernel :
    ((exec step booted workerSleeps).bind fun S => S.step (.call (.block 3))).isSome)
  obtain ⟨M, hM⟩ := Option.isSome_iff_exists.mp (by decide +kernel :
    (((exec step booted workerSleeps).bind fun S => S.step (.call (.block 3))).bind
      fun S => S.step (.call (.semPost 3))).isSome)
  obtain ⟨S₂, hS₂⟩ := Option.isSome_iff_exists.mp (by decide +kernel :
    ((((exec step booted workerSleeps).bind fun S => S.step (.call (.block 3))).bind
      fun S => S.step (.call (.semPost 3))).bind fun S => S.step (.call .yield)).isSome)
  have hvalid : (exec step booted workerSleeps).map (fun S => S.sched.isValidPID 3) =
      some true := by
    decide +kernel
  have hblocked : ((exec step booted workerSleeps).bind fun S => S.step (.call (.block 3))).map
      (fun S => S.trace.count (.created 3)) = some 1 := by
    decide +kernel
  have hposted : (((exec step booted workerSleeps).bind fun S => S.step (.call (.block 3))).bind
      fun S => S.step (.call (.semPost 3))).map
        (fun S => S.trace.count (.created 3)) = some 1 := by
    decide +kernel
  have hafter : ((((exec step booted workerSleeps).bind fun S => S.step (.call (.block 3))).bind
      fun S => S.step (.call (.semPost 3))).bind fun S => S.step (.call .yield)).map
        (fun S => (S.sched.processes 3).state) = some RUNNING := by
    decide +kernel
  rw [hS₂] at hafter
  rw [hM] at hS₂ hposted
  rw [hS₁] at hM hblocked
  rw [hS] at hS₁ hvalid
  simp only [Option.map_some, Option.some.injEq, Option.bind_some] at *
  have hpost : Unreleased 3 S₁ (.call (.semPost 3)) := by
    refine ⟨by simp, fun S' hstep hrec => ?_⟩
    obtain rfl : M = S' := Option.some.inj (hM.symm.trans hstep)
    unfold Records at hrec
    omega
  have hyield : Unreleased 3 M (.call .yield) :=
    ⟨by simp, fun S' hstep hrec => spares_yield M 3 S' hstep (.inr (.inl hrec))⟩
  have hrun : Reaches Step (Unreleased 3) S₁ S₂ :=
    ((Reaches.refl S₁).tail hpost hM).tail hyield hS₂
  exact hall _ _ S S₁ S₂ 3 (exec_always hS fun _ _ _ => trivial) (by decide) hvalid hS₁ hrun hafter

end Machine

end BareKernel.Kernel
