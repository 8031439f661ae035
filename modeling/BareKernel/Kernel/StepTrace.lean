import BareKernel.Kernel.StepActions

/-!
# What steps record

The trace only grows. A run of actions inside a step can therefore be looked at
from both ends: what an action records, the whole step records.
-/

namespace BareKernel.Kernel

open ProcessState Runs

/-- The operation takes waiters off the queue of the semaphore. -/
def Obs.Touches (semId : ℕ) : Obs → Prop
  | .semPosted _ id _ | .semDestroyed id => id = semId
  | _ => False

/-- The action does not put the process to sleep. -/
def Act.spares (p : ℤ) : Act → Prop
  | .block pid | .sleep pid _ _ | .waitBlock pid _ _ => pid ≠ p
  | _ => True

/-- The observations that an action may add to the trace. -/
def Act.records : Act → Obs → Prop
  | .create pid, o => o = .created pid
  | .returned pid r, o => o = .returned pid r
  | .kill pid, o => o = .ended pid
  | .waitBlock pid target _, o => o = .waitCalled pid target
  | .waitGone pid target _, o =>
      o = .waitCalled pid target ∨ ∃ status, o = .waitReturned pid target status
  | .waitRead pid target _, o => ∃ status, o = .waitReturned pid target status
  | .semCreate semId value, o => o = .semCreated semId value
  | .take pid semId, o => o = .semWaited pid semId
  | .post semId, o => ∃ c before, o = .semPosted c semId before
  | .set semId value, o => o = .semSet semId value
  | .destroy semId, o => o = .semDestroyed semId
  | .moved o', o => o = o' ∧ o'.ofPipe
  | _, _ => False

namespace Machine

variable {S S' S₀ S₁ M M' : Machine} {a : Act} {e : Event} {c pid : ℤ} {semId : ℕ}
  {ok : Act → Prop} {o : Obs}

/-- Something is recorded between two states. -/
def Records (S S' : Machine) (o : Obs) : Prop := S.trace.count o < S'.trace.count o

theorem Records.within (h : M.Records M' o) (hM : S.trace <:+ M.trace)
    (hM' : M'.trace <:+ S'.trace) : S.Records S' o := by
  have hfirst := hM.sublist.count_le o
  have hlast := hM'.sublist.count_le o
  unfold Records at *
  omega

theorem not_records_self : ¬S.Records S o := Nat.lt_irrefl _

theorem not_records_same (h : S'.trace = S.trace) : ¬S.Records S' o := by
  unfold Records
  rw [h]
  exact Nat.lt_irrefl _

/-- What two stretches record, one of them records. -/
theorem Records.split (h : S.Records S' o) (M : Machine) : S.Records M o ∨ M.Records S' o := by
  unfold Records at *
  omega

theorem records_note (o : Obs) (h : S₀.trace <:+ S.trace) : S₀.Records (S.note o) o := by
  unfold Records
  rw [note_trace, List.count_cons_self]
  exact Nat.lt_succ_of_le (h.sublist.count_le o)

theorem records_note_iff {o' : Obs} : S.Records (S.note o) o' ↔ o' = o := by
  unfold Records
  rw [note_trace, List.count_cons]
  by_cases heq : o = o'
  · simp [heq]
  · simp [heq, Ne.symm heq]

theorem suffix_note (S : Machine) (o : Obs) : S.trace <:+ (S.note o).trace :=
  List.suffix_cons o S.trace

theorem killWake_trace (S : Machine) (pid : ℤ) : (S.killWake pid).trace = S.trace := by
  unfold killWake
  dsimp only
  split <;> rfl

theorem killWake_frames (S : Machine) (pid : ℤ) : (S.killWake pid).frames = S.frames := by
  unfold killWake
  dsimp only
  split <;> rfl

theorem killWake_sems (S : Machine) (pid : ℤ) : (S.killWake pid).sems = S.sems := by
  unfold killWake
  dsimp only
  split <;> rfl

theorem enlist_trace (S : Machine) (pid : ℤ) (semId : ℕ) :
    (S.enlist pid semId).trace = S.trace := by
  unfold enlist
  split <;> rfl

/-- **An action adds to the trace.** -/
theorem Does.trace (hd : S.Does a S') : S.trace <:+ S'.trace := by
  cases hd with
  | create => exact suffix_note _ _
  | returned => exact suffix_note _ _
  | kill => exact suffix_note _ _
  | killWake => exact ⟨[], (killWake_trace _ _).symm⟩
  | waitBlock => exact suffix_note _ _
  | waitGone => exact (suffix_note S _).trans (suffix_note _ _)
  | waitRead => exact suffix_note _ _
  | semCreate => exact suffix_note _ _
  | sleep =>
      have hlist := enlist_trace S
      exact ⟨[], (hlist _ _).symm⟩
  | take => exact suffix_note _ _
  | post => exact suffix_note _ _
  | set => exact suffix_note _ _
  | destroy => exact suffix_note _ _
  | moved => exact suffix_note _ _
  | _ => exact List.suffix_refl _

theorem Path.trace (h : Path ok S S') : S.trace <:+ S'.trace :=
  h.invariant (I := fun M => S.trace <:+ M.trace) (List.suffix_refl _)
    fun _ _ _ hM _ hd => hM.trans hd.trace

/-- **Invariant rule inside a step**: each action stands between the two ends. -/
theorem Path.within {I : Machine → Prop} (h : Path ok S S') (hS : I S)
    (hstep : ∀ M a M', I M → ok a → S.trace <:+ M.trace → M'.trace <:+ S'.trace →
      M.Does a M' → I M') : I S' := by
  have hall : ∀ M, Path ok M S' → S.trace <:+ M.trace → I M → I S' := by
    intro M hpath
    induction hpath using Relation.ReflTransGen.head_induction_on with
    | refl => exact fun _ hM => hM
    | head hnext hrest ih =>
        intro hsuffix hM
        obtain ⟨a, ha, hd⟩ := hnext
        apply ih (hsuffix.trans hd.trace)
        exact hstep _ a _ hM ha hsuffix (Path.trace hrest) hd
  exact hall S h (List.suffix_refl _) hS

/-! ## What an action records -/

/-- **An action records nothing else.** -/
theorem Does.records (hd : S.Does a S') (h : S.Records S' o) : a.records o := by
  have hnote : ∀ {T : Machine} {o' : Obs}, T.trace = S.trace → S.Records (T.note o') o → o = o' :=
    fun {T o'} hT hrec => records_note_iff.mp <| (hrec.split T).resolve_left (not_records_same hT)
  cases hd with
  | create => exact hnote rfl h
  | returned => exact hnote rfl h
  | kill => exact hnote rfl h
  | killWake => exact absurd h (not_records_same (killWake_trace _ _))
  | waitBlock => exact hnote rfl h
  | @waitGone pid target wstatus =>
      rcases h.split (S.note (.waitCalled pid target)) with hcall | hreturn
      · exact .inl (hnote rfl hcall)
      · exact .inr ⟨_, records_note_iff.mp hreturn⟩
  | waitRead => exact ⟨_, hnote rfl h⟩
  | semCreate => exact hnote rfl h
  | sleep => exact absurd h (not_records_same (enlist_trace S _ _))
  | take => exact hnote rfl h
  | post => exact ⟨_, _, hnote rfl h⟩
  | set => exact hnote rfl h
  | destroy => exact hnote rfl h
  | moved ho => exact ⟨hnote rfl h, ho⟩
  | _ => exact absurd h not_records_self

/-! ## Semaphores that are destroyed -/

theorem records_destroy (S : Machine) (semId : ℕ) :
    S.Records (S.releaseSem semId) (.semDestroyed semId) := by
  unfold Records releaseSem
  rw [note_trace, List.count_cons_self]
  exact Nat.lt_succ_self _

/-- No other action records the end of a semaphore. -/
theorem Does.records_destroyed (hd : S.Does a S') (h : S.Records S' (.semDestroyed semId)) :
    a = .destroy semId := by
  have ha := hd.records h
  cases a with
  | moved o => exact absurd ha.2 (ha.1 ▸ id)
  | _ => simp_all [Act.records]

/-- Only the events that may destroy a semaphore do. -/
theorem Path.mayDestroy (h : Path (Allowed S e) S S') (hrec : S.Records S' (.semDestroyed semId)) :
    S.MayDestroy e semId := by
  by_contra hno
  refine h.invariant (I := fun M => ¬S.Records M (.semDestroyed semId)) not_records_self ?_ hrec
  intro M a M' hM ha hd hM'
  by_cases hlast : M.Records M' (.semDestroyed semId)
  · rw [hd.records_destroyed hlast] at ha
    exact hno ha
  · unfold Records at *
    omega

/-! ## Who is inside a call of `semWait` -/

/-- A process stands in the waiting queue of a semaphore. -/
def Listed (S : Machine) (p : ℤ) (semId : ℕ) : Prop :=
  ∃ q, (S.sems.sems semId).waiting = .queue q ∧ p ∈ q

/-- Only the process that has the CPU gets into `semWait`. -/
theorem Does.frames_semWait {k : AfterWait} (hd : S.Does a S')
    (h : S'.frames pid = .semWait semId k) :
    S.frames pid = .semWait semId k ∨ a = .sleep pid semId k := by
  have hupdate : ∀ {p : ℤ} {f : Frame}, (∀ semId k, f ≠ .semWait semId k) →
      Function.update S.frames p f pid = .semWait semId k → S.frames pid = .semWait semId k := by
    intro p f hf hframe
    by_cases heq : pid = p
    · rw [heq, Function.update_self] at hframe
      exact absurd hframe (hf semId k)
    · rwa [Function.update_of_ne heq] at hframe
  cases hd with
  | create => exact .inl (hupdate (by simp) h)
  | kill => exact .inl (hupdate (by simp) h)
  | killWake =>
      rw [killWake_frames] at h
      exact .inl h
  | waitBlock => exact .inl (hupdate (by simp) h)
  | waitRead => exact .inl (hupdate (by simp) h)
  | @frame p f hc hf =>
      refine .inl (hupdate ?_ h)
      generalize S.frames p = f₀ at hf
      cases hf with
      | work _ _ hsem => exact hsem
      | forced => simp
      | exiting => simp
  | @sleep p s k' hc hf =>
      unfold fallAsleep at h
      rw [onSched_frames, setFrame_frames, enlist_frames] at h
      by_cases heq : pid = p
      · subst heq
        rw [Function.update_self, Frame.semWait.injEq] at h
        obtain ⟨rfl, rfl⟩ := h
        exact .inr rfl
      · rw [Function.update_of_ne heq] at h
        exact .inl h
  | _ => exact .inl h

/-- Within a step, whoever is inside `semWait` was there before, or has the CPU
and makes a call that waits. -/
theorem Path.frames_semWait {k : AfterWait} (h : Path (Allowed S e) S M)
    (hM : M.frames pid = .semWait semId k) : S.frames pid = .semWait semId k ∨
      MayWait e ∧ S.sched.currentProcess = some pid ∧ (S.frames pid).working := by
  refine h.invariant (I := fun M => ∀ semId k, M.frames pid = .semWait semId k →
    S.frames pid = .semWait semId k ∨ MayWait e ∧ S.sched.currentProcess = some pid ∧
      (S.frames pid).working) (fun _ _ => .inl) ?_ semId k hM
  intro M a M' hI hok hd semId k hM'
  rcases hd.frames_semWait hM' with hM | rfl
  · exact hI semId k hM
  · exact .inr hok

/-! ## Who is over -/

/-- The block of one process changes, and it is over or not as before. -/
theorem setProcess_exited {s : Sched} {q p : ℤ} {b : Process}
    (h : b.state = EXITED ↔ (s.processes q).state = EXITED) :
    ((s.setProcess q b).processes p).state = EXITED ↔ (s.processes p).state = EXITED := by
  by_cases heq : p = q
  · subst heq
    rw [Sched.setProcess_self]
    exact h
  · rw [Sched.setProcess_of_ne heq]

/-- A process that is valid does not end by blocking. -/
theorem blockProcess_exited {s : Sched} {q p : ℤ} (hc : s.currentProcess = some c)
    (hvalid : s.isValidPID q) : ((s.blockProcess q).2.processes p).state = EXITED ↔
      (s.processes p).state = EXITED := by
  rw [(Sched.blockProcess_quiet hc hvalid).exited p]
  apply setProcess_exited
  exact iff_of_false (by simp) (Sched.isValidPID_iff.mp hvalid).2.2

/-- Whoever goes on with a call of its own is a valid process, queued or not. -/
theorem enlist_valid {q : ℤ} (hbase : S.Base) (hc : S.sched.currentProcess = some q)
    (hf : (S.frames q).working) (semId : ℕ) : (S.enlist q semId).sched.isValidPID q := by
  have hvalid := hbase.valid hc (Frame.working_ne_exiting hf)
  rcases enlist_sched S q semId with heq | heq <;> rw [heq]
  · exact hvalid
  · exact hvalid

/-- Who waits is written down, and the caller is still a valid process. -/
theorem waitFor_valid {q : ℤ} (hbase : S.Base) (hc : S.sched.currentProcess = some q)
    (hf : S.frames q = .user) (target : ℤ) : (S.sched.setProcess target
      { S.sched.processes target with waitPid := q }).isValidPID q := by
  have hvalid := hbase.valid hc fun stage => by rw [hf]; simp
  obtain ⟨hlow, hhigh, halive⟩ := Sched.isValidPID_iff.mp hvalid
  apply Sched.isValidPID_iff.mpr
  refine ⟨hlow, hhigh, ?_⟩
  intro hover
  refine halive ((setProcess_exited ?_).mp hover)
  exact Iff.rfl

/-- **Only `kill` ends a process**, and only its slot being used again makes it live. -/
theorem Does.exited (hbase : S.Base) (hd : S.Does a S') (hnew : a ≠ .create pid)
    (hkill : a ≠ .kill pid) :
    (S'.sched.processes pid).state = EXITED ↔ (S.sched.processes pid).state = EXITED := by
  cases hd with
  | @switch isYield =>
      exact (Sched.switchContext_quiet (s := { S.sched with isYield := isYield })
        hbase.sound.settled).exited pid
  | block hc _ hvalid => exact blockProcess_exited hc hvalid
  | unblock => exact Sched.unblockProcess_exited
  | @create q b hq hexited hc hb =>
      have hne : pid ≠ q := by
        rintro rfl
        exact hnew rfl
      change (((S.sched.setProcess q b).schedule q).processes pid).state = EXITED ↔ _
      rw [Sched.schedule_processes, Sched.setProcess_of_ne hne]
  | returned => exact setProcess_exited Iff.rfl
  | @kill c q stage hc hq halive =>
      have hne : pid ≠ q := by
        rintro rfl
        exact hkill rfl
      change (((S.sched.unscheduleProcess q).setProcess q _).processes pid).state = EXITED ↔ _
      rw [Sched.setProcess_of_ne hne, Sched.unscheduleProcess_processes]
  | @killWake c q hc hexited =>
      unfold Machine.killWake
      dsimp only
      split
      · exact Iff.rfl
      · have hwake : ((S.sched.unblockProcess (S.sched.processes q).waitPid).2.processes
            pid).state = EXITED ↔ (S.sched.processes pid).state = EXITED :=
          Sched.unblockProcess_exited
        refine Iff.trans ?_ hwake
        exact setProcess_exited Iff.rfl
  | priority => exact setProcess_exited Iff.rfl
  | @waitBlock q target wstatus hc hf htarget halive =>
      have hset : ∀ p, ((S.sched.setProcess target
          { S.sched.processes target with waitPid := q }).processes p).state = EXITED ↔
            (S.sched.processes p).state = EXITED := fun p => setProcess_exited Iff.rfl
      have hvalid := waitFor_valid hbase hc hf target
      have hcur : (S.sched.setProcess target
          { S.sched.processes target with waitPid := q }).currentProcess = some q := hc
      exact (blockProcess_exited hcur hvalid).trans (hset pid)
  | @sleep q semId k hc hf hvalue hwaiting hin =>
      have hsched : (S.enlist q semId).sched.processes = S.sched.processes ∧
          (S.enlist q semId).sched.currentProcess = S.sched.currentProcess := by
        rcases enlist_sched S q semId with heq | heq <;> rw [heq] <;> exact ⟨rfl, rfl⟩
      have hblock := blockProcess_exited (p := pid) (hsched.2.trans hc)
        (enlist_valid hbase hc hf semId)
      rw [hsched.1] at hblock
      exact hblock
  | wake => exact Sched.unblockProcess_exited
  | _ => exact Iff.rfl

theorem setProcess_blocked {s : Sched} {q p : ℤ} {b : Process}
    (h : ((s.setProcess q b).processes p).state = BLOCKED)
    (hb : b.state = BLOCKED → (s.processes q).state = BLOCKED) :
    (s.processes p).state = BLOCKED := by
  by_cases heq : p = q
  · subst heq
    rw [Sched.setProcess_self] at h
    exact hb h
  · rwa [Sched.setProcess_of_ne heq] at h

/-- A process is blocked by nobody else's name. -/
theorem blockProcess_blocked {s : Sched} {q p c : ℤ} (hc : s.currentProcess = some c)
    (hvalid : s.isValidPID q) (hne : q ≠ p)
    (h : ((s.blockProcess q).2.processes p).state = BLOCKED) : (s.processes p).state = BLOCKED := by
  have hset := ((Sched.blockProcess_quiet hc hvalid).blocked p).mp h
  rwa [Sched.setState, Sched.setProcess_of_ne hne.symm] at hset

/-- **Only the actions that say so** put a process to sleep. -/
theorem Does.blocked {p : ℤ} (hbase : S.Base) (hd : S.Does a S') (hspares : a.spares p)
    (h : (S'.sched.processes p).state = BLOCKED) : (S.sched.processes p).state = BLOCKED := by
  cases hd with
  | @switch isYield =>
      exact ((Sched.switchContext_quiet (s := { S.sched with isYield := isYield })
        hbase.sound.settled).blocked p).mp h
  | block hc _ hvalid => exact blockProcess_blocked hc hvalid hspares h
  | unblock => exact Sched.unblockProcess_blocked h
  | @create q b hpid hexited hc hb =>
      change (((S.sched.setProcess q b).schedule q).processes p).state = BLOCKED at h
      rw [Sched.schedule_processes] at h
      exact setProcess_blocked h fun hblocked => absurd (hblocked.symm.trans hb.state) (by decide)
  | returned => exact setProcess_blocked h id
  | @kill c q stage hc hq halive =>
      exact setProcess_blocked (s := S.sched.unscheduleProcess q) h fun h => absurd h (by simp)
  | killWake =>
      unfold Machine.killWake at h
      dsimp only at h
      split at h
      · exact h
      · exact Sched.unblockProcess_blocked (setProcess_blocked h id)
  | priority => exact setProcess_blocked h id
  | @waitBlock q target wstatus hc hf htarget halive =>
      exact setProcess_blocked
        (blockProcess_blocked hc (waitFor_valid hbase hc hf target) hspares h) id
  | @sleep q semId k hc hf hvalue hwaiting hin =>
      have hvalid := enlist_valid hbase hc hf semId
      change (((S.enlist q semId).sched.blockProcess q).2.processes p).state = BLOCKED at h
      rcases enlist_sched S q semId with heq | heq <;> rw [heq] at hvalid h
      · exact blockProcess_blocked hc hvalid hspares h
      · exact blockProcess_blocked (s := S.sched.dropNode) hc hvalid hspares h
  | wake => exact Sched.unblockProcess_blocked h
  | _ => exact h

theorem Does.create_live (hd : S.Does (.create pid) S') :
    (S'.sched.processes pid).state ≠ EXITED := by
  cases hd with
  | @create _ b hpid hexited hc hb =>
      change (((S.sched.setProcess pid b).schedule pid).processes pid).state ≠ EXITED
      rw [Sched.schedule_processes, Sched.setProcess_self, hb.state]
      decide

/-- What has the CPU and is over has not got it by a switch. -/
theorem blockProcess_current {s : Sched} {q p : ℤ} (hvalid : s.isValidPID q)
    (hp : ((s.blockProcess q).2.processes p).state = EXITED)
    (h : (s.blockProcess q).2.currentProcess = some p) : s.currentProcess = some p := by
  rw [Sched.blockProcess_of_valid hvalid] at hp h
  split at hp
  · rename_i hc
    rw [if_pos hc] at h
    have hrun : (((s.setState q BLOCKED).yield).processes p).state = RUNNING :=
      Sched.switchContext_running h
    rw [hp] at hrun
    exact absurd hrun (by decide)
  · rename_i hc
    rwa [if_neg hc] at h

theorem Does.current (hbase : S.Base) (hd : S.Does a S')
    (hp : (S'.sched.processes pid).state = EXITED) (h : S'.sched.currentProcess = some pid) :
    S.sched.currentProcess = some pid := by
  cases hd with
  | @switch isYield =>
      have hrun : ((S.onSched fun s => { s with isYield := isYield }.switchContext).sched.processes
          pid).state = RUNNING := Sched.switchContext_running h
      rw [hp] at hrun
      exact absurd hrun (by decide)
  | block _ _ hvalid => exact blockProcess_current hvalid hp h
  | unblock => simpa using h
  | create => simpa using h
  | killWake =>
      unfold Machine.killWake at h
      dsimp only at h
      split at h
      · exact h
      · simpa using h
  | @waitBlock q target wstatus hc hf htarget halive =>
      exact blockProcess_current (s := S.sched.setProcess target
        { S.sched.processes target with waitPid := q }) (waitFor_valid hbase hc hf target) hp h
  | @sleep q semId k hc hf hvalue hwaiting hin =>
      have hvalid := enlist_valid hbase hc hf semId
      have hcur := blockProcess_current hvalid hp h
      rcases enlist_sched S q semId with heq | heq <;> rw [heq] at hcur <;> exact hcur
  | wake => simpa [wakeFirst] using h
  | _ => exact h

theorem Does.over (hbase : S.Base) (hd : S.Does a S') (hnew : a ≠ .create pid)
    (hover : (S.sched.processes pid).state = EXITED) :
    (S'.sched.processes pid).state = EXITED := by
  by_cases hkill : a = .kill pid
  · subst hkill
    cases hd with
    | kill _ _ halive => exact absurd hover halive
  · exact (hd.exited hbase hnew hkill).mpr hover

end Machine

end BareKernel.Kernel
