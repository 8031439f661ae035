import BareKernel.Kernel.Descriptors
import BareKernel.Kernel.SemaphoreNames
import BareKernel.Kernel.StepTrace

/-!
# What a step does with semaphores and streams

Most steps leave the streams and the semaphores in use as they are. The others
are listed once, and with them what the frame of the process that has the CPU
can become.
-/

namespace BareKernel.Kernel

open ProcessState Runs

/-- The stream that a process goes on with behind `semWait`. -/
def AfterWait.stream : AfterWait → Option ℕ
  | .done => none
  | .take r => some r.stream
  | .store w => some w.stream
  | .readAt stream _ => some stream

/-- The stream that a process is busy with. -/
def Frame.stream : Frame → Option ℕ
  | .semWait _ k => k.stream
  | .reading r => some r.stream
  | .writing w => some w.stream
  | _ => none

/-- Neither inside `semWait` nor between two bytes. -/
def Frame.idle : Frame → Prop
  | .semWait _ _ | .reading _ | .writing _ => False
  | _ => True

theorem Frame.idle.stream {f : Frame} (h : f.idle) : f.stream = none := by
  cases f <;> first | rfl | exact h.elim

/-- The process that the event ends before its descriptors are closed. -/
def Event.victim : Event → Option ℤ
  | .call (.kill pid) => some pid
  | _ => none

/-- The record is about the stream. -/
def Obs.on (id : ℕ) : Obs → Bool
  | .stored i _ | .took i _ | .readReturned _ i _ _ _ => i = id
  | _ => false

namespace Machine

variable {S S' S₁ M : Machine} {e : Event} {c pid fd count : ℤ} {buf : List UInt8}

/-- What happened on a stream, newest first. -/
def history (S : Machine) (id : ℕ) : List Obs := S.trace.filter (Obs.on id)

theorem history_note {id : ℕ} {o : Obs} (ho : o.on id = false) :
    (S.note o).history id = S.history id :=
  List.filter_cons_of_neg (by simp [ho])

theorem history_note_on {id : ℕ} {o : Obs} (ho : o.on id = true) :
    (S.note o).history id = o :: S.history id :=
  List.filter_cons_of_pos ho

/-! ## Steps aside -/

/-- The streams, what happened on them, and the semaphores in use are as they were,
nobody gets into `semWait` or a transfer, and no semaphore is posted or destroyed. -/
structure Aside (S S' : Machine) : Prop where
  files : SameFiles S S'
  frames : ∀ q, S'.frames q = S.frames q ∨ (S'.frames q).idle
  history : ∀ id, S'.history id = S.history id
  sems : ∀ i, (S.sems.sems i).used = true → (S'.sems.sems i).used = true ∧
    (S'.sems.sems i).value = (S.sems.sems i).value
  quiet : ∀ (semId : ℕ) o, o.Touches semId → ¬S.Records S' o

theorem Aside.refl (S : Machine) : Aside S S :=
  ⟨.refl S, fun _ => .inl rfl, fun _ => rfl, fun _ h => ⟨h, rfl⟩, fun _ _ _ => not_records_self⟩

theorem Aside.trans (h : Aside S S₁) (h' : Aside S₁ S') : Aside S S' := by
  refine ⟨h.files.trans h'.files, fun q => ?_, fun id => (h'.history id).trans (h.history id),
    fun i hi => ?_, fun semId o ho hrec =>
      (hrec.split S₁).elim (h.quiet semId o ho) (h'.quiet semId o ho)⟩
  · rcases h'.frames q with heq | hidle
    · rw [heq]
      exact h.frames q
    · exact .inr hidle
  · obtain ⟨hused, hvalue⟩ := h.sems i hi
    obtain ⟨hused', hvalue'⟩ := h'.sems i hused
    exact ⟨hused', hvalue'.trans hvalue⟩

theorem Aside.onSched (S : Machine) (f : Sched → Sched) : Aside S (S.onSched f) :=
  ⟨⟨rfl, rfl, rfl⟩, fun _ => .inl rfl, fun _ => rfl, fun _ h => ⟨h, rfl⟩,
    fun _ _ _ => not_records_self⟩

theorem Aside.note {o : Obs} (ho : ∀ id, o.on id = false)
    (ht : ∀ semId, ¬o.Touches semId) : Aside S (S.note o) :=
  ⟨⟨rfl, rfl, rfl⟩, fun _ => .inl rfl, fun id => history_note (ho id), fun _ h => ⟨h, rfl⟩,
    fun semId _ ho' hrec => ht semId (records_note_iff.mp hrec ▸ ho')⟩

theorem Aside.setFrame {f : Frame} (hf : f.idle) : Aside S (S.setFrame pid f) := by
  refine ⟨⟨rfl, rfl, rfl⟩, fun q => ?_, fun _ => rfl, fun _ h => ⟨h, rfl⟩,
    fun _ _ _ => not_records_self⟩
  by_cases heq : q = pid
  · subst heq
    right
    rw [setFrame_frames, Function.update_self]
    exact hf
  · exact .inl (Function.update_of_ne heq _ _)

/-- A slot changes that is not in use, or only its marks do. -/
theorem Aside.setSem {semId : ℕ} {s : Sem} (h : (S.sems.sems semId).used = true →
    s.used = true ∧ s.value = (S.sems.sems semId).value) : Aside S (S.setSem semId s) := by
  refine ⟨⟨rfl, rfl, rfl⟩, fun _ => .inl rfl, fun _ => rfl, fun i hi => ?_,
    fun _ _ _ => not_records_self⟩
  by_cases heq : i = semId
  · subst heq
    rw [setSem_sems, SemTable.setSem_sems_self]
    exact h hi
  · rw [setSem_sems, SemTable.setSem_sems_of_ne heq]
    exact ⟨hi, rfl⟩

theorem Aside.mark {semId : ℕ} {b : UInt8} :
    Aside S (S.setSem semId ((S.sems.sems semId).setOpened pid b)) := by
  apply Aside.setSem
  intro hused
  obtain ⟨hvalue, hsame, -⟩ := SemTable.setOpened_eq (S.sems.sems semId) pid b
  exact ⟨hsame.trans hused, hvalue⟩

theorem Aside.createProcess (S : Machine) (params : Option CreationParameters) :
    Aside S (S.createProcess params).2 := by
  have hsched : ∀ s : Sched, Aside S { S with sched := s } := fun s => .onSched S fun _ => s
  unfold Machine.createProcess
  cases params with
  | none => exact .refl S
  | some params =>
      dsimp only
      split
      · exact .refl S
      · split
        · exact .refl S
        · split
          · exact hsched _
          · split
            · exact hsched _
            · exact ((hsched _).trans (Aside.setFrame (f := .user) trivial)).trans
                (Aside.note (fun _ => rfl) fun _ => id)

theorem Aside.waitProcess (S : Machine) (pid target : ℤ) (wstatus : Bool) :
    Aside S (S.waitProcess pid target wstatus) := by
  unfold Machine.waitProcess
  split
  · exact .refl S
  · have hcalled : Aside S (S.note (.waitCalled pid target)) :=
      Aside.note (fun _ => rfl) fun _ => id
    dsimp only
    split
    · exact hcalled.trans (Aside.note (fun _ => rfl) fun _ => id)
    · exact ((hcalled.trans (.onSched _ _)).trans
        (Aside.setFrame (f := .waitBlock target wstatus) trivial)).trans (.onSched _ _)

theorem Aside.changeProccessPriority (S : Machine) (pid : ℤ) (priority : UInt32) :
    Aside S (S.changeProccessPriority pid priority).2 := by
  unfold Machine.changeProccessPriority
  split
  · exact .refl S
  · dsimp only
    split
    · exact .refl S
    · have hset : Aside S (S.onSched fun s => s.setProcess pid { S.sched.processes pid with
          priority := priority, originalPriority := priority, agingCounter := 0 }) := .onSched S _
      split
      · exact hset.trans (.onSched _ _)
      · exact hset

theorem Aside.sysBlock (S : Machine) (pid : ℤ) : Aside S (S.sysBlock pid) := by
  unfold Machine.sysBlock
  split
  · exact .refl S
  · exact .onSched _ _

/-- A new semaphore gets a slot that is not in use. -/
theorem semCreate_free {name : CString} {value : Int32} {semId : ℤ}
    (h : S.semCreate pid name value = (semId, S')) : semId = -1 ∧ S' = S ∨
      ∃ i : ℕ, semId = i ∧ i < maxSems ∧ (S.sems.sems i).used = false ∧
        (S'.sems.sems i).used = true ∧ (S'.sems.sems i).value = value ∧ Aside S S' := by
  unfold Machine.semCreate at h
  dsimp only at h
  split at h
  · obtain ⟨rfl, rfl⟩ := Prod.mk.inj h
    exact .inl ⟨rfl, rfl⟩
  · rename_i i T hcreate
    obtain ⟨rfl, rfl⟩ := Prod.mk.inj h
    rcases SemTable.semCreate_cases S.sems pid name value
      (if S.sched.blocks 0 then .queue [] else .null) with hnone | ⟨j, _, _, hfree, heq⟩
    · rw [hnone] at hcreate
      exact absurd hcreate (by simp)
    · rw [heq, Prod.mk.injEq, Option.some.injEq] at hcreate
      obtain ⟨rfl, rfl⟩ := hcreate
      obtain ⟨hlt, hunused⟩ := SemTable.findFreeSem_some hfree
      have hset : Aside S (S.setSem j ((S.sems.sems j).fill pid name value
          (if S.sched.blocks 0 then .queue [] else .null))) :=
        Aside.setSem fun hused => absurd (hunused.symm.trans hused) (by simp)
      refine .inr ⟨j, rfl, hlt, hunused, ?_, ?_,
        (hset.trans (.onSched _ Sched.dropBlock)).trans (Aside.note (fun _ => rfl) fun _ => id)⟩
      · change (Function.update S.sems.sems j _ j).used = true
        rw [Function.update_self, Sem.fill_used]
      · change (Function.update S.sems.sems j _ j).value = value
        rw [Function.update_self]
        exact (SemTable.setOpened_eq _ _ _).1

theorem Aside.sysSemOpen (S : Machine) (pid : ℤ) (name : CString) (value : Int32) :
    Aside S (S.sysSemOpen pid name value).2 := by
  unfold Machine.sysSemOpen
  split
  · generalize hcreate : S.semCreate pid name value = result
    obtain ⟨semId, S'⟩ := result
    rcases semCreate_free hcreate with ⟨-, rfl⟩ | ⟨_, -, -, -, -, -, haside⟩
    · exact .refl _
    · exact haside
  · unfold Machine.semOpen
    split
    · exact .refl S
    · rename_i semId T hopen
      obtain ⟨hused, rfl⟩ := SemTable.semOpen_eq hopen
      exact Aside.mark

theorem Aside.semClose {semId : ℤ} {r : Int32} (h : S.semClose pid semId = some (r, S')) :
    Aside S S' := by
  unfold Machine.semClose at h
  split at h
  · obtain ⟨-, rfl⟩ := Prod.mk.inj (Option.some.inj h)
    exact .refl S
  · split at h
    · exact absurd h (by simp)
    · split at h
      · obtain ⟨-, rfl⟩ := Prod.mk.inj (Option.some.inj h)
        exact .refl S
      · rename_i T hT
        obtain ⟨-, rfl⟩ := Prod.mk.inj (Option.some.inj h)
        obtain ⟨hused, rfl⟩ := SemTable.semClose_eq hT
        exact Aside.mark

theorem Aside.killStart (S : Machine) (pid : ℤ) (stage : ExitStage) :
    Aside S (S.killStart pid stage) := by
  have hsched : ∀ s : Sched, Aside S { S with sched := s } := fun s => .onSched S fun _ => s
  exact ((hsched _).trans (Aside.setFrame (f := .exiting stage) trivial)).trans
    (Aside.note (fun _ => rfl) fun _ => id)

theorem Aside.killWake (S : Machine) (pid : ℤ) : Aside S (S.killWake pid) := by
  unfold Machine.killWake
  dsimp only
  split
  · exact .refl S
  · exact .onSched _ _

/-! ## The other steps -/

/-- The steps that use semaphores or files. -/
inductive Uses (S : Machine) (c : ℤ) : Event → Machine → Prop where
  | semWait {semId : ℤ} {S' : Machine} (h : S.waitThen c semId .done = some S') :
      Uses S c (.call (.semWait semId)) S'
  | semPost {semId : ℤ} {r : Int32} {S' : Machine} (h : S.semPost semId = some (r, S')) :
      Uses S c (.call (.semPost semId)) S'
  | semSetValue {semId : ℤ} {value r : Int32} {S' : Machine}
      (h : S.semSetValue semId value = some (r, S')) :
        Uses S c (.call (.semSetValue semId value)) S'
  | semDestroy {semId : ℤ} {r : Int32} {S' : Machine} (h : S.semDestroy semId = some (r, S')) :
      Uses S c (.call (.semDestroy semId)) S'
  | pipe {fresh : ℕ → UInt8} {r : Int32} {S' : Machine}
      (h : S.createPipe c fresh = some (r, S')) : Uses S c (.call (.pipe fresh)) S'
  | close {fd : ℤ} {r : Int32} {S' : Machine} (h : S.closeFD fd = some (r, S')) :
      Uses S c (.call (.close fd)) S'
  | kill {pid : ℤ} {r₁ r₂ : Int32} {S₁ S₂ S' : Machine}
      (halive : (initPid < pid ∧ pid ≤ maxPid) ∧ (S.sched.processes pid).state ≠ EXITED)
      (hin : (S.killStart pid .leave).closeFD (S.sched.processes pid).fds.1 = some (r₁, S₁))
      (hout : S₁.closeFD (S.sched.processes pid).fds.2 = some (r₂, S₂)) (hend : Aside S₂ S') :
      Uses S c (.call (.kill pid)) S'
  | closeIn {r : Int32} {S₁ : Machine} (hf : S.frames c = .exiting .closeIn)
      (h : S.closeFD (S.sched.processes c).fds.1 = some (r, S₁)) :
      Uses S c .resume (S₁.setFrame c (.exiting .closeOut))
  | closeOut {r : Int32} {S₁ : Machine} (hf : S.frames c = .exiting .closeOut)
      (h : S.closeFD (S.sched.processes c).fds.2 = some (r, S₁)) :
      Uses S c .resume (S₁.setFrame c (.exiting .wake))
  | read {fd count : ℤ} {S' : Machine} (h : S.readFromFD c fd count = some S') :
      Uses S c (.call (.read fd count)) S'
  | write {fd : ℤ} {buf : List UInt8} {S' : Machine} (h : S.writeToFD c fd buf = some S') :
      Uses S c (.call (.write fd buf)) S'
  | readAt {fd : ℤ} {S' : Machine} (h : S.readFromFDAt c fd = some S') :
      Uses S c (.call (.readAt fd)) S'
  | reading {r : Reader} {S' : Machine} (hf : S.frames c = .reading r)
      (h : S.readRound c r = some S') : Uses S c .resume S'
  | writing {w : Writer} {S' : Machine} (hf : S.frames c = .writing w)
      (h : S.writeRound c w = some S') : Uses S c .resume S'
  | woken {semId : ℕ} {k : AfterWait} {taken : Bool} {S₁ S' : Machine}
      (hf : S.frames c = .semWait semId k) (hloop : S.semWaitLoop c semId k = some (taken, S₁))
      (h : taken = false ∧ S' = S₁ ∨ taken = true ∧ S₁.afterWait c k = some S') :
      Uses S c .resume S'

theorem sysCall_uses {call : Syscall} (h : S.sysCall c call = some S') :
    Aside S S' ∨ S.Uses c (.call call) S' := by
  cases call with
  | createProcess params => exact .inl (Option.some.inj h ▸ .createProcess S params)
  | kill target =>
      obtain ⟨⟨r, _⟩, hkill, rfl⟩ := Option.map_eq_some_iff.mp h
      rcases kill_closes hkill with heq | ⟨halive, _, _, _, S₂, hin, hout, hend⟩
      · exact .inl (heq ▸ .refl S)
      · right
        apply Uses.kill halive hin hout
        dsimp only
        rcases hend with rfl | rfl
        · exact .killWake S₂ target
        · exact (Aside.killWake S₂ target).trans (.onSched _ _)
  | block target => exact .inl (Option.some.inj h ▸ .sysBlock S target)
  | unblock target =>
      rw [← Option.some.inj h]
      exact .inl (.onSched S _)
  | changePriority target priority =>
      exact .inl (Option.some.inj h ▸ .changeProccessPriority S target priority)
  | yield =>
      rw [← Option.some.inj h]
      exact .inl (.onSched S _)
  | wait target wstatus => exact .inl (Option.some.inj h ▸ .waitProcess S c target wstatus)
  | semOpen name value => exact .inl (Option.some.inj h ▸ .sysSemOpen S c name value)
  | semClose semId =>
      obtain ⟨⟨r, _⟩, hclose, rfl⟩ := Option.map_eq_some_iff.mp h
      exact .inl (Aside.semClose hclose)
  | semWait semId =>
      simp only [sysCall] at h
      split at h
      · exact .inr (.semWait h)
      · exact .inl (Option.some.inj h ▸ .refl S)
  | semPost semId =>
      simp only [sysCall] at h
      split at h
      · obtain ⟨⟨r, _⟩, hpost, rfl⟩ := Option.map_eq_some_iff.mp h
        exact .inr (.semPost hpost)
      · exact .inl (Option.some.inj h ▸ .refl S)
  | semSetValue semId value =>
      obtain ⟨⟨r, _⟩, hset, rfl⟩ := Option.map_eq_some_iff.mp h
      exact .inr (.semSetValue hset)
  | semDestroy semId =>
      simp only [sysCall] at h
      split at h
      · obtain ⟨⟨r, _⟩, hdestroy, rfl⟩ := Option.map_eq_some_iff.mp h
        exact .inr (.semDestroy hdestroy)
      · exact .inl (Option.some.inj h ▸ .refl S)
  | pipe fresh =>
      simp only [sysCall, Option.map_eq_map, Option.map_eq_some_iff, Prod.exists] at h
      obtain ⟨_, _, hpipe, rfl⟩ := h
      exact .inr (.pipe hpipe)
  | close fd =>
      obtain ⟨⟨r, _⟩, hclose, rfl⟩ := Option.map_eq_some_iff.mp h
      exact .inr (.close hclose)
  | read fd count => exact .inr (.read h)
  | write fd buf => exact .inr (.write h)
  | readAt fd => exact .inr (.readAt h)

/-- **What a step can do**: it uses semaphores or files, or it leaves them alone. -/
theorem step_uses (h : S.Step e S') :
    Aside S S' ∨ ∃ c, S.sched.currentProcess = some c ∧ S.Uses c e S' := by
  unfold Step step at h
  split at h
  · split at h
    · exact .inl (Option.some.inj h ▸ .onSched S _)
    · exact absurd h (by simp)
  · rename_i c hc
    split at h
    · split at h
      · exact .inl (Option.some.inj h ▸ .onSched S _)
      · exact absurd h (by simp)
    · split at h
      · exact (sysCall_uses h).imp_right fun huses => ⟨c, hc, huses⟩
      · exact absurd h (by simp)
    · generalize hf : S.frames c = f at h
      cases f with
      | user => exact absurd h (by simp [resume])
      | semWait semId k =>
          simp only [resume, Option.bind_eq_bind, Option.bind_eq_some_iff, Prod.exists] at h
          obtain ⟨taken, S₁, hloop, h⟩ := h
          refine .inr ⟨c, hc, .woken hf hloop ?_⟩
          cases taken with
          | false => exact .inl ⟨rfl, (Option.some.inj h).symm⟩
          | true => exact .inr ⟨rfl, h⟩
      | waitBlock target wstatus =>
          have hframe : Aside S (S.setFrame c (.waitForced target wstatus)) :=
            Aside.setFrame (f := .waitForced target wstatus) trivial
          exact .inl (Option.some.inj h ▸ hframe.trans (.onSched _ _))
      | waitForced target wstatus =>
          have hframe : Aside S (S.setFrame c .user) := Aside.setFrame (f := .user) trivial
          exact .inl (Option.some.inj h ▸ hframe.trans (Aside.note (fun _ => rfl) fun _ => id))
      | reading r => exact .inr ⟨c, hc, .reading hf h⟩
      | writing w => exact .inr ⟨c, hc, .writing hf h⟩
      | exiting stage =>
          cases stage with
          | closeIn =>
              simp only [resume, exitRound, Option.bind_eq_bind, Option.bind_eq_some_iff,
                Option.some.injEq, Prod.exists] at h
              obtain ⟨r, S₁, hclose, rfl⟩ := h
              exact .inr ⟨c, hc, .closeIn hf hclose⟩
          | closeOut =>
              simp only [resume, exitRound, Option.bind_eq_bind, Option.bind_eq_some_iff,
                Option.some.injEq, Prod.exists] at h
              obtain ⟨r, S₁, hclose, rfl⟩ := h
              exact .inr ⟨c, hc, .closeOut hf hclose⟩
          | wake =>
              have hframe : Aside (S.killWake c) ((S.killWake c).setFrame c (.exiting .leave)) :=
                Aside.setFrame (f := .exiting .leave) trivial
              exact .inl (Option.some.inj h ▸ (Aside.killWake S c).trans hframe)
          | leave => exact .inl (Option.some.inj h ▸ .onSched S _)
    · split at h
      · unfold exitProcess at h
        split at h
        · exact absurd h (by simp)
        · rename_i hpid
          have hnote : ∀ p returnValue, Aside S ((S.onSched fun s => s.setProcess c p).note
              (.returned c returnValue)) := fun p returnValue =>
            (Aside.onSched S _).trans (Aside.note (fun _ => rfl) fun _ => id)
          exact .inl (Option.some.inj h ▸ (hnote _ _).trans (.killStart _ c .closeIn))
      · exact absurd h (by simp)

/-! ## Frames -/

theorem semPost_frames {semId : ℤ} {r : Int32} (h : S.semPost semId = some (r, S')) :
    S'.frames = S.frames := by
  rcases semPost_cases h with ⟨rfl, -⟩ | ⟨-, -, pids, -, rfl⟩
  · rfl
  · rfl

theorem fallAsleep_frames (S : Machine) (pid : ℤ) (semId : ℕ) (k : AfterWait) :
    (S.fallAsleep pid semId k).frames = Function.update S.frames pid (.semWait semId k) := by
  change Function.update (S.enlist pid semId).frames pid _ = _
  rw [enlist_frames]

theorem semDestroy_frames {semId : ℤ} {r : Int32} (h : S.semDestroy semId = some (r, S')) :
    S'.frames = S.frames := by
  obtain ⟨-, pids, -, rfl⟩ := semDestroy_cases h
  rfl

theorem semSetValue_frames {semId : ℤ} {value r : Int32}
    (h : S.semSetValue semId value = some (r, S')) : S'.frames = S.frames := by
  rcases semSetValue_cases h with rfl | ⟨-, _, pids, rfl⟩
  · rfl
  · rfl

theorem postTimes_frames {semId : ℤ} {n : ℕ} (h : postTimes n S semId = some S') :
    S'.frames = S.frames := by
  induction n generalizing S with
  | zero => exact Option.some.inj h ▸ rfl
  | succ n ih =>
      simp only [postTimes, Option.bind_eq_bind, Option.bind_eq_some_iff, Prod.exists] at h
      obtain ⟨r, S₁, hpost, hrest⟩ := h
      exact (ih hrest).trans (semPost_frames hpost)

theorem closeFD_frames {r : Int32} (h : S.closeFD fd = some (r, S')) : S'.frames = S.frames := by
  rcases closeFD_cases h with ⟨-, -, rfl⟩ | ⟨-, -, id, st, -, -, ⟨-, rfl⟩ | ⟨-, hend⟩⟩
  · rfl
  · rfl
  · obtain ⟨-, S₁, S₂, hsignal, hfree, rfl⟩ := closeEnd_cases hend
    have hsignalled : S₁.frames = S.frames := by
      rcases signalEof_cases hsignal with ⟨-, hposts⟩ | ⟨-, rfl⟩
      · have hsame := postTimes_frames hposts
        exact hsame
      · rfl
    have hfreed : S₂.frames = S₁.frames := by
      rcases freeStream_cases hfree with ⟨-, _, M, _, M', hread, hwrite, rfl⟩ | ⟨-, rfl⟩
      · exact (semDestroy_frames hwrite).trans (semDestroy_frames hread)
      · rfl
    exact hfreed.trans hsignalled

theorem createPipe_frames {fresh : ℕ → UInt8} {r : Int32}
    (h : S.createPipe pid fresh = some (r, S')) : S'.frames = S.frames := by
  have hcreate : ∀ {M M' : Machine} {name : CString} {value : Int32} {semId : ℤ},
      M.semCreate pid name value = (semId, M') → M'.frames = M.frames := by
    intro M M' name value semId hM
    unfold Machine.semCreate at hM
    dsimp only at hM
    split at hM
    · obtain ⟨-, rfl⟩ := Prod.mk.inj hM
      rfl
    · obtain ⟨-, rfl⟩ := Prod.mk.inj hM
      rfl
  rcases createPipe_cases h with ⟨-, rfl | ⟨fd, -, rfl⟩⟩ |
    ⟨-, fd1, fd2, _, _, S₁, S₂, -, hread, hwrite, rfl⟩
  · rfl
  · rfl
  · change S₂.frames = S.frames
    rw [hcreate hwrite, hcreate hread]
    rfl

/-- The frames in which a step leaves the process that has the CPU. -/
inductive Follows (S : Machine) (c : ℤ) : Event → Frame → Prop where
  | idle {e : Event} {f : Frame} (hf : f.idle) : Follows S c e f
  | semWait {semId : ℤ} (hpos : 0 ≤ semId) :
      Follows S c (.call (.semWait semId)) (.semWait semId.toNat .done)
  | read {fd count : ℤ} {stream : ℕ} (hfd : fd ≠ stdin) (h : S.resource fd = some stream) :
      Follows S c (.call (.read fd count)) (.reading { fd, stream, count, sizeRead := 0 })
  | write {fd : ℤ} {buf : List UInt8} {stream : ℕ} (h : S.resource fd = some stream) :
      Follows S c (.call (.write fd buf)) (.writing { stream, buf, written := 0 })
  | readAt {fd : ℤ} {stream : ℕ} {st : Stream} (h : (S.fileDescriptors fd).resource = some stream)
      (hopen : (S.fileDescriptors fd).isOpen ∧ (S.fileDescriptors fd).mode ≠ .W)
      (hst : S.streams stream = some st) (hdata : st.dataAvailable > 0) (hpos : 0 ≤ st.readSem) :
      Follows S c (.call (.readAt fd)) (.semWait st.readSem.toNat (.readAt stream st.readPos))
  | take {r : Reader} {st : Stream} (hf : S.frames c = .reading r)
      (hst : S.streams r.stream = some st) (hpos : 0 ≤ st.readSem) :
      Follows S c .resume (.semWait st.readSem.toNat (.take r))
  | taken {r : Reader} (n : ℤ)
      (hf : S.frames c = .reading r ∨ ∃ semId, S.frames c = .semWait semId (.take r)) :
      Follows S c .resume (.reading { r with sizeRead := n })
  | store {w : Writer} {st : Stream} (hf : S.frames c = .writing w)
      (hst : S.streams w.stream = some st) (hpos : 0 ≤ st.writeSem) :
      Follows S c .resume (.semWait st.writeSem.toNat (.store w))
  | stored {w : Writer} (n : ℕ)
      (hf : S.frames c = .writing w ∨ ∃ semId, S.frames c = .semWait semId (.store w)) :
      Follows S c .resume (.writing { w with written := n })

/-- The frame behind `semWait`. -/
theorem afterWait_frames {k : AfterWait} (h : S.afterWait pid k = some S') :
    ∃ f, S'.frames = Function.update S.frames pid f ∧ (f = .user ∨
      (∃ r n, k = .take r ∧ f = .reading { r with sizeRead := n }) ∨
        ∃ w n, k = .store w ∧ f = .writing { w with written := n }) := by
  cases k with
  | done => exact ⟨.user, Option.some.inj h ▸ rfl, .inl rfl⟩
  | take r =>
      obtain ⟨st, -, ⟨-, r₁, S₁, hpost, rfl⟩ | ⟨-, rfl⟩⟩ := takeByte_cases h
      · have hframes := semPost_frames hpost
        change S₁.frames = S.frames at hframes
        split
        · exact ⟨.user, hframes ▸ rfl, .inl rfl⟩
        · exact ⟨.reading { r with sizeRead := r.sizeRead + 1 }, hframes ▸ rfl,
            .inr (.inl ⟨r, _, rfl, rfl⟩)⟩
      · exact ⟨.user, rfl, .inl rfl⟩
  | store w =>
      obtain ⟨st, byte, r₁, S₁, -, -, hpost, rfl⟩ := storeByte_cases h
      have hframes := semPost_frames hpost
      change S₁.frames = S.frames at hframes
      exact ⟨.writing { w with written := w.written + 1 }, hframes ▸ rfl,
        .inr (.inr ⟨w, _, rfl, rfl⟩)⟩
  | readAt stream pos =>
      obtain ⟨st, -, rfl⟩ := finishReadAt_cases h
      exact ⟨.user, rfl, .inl rfl⟩

theorem semWaitLoop_frames {semId : ℕ} {k : AfterWait} {taken : Bool}
    (h : S.semWaitLoop pid semId k = some (taken, S')) :
    taken = false ∧ S'.frames = Function.update S.frames pid (.semWait semId k) ∨
      taken = true ∧ S'.frames = S.frames := by
  rcases semWaitLoop_cases h with ⟨rfl, -, -, rfl⟩ | ⟨rfl, -, rfl⟩
  · exact .inl ⟨rfl, fallAsleep_frames S pid semId k⟩
  · exact .inr ⟨rfl, rfl⟩

/-- A call that waits leaves its caller inside `semWait`, or behind it. -/
theorem waitThen_frames {semId : ℤ} {k : AfterWait} (h : S.waitThen pid semId k = some S') :
    ∃ f, S'.frames = Function.update S.frames pid f ∧
      (0 ≤ semId ∧ f = .semWait semId.toNat k ∨ f = .user ∨
        (∃ r n, k = .take r ∧ f = .reading { r with sizeRead := n }) ∨
          ∃ w n, k = .store w ∧ f = .writing { w with written := n }) := by
  rcases waitThen_cases h with ⟨S₁, hwait, hafter⟩ | hwait
  · have hframes : S₁.frames = S.frames := by
      rcases semWait_cases hwait with ⟨-, rfl⟩ | ⟨-, -, -, hloop⟩
      · rfl
      · rcases semWaitLoop_frames hloop with ⟨hfalse, -⟩ | ⟨-, hframes⟩
        · exact absurd hfalse (by simp)
        · exact hframes
    obtain ⟨f, hf, hcases⟩ := afterWait_frames hafter
    exact ⟨f, hframes ▸ hf, .inr hcases⟩
  · rcases semWait_cases hwait with ⟨htrue, -⟩ | ⟨hpos, -, -, hloop⟩
    · exact absurd htrue (by simp)
    · rcases semWaitLoop_frames hloop with ⟨-, hframes⟩ | ⟨htrue, -⟩
      · exact ⟨_, hframes, .inl ⟨hpos, rfl⟩⟩
      · exact absurd htrue (by simp)

/-- Only the frame of `c` changes, and to one that follows. -/
def Moves (S : Machine) (c : ℤ) (e : Event) (S' : Machine) : Prop :=
  ∀ q, S'.frames q = S.frames q ∨ (S'.frames q).idle ∨ q = c ∧ S.Follows c e (S'.frames q)

theorem Moves.same (h : S'.frames = S.frames) : S.Moves c e S' := fun q => .inl (by rw [h])

theorem Moves.update {f : Frame} (h : S'.frames = Function.update S.frames c f)
    (hf : S.Follows c e f) : S.Moves c e S' := by
  intro q
  by_cases heq : q = c
  · subst heq
    right
    right
    rw [h, Function.update_self]
    exact ⟨rfl, hf⟩
  · left
    rw [h, Function.update_of_ne heq]

/-- **What a step can make of the frames.** -/
theorem Uses.moves (h : S.Uses c e S') : S.Moves c e S' := by
  cases h with
  | semWait hwait =>
      obtain ⟨f, hframes, hf⟩ := waitThen_frames hwait
      refine .update hframes ?_
      rcases hf with ⟨hpos, rfl⟩ | rfl | ⟨_, _, hk, -⟩ | ⟨_, _, hk, -⟩
      · exact .semWait hpos
      · exact .idle (f := .user) trivial
      · exact absurd hk (by simp)
      · exact absurd hk (by simp)
  | semPost hpost => exact .same (semPost_frames hpost)
  | semSetValue hset => exact .same (semSetValue_frames hset)
  | semDestroy hdestroy => exact .same (semDestroy_frames hdestroy)
  | pipe hpipe => exact .same (createPipe_frames hpipe)
  | close hclose => exact .same (closeFD_frames hclose)
  | @kill pid r₁ r₂ S₁ S₂ _ halive hin hout hend =>
      have hclosed : S₂.frames = Function.update S.frames pid (.exiting .leave) :=
        (closeFD_frames hout).trans (closeFD_frames hin)
      intro q
      rcases hend.frames q with heq | hidle
      · rw [heq, hclosed]
        by_cases hq : q = pid
        · subst hq
          right
          left
          rw [Function.update_self]
          trivial
        · exact .inl (Function.update_of_ne hq _ _)
      · exact .inr (.inl hidle)
  | closeIn hf hclose =>
      refine .update (f := .exiting .closeOut) ?_ (.idle trivial)
      exact closeFD_frames hclose ▸ rfl
  | closeOut hf hclose =>
      refine .update (f := .exiting .wake) ?_ (.idle trivial)
      exact closeFD_frames hclose ▸ rfl
  | read hread =>
      rcases readFromFD_cases hread with rfl | ⟨hfd, stream, hstream, rfl⟩
      · exact .same rfl
      · exact .update rfl (.read hfd hstream)
  | write hwrite =>
      rcases writeToFD_cases hwrite with ⟨-, rfl⟩ | ⟨stream, st, hstream, -, rfl⟩
      · exact .same rfl
      · exact .update rfl (.write hstream)
  | readAt hread =>
      rcases readFromFDAt_cases hread with
        rfl | ⟨⟨-, hopen⟩, stream, st, hstream, hst, ⟨hdata, hwait⟩ | ⟨-, hfinish⟩⟩
      · exact .same rfl
      · obtain ⟨f, hframes, hf⟩ := waitThen_frames hwait
        refine .update hframes ?_
        rcases hf with ⟨hpos, rfl⟩ | rfl | ⟨_, _, hk, -⟩ | ⟨_, _, hk, -⟩
        · exact .readAt hstream hopen hst hdata.1 hpos
        · exact .idle (f := .user) trivial
        · exact absurd hk (by simp)
        · exact absurd hk (by simp)
      · obtain ⟨_, -, rfl⟩ := finishReadAt_cases hfinish
        exact .update rfl (.idle (f := .user) trivial)
  | @reading r _ hf hread =>
      rcases readRound_cases hread with ⟨-, rfl⟩ | ⟨-, st, S₁, hst, htoken, hwait⟩
      · exact .update rfl (.idle (f := .user) trivial)
      · have hframes₁ : S₁.frames = S.frames := by
          rcases htoken with ⟨-, rfl⟩ | ⟨-, r₁, hpost⟩
          · rfl
          · exact semPost_frames hpost
        obtain ⟨f, hframes, hcases⟩ := waitThen_frames hwait
        rw [hframes₁] at hframes
        refine .update hframes ?_
        rcases hcases with ⟨hpos, rfl⟩ | rfl | ⟨r', n, hk, rfl⟩ | ⟨_, _, hk, -⟩
        · exact .take hf hst hpos
        · exact .idle (f := .user) trivial
        · obtain rfl := AfterWait.take.inj hk
          exact .taken n (.inl hf)
        · exact absurd hk (by simp)
  | @writing w _ hf hwrite =>
      rcases writeRound_cases hwrite with ⟨-, rfl⟩ | ⟨-, st, hst, hwait⟩
      · exact .update rfl (.idle (f := .user) trivial)
      · obtain ⟨f, hframes, hcases⟩ := waitThen_frames hwait
        refine .update hframes ?_
        rcases hcases with ⟨hpos, rfl⟩ | rfl | ⟨_, _, hk, -⟩ | ⟨w', n, hk, rfl⟩
        · exact .store hf hst hpos
        · exact .idle (f := .user) trivial
        · exact absurd hk (by simp)
        · obtain rfl := AfterWait.store.inj hk
          exact .stored n (.inl hf)
  | @woken semId k taken S₁ _ hf hloop hnext =>
      rcases hnext with ⟨rfl, rfl⟩ | ⟨rfl, hafter⟩
      · -- it sleeps again at the same place
        rcases semWaitLoop_frames hloop with ⟨-, hframes⟩ | ⟨htrue, -⟩
        · intro q
          left
          rw [hframes]
          by_cases hq : q = c
          · subst hq
            rw [Function.update_self, hf]
          · rw [Function.update_of_ne hq]
        · exact absurd htrue (by simp)
      · rcases semWaitLoop_frames hloop with ⟨hfalse, -⟩ | ⟨-, hframes₁⟩
        · exact absurd hfalse (by simp)
        · obtain ⟨f, hframes, hcases⟩ := afterWait_frames hafter
          rw [hframes₁] at hframes
          refine .update hframes ?_
          rcases hcases with rfl | ⟨r, n, rfl, rfl⟩ | ⟨w, n, rfl, rfl⟩
          · exact .idle (f := .user) trivial
          · exact .taken n (.inr ⟨semId, hf⟩)
          · exact .stored n (.inr ⟨semId, hf⟩)

/-- Nothing but a frame that follows can be new. -/
theorem step_moves (h : S.Step e S') : ∃ c, S.Moves c e S' := by
  rcases step_uses h with haside | ⟨c, -, huses⟩
  · exact ⟨0, fun q => (haside.frames q).imp_right .inl⟩
  · exact ⟨c, huses.moves⟩

end Machine

end BareKernel.Kernel
