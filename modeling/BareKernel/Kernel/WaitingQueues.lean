import BareKernel.Kernel.Descriptors
import BareKernel.Kernel.SemaphoreNames
import BareKernel.Kernel.StepTrace
import BareKernel.Kernel.WakeUps

/-!
# Who stands in the queue of a semaphore

The loop of `semWait` queues the caller, and `semPost`, `semSetValue` and
`semDestroy` take processes off. Whoever is killed or unblocked in between is
still listed, whoever is blocked again after it was woken is not, and a queue
that gets no node lists nobody. As long as none of this happens, the queues hold
exactly the processes that sleep, each of them once.
-/

namespace BareKernel.Kernel

open ProcessState Runs

/-- A frame that no transfer of bytes leaves behind. -/
def Frame.outsideFiles : Frame → Prop
  | .reading _ | .writing _ => False
  | .semWait _ k => k = .done
  | _ => True

namespace Machine

variable {S S' M : Machine} {a : Act} {e : Event} {c p pid : ℤ} {semId : ℕ}

/-- The process is blocked inside `semWait(semId)`. -/
def Sleeps (S : Machine) (p : ℤ) (semId : ℕ) : Prop :=
  (S.sched.processes p).state = BLOCKED ∧ (S.frames p).semaphore = some semId

/-- The queues of the semaphores in use hold those who sleep, each once, and
`semPost` wakes nobody else. -/
structure WaitersExact (S : Machine) : Prop where
  once : ∀ semId, (S.sems.sems semId).used = true → (S.waiters semId).Nodup
  listed : ∀ semId, (S.sems.sems semId).used = true →
    ∀ p, p ∈ S.waiters semId ↔ S.Sleeps p semId
  posts : ∀ i S', S.Step (.call (.semPost i)) S' → ∀ p, (S.sched.processes p).state = BLOCKED →
    (S'.sched.processes p).state ≠ BLOCKED → S.Sleeps p i.toNat

/-! ## The rules -/

/-- The calls around semaphores and processes; no bytes are transferred. -/
def ofSemaphores : Event → Prop
  | .tick | .resume | .exit _ => True
  | .call (.createProcess _) | .call (.kill _) | .call (.block _) | .call (.unblock _)
  | .call (.changePriority _ _) | .call .yield | .call (.wait _ _) | .call (.semOpen _ _)
  | .call (.semClose _) | .call (.semWait _) | .call (.semPost _) | .call (.semSetValue _ _)
  | .call (.semDestroy _) => True
  | _ => False

/-- The semaphore has a queue, and the heap has a node for it. -/
def HasRoom (S : Machine) (semId : ℕ) : Prop :=
  (∃ q, (S.sems.sems semId).waiting = .queue q) ∧ S.sched.nodes 0 = true

/-- Whoever finds the value zero is queued, nobody who sleeps is killed or
unblocked, and nobody who was woken is blocked before it looks at the value. -/
def keepsQueues (S : Machine) : Event → Prop
  | .call (.semWait i) => 0 ≤ i → (S.sems.sems i.toNat).used = true →
      (S.sems.sems i.toNat).value = 0 → S.HasRoom i.toNat
  | .resume => ∀ c, S.sched.currentProcess = some c →
      (∀ semId k, S.frames c = .semWait semId k → (S.sems.sems semId).value = 0 →
        S.HasRoom semId) ∧
      (S.frames c = .exiting .wake → ∀ semId, ¬S.Sleeps (S.sched.processes c).waitPid semId)
  | .call (.kill p) => initPid < p → (S.sched.processes p).state ≠ EXITED →
      ∀ semId, ¬S.Sleeps p semId ∧ ¬S.Sleeps (S.sched.processes p).waitPid semId
  | .call (.unblock p) => ∀ semId, ¬S.Sleeps p semId
  | .call (.block p) => p ≠ initPid → S.Live p → ∀ semId, (S.frames p).semaphore = some semId →
      (S.sched.processes p).state = BLOCKED
  | _ => True

/-! ## The invariant -/

/-- In use or not, a slot lists those who sleep on it. -/
structure Exact (S : Machine) : Prop where
  range : ∀ p semId, S.Sleeps p semId → 0 < p ∧ p ≤ maxPid
  once : ∀ semId, (S.waiters semId).Nodup
  listed : ∀ semId p, p ∈ S.waiters semId ↔ S.Sleeps p semId
  housed : ∀ semId q, (S.sems.sems semId).waiting = .queue q → (S.sems.sems semId).used = true

/-- The same processes sleep on the same semaphores. -/
theorem Exact.of_sleeps (h : S.Exact) (hsleeps : ∀ p semId, S'.Sleeps p semId ↔ S.Sleeps p semId)
    (hsems : ∀ semId, (S'.sems.sems semId).waiting = (S.sems.sems semId).waiting ∧
      (S'.sems.sems semId).used = (S.sems.sems semId).used) : S'.Exact := by
  have hwaiters : ∀ semId, S'.waiters semId = S.waiters semId := fun semId => by
    unfold waiters
    rw [(hsems semId).1]
  constructor
  · intro p semId hp
    exact h.range p semId ((hsleeps p semId).mp hp)
  · intro semId
    rw [hwaiters]
    exact h.once semId
  · intro semId p
    rw [hwaiters, hsleeps]
    exact h.listed semId p
  · intro semId q hq
    rw [(hsems semId).1] at hq
    rw [(hsems semId).2]
    exact h.housed semId q hq

theorem Exact.same (h : S.Exact)
    (hblocked : ∀ p, (S'.sched.processes p).state = BLOCKED ↔ (S.sched.processes p).state = BLOCKED)
    (hframes : S'.frames = S.frames)
    (hsems : ∀ semId, (S'.sems.sems semId).waiting = (S.sems.sems semId).waiting ∧
      (S'.sems.sems semId).used = (S.sems.sems semId).used) : S'.Exact := by
  refine h.of_sleeps (fun p semId => ?_) hsems
  unfold Sleeps
  rw [hblocked, hframes]

theorem Exact.quiet (h : S.Exact) (hq : S.sched.Quiet S'.sched) (hframes : S'.frames = S.frames)
    (hsems : S'.sems = S.sems) : S'.Exact :=
  h.same hq.blocked hframes fun semId => by rw [hsems]; exact ⟨rfl, rfl⟩

/-- One process changes, and it sleeps neither before nor after. -/
theorem Exact.but (h : S.Exact) (pid : ℤ) (hother : ∀ p ≠ pid,
      (S'.sched.processes p).state = (S.sched.processes p).state ∧ S'.frames p = S.frames p)
    (hself : ∀ semId, ¬S.Sleeps pid semId) (hself' : ∀ semId, ¬S'.Sleeps pid semId)
    (hsems : S'.sems = S.sems) : S'.Exact := by
  refine h.of_sleeps (fun p semId => ?_) fun semId => by rw [hsems]; exact ⟨rfl, rfl⟩
  by_cases hp : p = pid
  · subst hp
    exact iff_of_false (hself' semId) (hself semId)
  · unfold Sleeps
    rw [(hother p hp).1, (hother p hp).2]

theorem not_sleeps (hstate : (S.sched.processes p).state ≠ BLOCKED) (semId : ℕ) :
    ¬S.Sleeps p semId := fun h => hstate h.1

theorem not_sleeps_frame (hframe : (S.frames p).semaphore = none) (semId : ℕ) :
    ¬S.Sleeps p semId := by
  rintro ⟨_, hsem⟩
  rw [hframe] at hsem
  exact absurd hsem (by simp)

/-- A process that sleeps nowhere is in no queue. -/
theorem Exact.unlisted (h : S.Exact) (hp : ∀ semId, ¬S.Sleeps p semId) (semId : ℕ) :
    p ∉ S.waiters semId := fun hmem => hp semId ((h.listed semId p).mp hmem)

/-! ## What the actions do -/

/-- The frame of the process that has the CPU changes. -/
theorem Exact.setFrame (h : S.Exact) {f : Frame}
    (hstate : (S.sched.processes pid).state ≠ BLOCKED) : (S.setFrame pid f).Exact := by
  refine h.but pid (fun p hp => ⟨rfl, ?_⟩) (not_sleeps hstate) (not_sleeps hstate) rfl
  rw [setFrame_frames, Function.update_of_ne hp]

theorem Exact.unblock (h : S.Exact) (hp : ∀ semId, ¬S.Sleeps pid semId) :
    (S.onSched fun s => (s.unblockProcess pid).2).Exact := by
  refine h.but pid (fun p hne => ⟨?_, rfl⟩) hp (fun semId hsleep => ?_) rfl
  · rw [onSched_sched, Sched.unblockProcess_of_ne hne]
  · exact hp semId ⟨Sched.unblockProcess_blocked hsleep.1, hsleep.2⟩

/-- A process ends that does not sleep. -/
theorem Exact.killStart (h : S.Exact) (hp : ∀ semId, ¬S.Sleeps pid semId) (stage : ExitStage) :
    (S.killStart pid stage).Exact := by
  refine h.but pid (fun p hne => ⟨?_, ?_⟩) hp (not_sleeps ?_) rfl
  · change (((S.sched.unscheduleProcess pid).setProcess pid _).processes p).state = _
    rw [Sched.setProcess_of_ne hne, Sched.unscheduleProcess_processes]
  · change Function.update S.frames pid (.exiting stage) p = S.frames p
    rw [Function.update_of_ne hne]
  · rw [killStart_state]
    decide

/-- A process is woken that does not sleep. -/
theorem Exact.killWake (h : S.Exact)
    (hp : ∀ semId, ¬S.Sleeps (S.sched.processes pid).waitPid semId) : (S.killWake pid).Exact := by
  unfold Machine.killWake
  dsimp only
  split
  · exact h
  · refine (h.unblock hp).same (fun p => ?_) rfl fun _ => ⟨rfl, rfl⟩
    rw [onSched_sched, onSched_sched]
    by_cases heq : p = pid
    · subst heq
      rw [Sched.setProcess_self]
    · rw [Sched.setProcess_of_ne heq]

/-- A process is blocked that is not inside `semWait`, or is blocked already. -/
theorem Exact.block (h : S.Exact) (hc : S.sched.currentProcess = some c)
    (hvalid : S.sched.isValidPID pid)
    (hok : ∀ semId, (S.frames pid).semaphore = some semId →
      (S.sched.processes pid).state = BLOCKED) :
    (S.onSched fun s => (s.blockProcess pid).2).Exact := by
  have hset : (S.onSched fun s => s.setState pid BLOCKED).Exact := by
    refine h.of_sleeps (fun p semId => ?_) fun _ => ⟨rfl, rfl⟩
    by_cases hp : p = pid
    · subst hp
      constructor
      · rintro ⟨_, hframe⟩
        exact ⟨hok semId hframe, hframe⟩
      · rintro ⟨_, hframe⟩
        exact ⟨Sched.setState_state, hframe⟩
    · unfold Sleeps
      rw [onSched_sched, onSched_frames, Sched.setState, Sched.setProcess_of_ne hp]
  exact hset.quiet (Sched.blockProcess_quiet hc hvalid) rfl rfl

/-- The caller of `waitProcess` blocks itself. -/
theorem Exact.waitFor (h : S.Exact) (hbase : S.Base) {target : ℤ} {wstatus : Bool}
    (hc : S.sched.currentProcess = some pid) (hf : S.frames pid = .user) :
    (S.waitFor pid target wstatus).Exact := by
  have hblock : (((S.onSched fun s => s.setProcess target
      { s.processes target with waitPid := pid }).setFrame pid (.waitBlock target wstatus)).onSched
        fun s => s.setState pid BLOCKED).Exact := by
    refine h.but pid (fun p hp => ⟨?_, ?_⟩) (not_sleeps (hbase.current_ne_blocked hc))
      (not_sleeps_frame ?_) rfl
    · simp only [onSched_sched, setFrame_sched]
      rw [Sched.setState, Sched.setProcess_of_ne hp]
      by_cases ht : p = target
      · subst ht
        rw [Sched.setProcess_self]
      · rw [Sched.setProcess_of_ne ht]
    · rw [onSched_frames, setFrame_frames, Function.update_of_ne hp, onSched_frames]
    · rw [onSched_frames, setFrame_frames, Function.update_self]
      rfl
  exact hblock.quiet (Sched.blockProcess_quiet (s := S.sched.setProcess target
    { S.sched.processes target with waitPid := pid }) hc (waitFor_valid hbase hc hf target)) rfl rfl

/-- A process is created in the slot of one that is over. -/
theorem Exact.create (h : S.Exact) {b : Process}
    (hexited : (S.sched.processes pid).state = EXITED) :
    (((S.onSched fun s => (s.setProcess pid b).schedule pid).setFrame pid .user).note
      (.created pid)).Exact := by
  refine h.but pid (fun p hp => ⟨?_, ?_⟩) (not_sleeps (by rw [hexited]; decide))
    (not_sleeps_frame ?_) rfl
  · change (((S.sched.setProcess pid b).schedule pid).processes p).state = _
    rw [Sched.schedule_processes, Sched.setProcess_of_ne hp]
  · rw [note_frames, setFrame_frames, Function.update_of_ne hp, onSched_frames]
  · rw [note_frames, setFrame_frames, Function.update_self]
    rfl

/-- **Falling asleep** lists the caller behind those who sleep already. -/
theorem Exact.fallAsleep (h : S.Exact) (hbase : S.Base) {k : AfterWait}
    (hc : S.sched.currentProcess = some pid) (hf : (S.frames pid).working)
    (hroom : S.HasRoom semId) : (S.fallAsleep pid semId k).Exact := by
  obtain ⟨⟨q, hq⟩, hnode⟩ := hroom
  have hawake : ∀ i, ¬S.Sleeps pid i := not_sleeps (hbase.current_ne_blocked hc)
  have hlist : S.enlist pid semId = (S.setSem semId
      { S.sems.sems semId with waiting := .queue (q ++ [pid]) }).onSched Sched.dropNode := by
    unfold Machine.enlist
    rw [hq]
    dsimp only
    rw [Sched.append, if_pos hnode]
  have hself : S.waiters semId = q := by
    unfold waiters
    rw [hq]
    rfl
  have hblock : (((S.enlist pid semId).setFrame pid (.semWait semId k)).onSched
      fun s => s.setState pid BLOCKED).Exact := by
    rw [hlist]
    generalize hT : (((S.setSem semId { S.sems.sems semId with
      waiting := .queue (q ++ [pid]) }).onSched Sched.dropNode).setFrame pid
        (.semWait semId k)).onSched (fun s => s.setState pid BLOCKED) = T
    have hstate : ∀ p, p ≠ pid → (T.sched.processes p).state = (S.sched.processes p).state := by
      intro p hp
      rw [← hT]
      change ((S.sched.dropNode.setState pid BLOCKED).processes p).state = _
      rw [Sched.setState, Sched.setProcess_of_ne hp]
      rfl
    have hblocked : (T.sched.processes pid).state = BLOCKED := by
      rw [← hT]
      exact Sched.setState_state
    have hframe : T.frames = Function.update S.frames pid (.semWait semId k) := by
      rw [← hT]
      rfl
    have hqueue : T.waiters semId = q ++ [pid] := by
      rw [← hT]
      simp [waiters, WaitQueue.list]
    have hother : ∀ i ≠ semId, T.sems.sems i = S.sems.sems i := by
      intro i hi
      rw [← hT]
      exact SemTable.setSem_sems_of_ne hi
    have hused : (T.sems.sems semId).used = (S.sems.sems semId).used := by
      rw [← hT]
      simp
    -- who sleeps now
    have hsleeps : ∀ p i, T.Sleeps p i ↔ S.Sleeps p i ∨ p = pid ∧ i = semId := by
      intro p i
      by_cases hp : p = pid
      · subst hp
        constructor
        · rintro ⟨_, hsem⟩
          rw [hframe, Function.update_self] at hsem
          exact .inr ⟨rfl, (Option.some.inj hsem).symm⟩
        · rintro (hbefore | ⟨_, rfl⟩)
          · exact absurd hbefore (hawake i)
          · refine ⟨hblocked, ?_⟩
            rw [hframe, Function.update_self]
            rfl
      · unfold Sleeps
        rw [hstate p hp, hframe, Function.update_of_ne hp]
        exact ⟨.inl, fun hor => hor.resolve_right fun hpid => hp hpid.1⟩
    have hwaiters : ∀ i ≠ semId, T.waiters i = S.waiters i := by
      intro i hi
      unfold waiters
      rw [hother i hi]
    constructor
    · intro p i hp
      rcases (hsleeps p i).mp hp with hbefore | ⟨rfl, _⟩
      · exact h.range p i hbefore
      · exact hbase.sound.current p hc
    · intro i
      by_cases hi : i = semId
      · subst hi
        rw [hqueue, ← hself]
        have hnew := h.unlisted hawake i
        exact List.nodup_append.mpr ⟨h.once i, List.nodup_singleton pid, fun r hr t ht => by
          rw [List.mem_singleton.mp ht]
          rintro rfl
          exact hnew hr⟩
      · rw [hwaiters i hi]
        exact h.once i
    · intro i p
      rw [hsleeps]
      by_cases hi : i = semId
      · subst hi
        rw [hqueue, List.mem_append, List.mem_singleton, ← hself, h.listed]
        simp
      · rw [hwaiters i hi, h.listed]
        simp [hi]
    · intro i q' hq'
      by_cases hi : i = semId
      · subst hi
        rw [hused]
        exact h.housed i q hq
      · rw [hother i hi] at hq' ⊢
        exact h.housed i q' hq'
  have hcur : (S.enlist pid semId).sched.currentProcess = some pid := by
    rcases enlist_sched S pid semId with heq | heq <;> rw [heq] <;> exact hc
  exact hblock.quiet (Sched.blockProcess_quiet hcur (enlist_valid hbase hc hf semId)) rfl rfl

/-- **Waking the first of a queue** wakes one who sleeps on it. -/
theorem Exact.wakeFirst (h : S.Exact) {rest : List ℤ}
    (hq : (S.sems.sems semId).waiting = .queue (pid :: rest)) :
    (S.wakeFirst semId pid rest).Exact := by
  have hself : S.waiters semId = pid :: rest := by
    unfold waiters
    rw [hq]
    rfl
  have hsleep : S.Sleeps pid semId := (h.listed semId pid).mp (by
    rw [hself]
    exact List.mem_cons_self)
  obtain ⟨hpos, hle⟩ := h.range pid semId hsleep
  have hready : ((S.sched.unblockProcess pid).2.processes pid).state = READY := by
    have hvalid : S.sched.isValidPID pid :=
      Sched.isValidPID_iff.mpr ⟨hpos, hle, by rw [hsleep.1]; decide⟩
    unfold Sched.unblockProcess
    rw [Sched.getProcess_of_valid hvalid]
    dsimp only
    rw [if_neg (not_not.mpr hsleep.1), Sched.schedule_processes, Sched.setState_state]
  obtain ⟨hout, honce⟩ := List.nodup_cons.mp (hself ▸ h.once semId)
  generalize hT : S.wakeFirst semId pid rest = T
  have hframe : T.frames = S.frames := by
    rw [← hT]
    rfl
  have hqueue : T.waiters semId = rest := by
    rw [← hT]
    simp [waiters, Machine.wakeFirst, WaitQueue.list]
  have hused : (T.sems.sems semId).used = (S.sems.sems semId).used := by
    rw [← hT]
    simp [Machine.wakeFirst]
  have hother : ∀ i ≠ semId, T.sems.sems i = S.sems.sems i := by
    intro i hi
    rw [← hT]
    exact SemTable.setSem_sems_of_ne hi
  have hsleeps : ∀ p i, T.Sleeps p i ↔ S.Sleeps p i ∧ p ≠ pid := by
    intro p i
    by_cases hp : p = pid
    · subst hp
      refine iff_of_false (fun habs => ?_) fun habs => habs.2 rfl
      have hstate := habs.1
      rw [← hT] at hstate
      change ((S.sched.unblockProcess p).2.processes p).state = BLOCKED at hstate
      rw [hready] at hstate
      exact absurd hstate (by decide)
    · have hstate : (T.sched.processes p).state = (S.sched.processes p).state := by
        rw [← hT]
        change ((S.sched.unblockProcess pid).2.processes p).state = _
        rw [Sched.unblockProcess_of_ne hp]
      unfold Sleeps
      rw [hstate, hframe]
      exact ⟨fun hsleep => ⟨hsleep, hp⟩, And.left⟩
  constructor
  · intro p i hp
    exact h.range p i ((hsleeps p i).mp hp).1
  · intro i
    by_cases hi : i = semId
    · subst hi
      rw [hqueue]
      exact honce
    · unfold waiters
      rw [hother i hi]
      exact h.once i
  · intro i p
    rw [hsleeps, ← h.listed]
    by_cases hi : i = semId
    · subst hi
      rw [hqueue, hself, List.mem_cons]
      constructor
      · intro hp
        refine ⟨.inr hp, ?_⟩
        rintro rfl
        exact hout hp
      · rintro ⟨hp, hne⟩
        exact hp.resolve_left hne
    · have hsame : T.waiters i = S.waiters i := by
        unfold waiters
        rw [hother i hi]
      rw [hsame]
      refine ⟨fun hp => ⟨hp, ?_⟩, And.left⟩
      -- the one that is woken sleeps on one semaphore only
      rintro rfl
      have hsem := ((h.listed i p).mp hp).2
      rw [hsleep.2] at hsem
      exact hi (Option.some.inj hsem).symm
  · intro i q hi
    by_cases heq : i = semId
    · subst heq
      rw [hused]
      exact h.housed i _ hq
    · rw [hother i heq] at hi ⊢
      exact h.housed i q hi

/-- A slot gets another queue, and neither the old one nor the new one lists anybody. -/
theorem Exact.setEmpty (h : S.Exact) (semId : ℕ) (hempty : S.waiters semId = [])
    (hempty' : S'.waiters semId = []) (hsched : S'.sched.processes = S.sched.processes)
    (hframes : S'.frames = S.frames)
    (hother : ∀ i ≠ semId, S'.sems.sems i = S.sems.sems i)
    (hhoused : ∀ q, (S'.sems.sems semId).waiting = .queue q →
      (S'.sems.sems semId).used = true) : S'.Exact := by
  have hsleeps : ∀ p i, S'.Sleeps p i ↔ S.Sleeps p i := by
    intro p i
    unfold Sleeps
    rw [hsched, hframes]
  have hwaiters : ∀ i, S'.waiters i = S.waiters i := by
    intro i
    by_cases hi : i = semId
    · subst hi
      rw [hempty, hempty']
    · unfold waiters
      rw [hother i hi]
  constructor
  · intro p i hp
    exact h.range p i ((hsleeps p i).mp hp)
  · intro i
    rw [hwaiters]
    exact h.once i
  · intro i p
    rw [hwaiters, hsleeps]
    exact h.listed i p
  · intro i q hq
    by_cases hi : i = semId
    · subst hi
      exact hhoused q hq
    · rw [hother i hi] at hq ⊢
      exact h.housed i q hq

theorem Exact.releaseSem (h : S.Exact)
    (hq : (S.sems.sems semId).waiting.elements = some []) : (S.releaseSem semId).Exact := by
  have hfree : ∀ w : WaitQueue, w.elements = some [] → w.list = [] ∧ w.free.list = [] ∧
      ∀ q, w.free ≠ .queue q := by
    intro w hw
    rcases elements_some hw
      with ⟨rfl, _⟩ | rfl <;> exact ⟨rfl, rfl, fun q => by simp [WaitQueue.free]⟩
  obtain ⟨hold, hnew, hnone⟩ := hfree _ hq
  refine h.setEmpty semId hold ?_ rfl rfl (fun i hi => SemTable.setSem_sems_of_ne hi)
    fun q hq' => ?_
  · change (((S.sems.release semId).sems semId).waiting).list = []
    rw [SemTable.release, SemTable.setSem_sems_self]
    exact hnew
  · change ((S.sems.release semId).sems semId).waiting = .queue q at hq'
    rw [SemTable.release, SemTable.setSem_sems_self] at hq'
    exact absurd hq' (hnone q)

theorem Exact.semCreate (h : S.Exact) {name : CString} {value : Int32} {waiting : WaitQueue}
    {T : SemTable} (hw : waiting = .queue [] ∨ waiting = .null)
    (hcreate : S.sems.semCreate pid name value waiting = (some semId, T)) :
    ({ S with sems := T, sched := S.sched.dropBlock }.note (.semCreated semId value)).Exact := by
  rcases SemTable.semCreate_cases S.sems pid name value waiting with hnone | ⟨i, _, _, hfree, heq⟩
  · rw [hnone] at hcreate
    exact absurd hcreate (by simp)
  · rw [heq, Prod.mk.injEq, Option.some.injEq] at hcreate
    obtain ⟨rfl, rfl⟩ := hcreate
    have hunused := (SemTable.findFreeSem_some hfree).2
    have hfill : ((S.sems.sems i).fill pid name value waiting).waiting = waiting := by
      simp [Sem.fill, (SemTable.setOpened_eq _ _ _).2.2, Sem.copyName]
    refine h.setEmpty i ?_ ?_ rfl rfl (fun j hj => SemTable.setSem_sems_of_ne hj)
      fun q _ => ?_
    · -- a slot that is not in use has no queue
      cases hq : (S.sems.sems i).waiting with
      | queue q =>
          have hused := h.housed i q hq
          rw [hunused] at hused
          exact absurd hused (by decide)
      | _ =>
          unfold waiters
          rw [hq]
          rfl
    · change ((S.sems.setSem i _).sems i).waiting.list = []
      rw [SemTable.setSem_sems_self, hfill]
      rcases hw with rfl | rfl <;> rfl
    · change ((S.sems.setSem i _).sems i).used = true
      rw [SemTable.setSem_sems_self, Sem.fill_used]

/-- A semaphore changes, but not in its queue. -/
theorem Exact.setSem (h : S.Exact) {s : Sem} (hwaiting : s.waiting = (S.sems.sems semId).waiting)
    (hused : s.used = (S.sems.sems semId).used) : (S.setSem semId s).Exact := by
  refine h.same (fun _ => Iff.rfl) rfl fun i => ?_
  rw [setSem_sems]
  by_cases hi : i = semId
  · subst hi
    rw [SemTable.setSem_sems_self]
    exact ⟨hwaiting, hused⟩
  · rw [SemTable.setSem_sems_of_ne hi]
    exact ⟨rfl, rfl⟩

theorem Exact.congr (h : S.Exact) (hprocesses : S'.sched.processes = S.sched.processes)
    (hframes : S'.frames = S.frames) (hsems : S'.sems = S.sems) : S'.Exact :=
  h.quiet (Sched.Quiet.of_processes hprocesses) hframes hsems

/-- A block changes, but not in its state. -/
theorem Exact.setProcess (h : S.Exact) {b : Process}
    (hsched : S'.sched.processes = (S.sched.setProcess pid b).processes)
    (hstate : b.state = (S.sched.processes pid).state) (hframes : S'.frames = S.frames)
    (hsems : S'.sems = S.sems) : S'.Exact := by
  refine h.same (fun p => ?_) hframes fun i => by rw [hsems]; exact ⟨rfl, rfl⟩
  rw [hsched]
  by_cases hp : p = pid
  · subst hp
    rw [Sched.setProcess_self, hstate]
  · rw [Sched.setProcess_of_ne hp]

/-- The actions by which nobody falls asleep, ends, or is blocked or woken but
from a queue. -/
def Act.orderly : Act → Prop
  | .kill _ | .killWake _ | .block _ | .unblock _ | .sleep _ _ _ => False
  | _ => True

/-- The events apart from these take steps of orderly actions only. -/
theorem Allowed.orderly (ha : Allowed S e a) (hexit : ∀ r, e ≠ .exit r) (hresume : e ≠ .resume)
    (hkill : ∀ target, e ≠ .call (.kill target)) (hblock : ∀ target, e ≠ .call (.block target))
    (hunblock : ∀ target, e ≠ .call (.unblock target)) (hwait : ¬MayWait e) : Act.orderly a := by
  cases a with
  | kill p =>
      rcases ha with hcall | ⟨⟨r, hr⟩, _⟩
      · exact absurd hcall (hkill p)
      · exact absurd hr (hexit r)
  | killWake p =>
      rcases ha with hcall | ⟨hr, _⟩
      · exact absurd hcall (hkill p)
      · exact absurd hr hresume
  | block p => exact absurd ha.1 (hblock p)
  | unblock p => exact absurd ha (hunblock p)
  | sleep p semId k => exact absurd ha.1 hwait
  | _ => trivial

/-- **All other actions** keep the queues exact. -/
theorem exact_does (hbase : S.Base) (h : S.Exact) (ha : Act.orderly a) (hd : S.Does a S') :
    S'.Exact := by
  cases hd with
  | @switch isYield =>
      have hquiet := Sched.switchContext_quiet (s := { S.sched with isYield := isYield })
        hbase.sound.settled
      exact h.quiet ⟨hquiet.blocked, hquiet.exited, hquiet.waitPid, hquiet.waitReturnValue⟩ rfl rfl
  | create hpid hexited => exact h.create hexited
  | returned => exact h.setProcess rfl rfl rfl rfl
  | priority => exact h.setProcess rfl rfl rfl rfl
  | waitBlock hc hf => exact h.waitFor hbase hc hf
  | waitRead hc hf => exact (h.setFrame (hbase.current_ne_blocked hc)).congr rfl rfl rfl
  | frame hc hf => exact h.setFrame (hbase.current_ne_blocked hc)
  | semCreate hc hf hw hcreate => exact h.semCreate hw hcreate
  | mark => exact h.setSem (SemTable.setOpened_eq _ _ _).2.2 (SemTable.setOpened_eq _ _ _).2.1
  | @take p i =>
      have hset : (S.setSem i { S.sems.sems i with value := (S.sems.sems i).value - 1 }).Exact :=
        h.setSem rfl rfl
      exact hset.congr rfl rfl rfl
  | @post i =>
      have hset : (S.setSem i { S.sems.sems i with value := (S.sems.sems i).value + 1 }).Exact :=
        h.setSem rfl rfl
      exact hset.congr rfl rfl rfl
  | @set i value =>
      have hset : (S.setSem i { S.sems.sems i with value := value }).Exact := h.setSem rfl rfl
      exact hset.congr rfl rfl rfl
  | wake hc hq => exact h.wakeFirst hq
  | destroy hlt hq => exact h.releaseSem hq
  | kill => exact ha.elim
  | killWake => exact ha.elim
  | block => exact ha.elim
  | unblock => exact ha.elim
  | sleep => exact ha.elim
  | _ => exact h.congr rfl rfl rfl

theorem exact_path {ok : Act → Prop} (hbase : S.Base) (h : S.Exact) (hpath : Path ok S S')
    (hok : ∀ a, ok a → Act.orderly a) : S'.Exact := by
  refine (hpath.invariant (I := fun M => M.Base ∧ M.Exact) ⟨hbase, h⟩ ?_).2
  rintro M a M' ⟨hMbase, hM⟩ ha hd
  exact ⟨hMbase.does hd, exact_does hMbase hM (hok a ha) hd⟩

theorem closing_orderly {P D : ℕ → Prop} (h : closing P D a) : Act.orderly a := by
  cases a <;> first | exact h.elim | trivial

/-- Closing files wakes processes, and does nothing else to them. -/
theorem closing_processes {P D : ℕ → Prop} (h : Path (closing P D) S S') (p : ℤ) :
    (S'.sched.processes p).waitPid = (S.sched.processes p).waitPid ∧
      ((S'.sched.processes p).state = BLOCKED → (S.sched.processes p).state = BLOCKED) := by
  refine h.invariant (I := fun M => (M.sched.processes p).waitPid = (S.sched.processes p).waitPid ∧
    ((M.sched.processes p).state = BLOCKED → (S.sched.processes p).state = BLOCKED))
    ⟨rfl, id⟩ ?_
  rintro M a M' ⟨hwait, hblocked⟩ ha hd
  cases hd <;> simp only [closing] at ha
  case wake =>
    exact ⟨Sched.unblockProcess_waitPid.trans hwait,
      fun hb => hblocked (Sched.unblockProcess_blocked hb)⟩
  all_goals exact ⟨hwait, hblocked⟩

/-! ## Every step -/

theorem Exact.forceSwitchContext (h : S.Exact) (hbase : S.Base) :
    (S.onSched Sched.forceSwitchContext).Exact :=
  exact_does (a := .switch _) hbase h trivial (switch_path S)

/-- A process is killed that does not sleep, and whose waiter does not. -/
theorem exact_kill {r : Int32} (hbase : S.Base) (h : S.Exact)
    (hc : S.sched.currentProcess = some c)
    (hok : S.keepsQueues (.call (.kill pid))) (hkill : S.kill pid = some (r, S')) : S'.Exact := by
  rcases kill_cases hc hkill with ⟨rfl, _⟩ | ⟨hrange, halive, S₁, hclose, rfl⟩
  · exact h
  · have hkeeps := hok hrange.1 halive
    have hstart : (S.killStart pid .leave).Base := hbase.does (.kill hc hrange halive)
    have hclosed : S₁.Exact :=
      exact_path hstart (h.killStart (fun i => (hkeeps i).1) .leave) hclose fun _ => closing_orderly
    have hbase₁ : S₁.Base := hclose.base hstart
    -- the waiter does not sleep afterwards either
    have hwaiter : ∀ i, ¬S₁.Sleeps (S₁.sched.processes pid).waitPid i := by
      rintro i ⟨hblocked, hframe⟩
      have hwait : (S₁.sched.processes pid).waitPid = (S.sched.processes pid).waitPid := by
        refine (closing_processes hclose pid).1.trans ?_
        change (((S.sched.unscheduleProcess pid).setProcess pid _).processes pid).waitPid = _
        rw [Sched.setProcess_self]
        rfl
      rw [hwait] at hblocked hframe
      have hfirst := (closing_processes hclose _).2 hblocked
      have hne : (S.sched.processes pid).waitPid ≠ pid := by
        intro heq
        rw [heq, killStart_state] at hfirst
        exact absurd hfirst (by decide)
      rw [hclose.calm.2] at hframe
      change (Function.update S.frames pid (.exiting .leave) _).semaphore = some i at hframe
      rw [Function.update_of_ne hne] at hframe
      change (((S.sched.unscheduleProcess pid).setProcess pid _).processes _).state =
        BLOCKED at hfirst
      rw [Sched.setProcess_of_ne hne, Sched.unscheduleProcess_processes] at hfirst
      exact (hkeeps i).2 ⟨hfirst, hframe⟩
    have hwoken : (S₁.killWake pid).Exact := hclosed.killWake hwaiter
    split
    · have hc₁ : S₁.sched.currentProcess = some c := hclose.calm.1.trans hc
      have hover : (S₁.sched.processes pid).state = EXITED :=
        (closing_exited hclose pid).mpr (killStart_state S pid _)
      exact hwoken.forceSwitchContext (hbase₁.does (.killWake hc₁ hover))
    · exact hwoken

/-- The next part of the end of a process behind its `entry`. -/
theorem exact_exitRound {stage : ExitStage} (hbase : S.Base) (h : S.Exact)
    (hc : S.sched.currentProcess = some pid) (hf : S.frames pid = .exiting stage)
    (hok : S.keepsQueues .resume) (hround : S.exitRound pid stage = some S') : S'.Exact := by
  by_cases hstage : stage = .wake
  · subst hstage
    rw [← Option.some.inj hround]
    have hwake : S.Does (.killWake pid) (S.killWake pid) :=
      .killWake hc (hbase.ended pid .wake hf)
    have hc' := (hwake.quiet_current trivial).trans hc
    exact (h.killWake ((hok pid hc).2 hf)).setFrame ((hbase.does hwake).current_ne_blocked hc')
  · refine exact_path hbase h (exitRound_path hc hf (hbase.ended pid stage hf) hround).path ?_
    intro a ha
    cases a <;> simp_all [leaving, Act.orderly]

/-- A round of the loop of `semWait`, and the return to user mode. -/
theorem exact_semWaitLoop {taken : Bool} (hbase : S.Base) (h : S.Exact)
    (hc : S.sched.currentProcess = some pid) (hf : (S.frames pid).working)
    (hroom : (S.sems.sems semId).value = 0 → S.HasRoom semId)
    (hloop : S.semWaitLoop pid semId .done = some (taken, M))
    (hafter : (if taken then M.afterWait pid .done else some M) = some S') : S'.Exact := by
  rcases semWaitLoop_cases hloop with ⟨rfl, hzero, _, rfl⟩ | ⟨rfl, _, rfl⟩
  · rw [if_neg Bool.false_ne_true] at hafter
    rw [← Option.some.inj hafter]
    exact h.fallAsleep hbase hc hf (hroom hzero)
  · rw [if_pos rfl] at hafter
    rw [← Option.some.inj hafter]
    have htaken : (S.takeOne pid semId).Exact := by
      have hset : (S.setSem semId
          { S.sems.sems semId with value := (S.sems.sems semId).value - 1 }).Exact :=
            h.setSem rfl rfl
      exact hset.congr rfl rfl rfl
    exact htaken.setFrame (hbase.current_ne_blocked hc)

theorem exact_resume (hbase : S.Base) (h : S.Exact) (hfiles : ∀ p, (S.frames p).outsideFiles)
    (hok : S.keepsQueues .resume) (hc : S.sched.currentProcess = some pid)
    (hresume : S.resume pid (S.frames pid) = some S') : S'.Exact := by
  have hframe := hfiles pid
  generalize hf : S.frames pid = f at hresume hframe
  cases f with
  | user => exact absurd hresume (by simp [resume])
  | reading r => exact hframe.elim
  | writing w => exact hframe.elim
  | semWait semId k =>
      obtain rfl : k = .done := hframe
      simp only [resume, Option.bind_eq_bind, Option.bind_eq_some_iff, Prod.exists] at hresume
      obtain ⟨taken, M, hloop, hafter⟩ := hresume
      exact exact_semWaitLoop hbase h hc (by rw [hf]; trivial) ((hok pid hc).1 semId .done hf)
        hloop hafter
  | waitBlock target wstatus =>
      rw [← Option.some.inj hresume]
      have hmove : S.Does (.frame pid) (S.setFrame pid (.waitForced target wstatus)) :=
        .frame hc (by rw [hf]; exact .forced)
      exact (exact_does (a := .frame pid) hbase h trivial hmove).forceSwitchContext
        (hbase.does hmove)
  | waitForced target wstatus =>
      rw [← Option.some.inj hresume]
      exact exact_does (a := .waitRead _ _ _) hbase h trivial (.waitRead hc hf)
  | exiting stage => exact exact_exitRound hbase h hc hf hok hresume

theorem exact_step (hbase : S.Base) (h : S.Exact) (hfiles : ∀ p, (S.frames p).outsideFiles)
    (hevent : ofSemaphores e) (hok : S.keepsQueues e) (hstep : S.Step e S') : S'.Exact := by
  cases e with
  | tick =>
      refine exact_path hbase h (step_path hbase hstep) fun a ha => ?_
      exact ha.orderly (by simp) (by simp) (by simp) (by simp) (by simp) id
  | resume =>
      unfold Step step at hstep
      split at hstep
      · exact absurd hstep (by simp)
      · rename_i pid hc
        exact exact_resume hbase h hfiles hok hc hstep
  | exit r =>
      unfold Step step at hstep
      split at hstep
      · exact absurd hstep (by simp)
      · rename_i pid hc
        dsimp only at hstep
        split at hstep
        · unfold exitProcess at hstep
          split at hstep
          · exact absurd hstep (by simp)
          · rw [← Option.some.inj hstep]
            have hkept : ((S.onSched fun s => s.setProcess pid
                { s.processes pid with waitReturnValue := r }).note (.returned pid r)).Exact :=
              h.setProcess rfl rfl rfl rfl
            refine hkept.killStart (not_sleeps ?_) .closeIn
            have hstate := hbase.current_ne_blocked hc
            simpa using hstate
        · exact absurd hstep (by simp)
  | call call =>
      obtain ⟨c, hc, hf, hcall⟩ := step_call hstep
      cases call with
      | kill target =>
          simp only [sysCall, Option.map_eq_map, Option.map_eq_some_iff, Prod.exists] at hcall
          obtain ⟨r, _, hkill, rfl⟩ := hcall
          exact exact_kill hbase h hc hok hkill
      | block target =>
          rw [← Option.some.inj hcall]
          unfold sysBlock
          split
          · exact h
          · rename_i hvalid
            rw [not_or, Bool.not_eq_true', Bool.not_eq_false] at hvalid
            exact h.block hc hvalid.2 (hok hvalid.1 (Sched.isValidPID_iff.mp hvalid.2).2.2)
      | unblock target =>
          rw [← Option.some.inj hcall]
          exact h.unblock hok
      | semWait i =>
          simp only [sysCall] at hcall
          split at hcall
          · simp only [waitThen, Option.bind_eq_bind, Option.bind_eq_some_iff, Prod.exists] at hcall
            obtain ⟨returned, M, hwait, hafter⟩ := hcall
            have hwork : (S.frames c).working := by
              rw [hf]
              trivial
            rcases semWait_cases hwait with ⟨rfl, rfl⟩ | ⟨hpos, _, hused, hloop⟩
            · rw [if_pos rfl] at hafter
              rw [← Option.some.inj hafter]
              exact h.setFrame (hbase.current_ne_blocked hc)
            · exact exact_semWaitLoop hbase h hc hwork (hok hpos hused) hloop hafter
          · rw [← Option.some.inj hcall]
            exact h
      | pipe fresh => exact hevent.elim
      | close fd => exact hevent.elim
      | read fd count => exact hevent.elim
      | write fd buf => exact hevent.elim
      | readAt fd => exact hevent.elim
      | _ =>
          refine exact_path hbase h (step_path hbase hstep) fun a ha => ?_
          exact ha.orderly (by simp) (by simp) (by simp) (by simp) (by simp) id

/-! ## No bytes are transferred -/

theorem outsideFiles_update {frames : ℤ → Frame} (h : ∀ p, (frames p).outsideFiles) {f : Frame}
    (hf : f.outsideFiles) (p : ℤ) : (Function.update frames pid f p).outsideFiles := by
  by_cases hp : p = pid
  · subst hp
    rw [Function.update_self]
    exact hf
  · rw [Function.update_of_ne hp]
    exact h p

theorem outsideFiles_semWait {semId : ℕ} {taken : Bool} (h : ∀ p, (S.frames p).outsideFiles)
    (hloop : S.semWaitLoop pid semId .done = some (taken, M))
    (hafter : (if taken then M.afterWait pid .done else some M) = some S') (p : ℤ) :
    (S'.frames p).outsideFiles := by
  rcases semWaitLoop_cases hloop with ⟨rfl, _, _, rfl⟩ | ⟨rfl, _, rfl⟩
  · rw [if_neg Bool.false_ne_true] at hafter
    rw [← Option.some.inj hafter]
    unfold fallAsleep
    rw [onSched_frames, setFrame_frames, enlist_frames]
    exact outsideFiles_update (f := .semWait semId .done) h rfl p
  · rw [if_pos rfl] at hafter
    rw [← Option.some.inj hafter]
    exact outsideFiles_update (f := .user) h trivial p

theorem outsideFiles_createProcess (h : ∀ p, (S.frames p).outsideFiles)
    (params : Option CreationParameters) (p : ℤ) :
    ((S.createProcess params).2.frames p).outsideFiles := by
  rcases createProcess_cases S params with ⟨outcomes, heq⟩ | ⟨_, _, _, _, _, _, _, heq⟩ <;> rw [heq]
  · exact h p
  · exact outsideFiles_update (f := .user) h trivial p

theorem sysSemOpen_frames (S : Machine) (pid : ℤ) (name : CString) (value : Int32) :
    (S.sysSemOpen pid name value).2.frames = S.frames := by
  unfold sysSemOpen
  split
  · unfold Machine.semCreate
    dsimp only
    split <;> rfl
  · unfold Machine.semOpen
    split <;> rfl

theorem outsideFiles_sysCall {call : Syscall} (h : ∀ p, (S.frames p).outsideFiles)
    (hc : S.sched.currentProcess = some c) (hevent : ofSemaphores (.call call))
    (hcall : S.sysCall c call = some S') (p : ℤ) : (S'.frames p).outsideFiles := by
  cases call with
  | createProcess params =>
      rw [← Option.some.inj hcall]
      exact outsideFiles_createProcess h params p
  | kill target =>
      simp only [sysCall, Option.map_eq_map, Option.map_eq_some_iff, Prod.exists] at hcall
      obtain ⟨r, _, hkill, rfl⟩ := hcall
      rcases kill_cases hc hkill with ⟨rfl, _⟩ | ⟨_, _, S₁, hclose, rfl⟩
      · exact h p
      · have hkept : (S₁.frames p).outsideFiles := by
          rw [hclose.calm.2]
          exact outsideFiles_update (f := .exiting .leave) h trivial p
        split
        · rw [onSched_frames, killWake_frames]
          exact hkept
        · rw [killWake_frames]
          exact hkept
  | block target =>
      rw [← Option.some.inj hcall]
      unfold sysBlock
      split <;> exact h p
  | unblock target =>
      rw [← Option.some.inj hcall]
      exact h p
  | changePriority target priority =>
      rw [← Option.some.inj hcall]
      unfold changeProccessPriority
      dsimp only
      split
      · exact h p
      · split
        · exact h p
        · split <;> exact h p
  | yield =>
      rw [← Option.some.inj hcall]
      exact h p
  | wait target wstatus =>
      rw [← Option.some.inj hcall]
      unfold waitProcess
      dsimp only
      split
      · exact h p
      · split
        · exact h p
        · exact outsideFiles_update (f := .waitBlock target wstatus) h trivial p
  | semOpen name value =>
      rw [← Option.some.inj hcall, sysSemOpen_frames]
      exact h p
  | semClose i =>
      simp only [sysCall, Option.map_eq_map, Option.map_eq_some_iff, Prod.exists] at hcall
      obtain ⟨r, _, hclose, rfl⟩ := hcall
      unfold semClose at hclose
      split at hclose
      · obtain ⟨-, rfl⟩ := Prod.mk.inj (Option.some.inj hclose)
        exact h p
      · split at hclose
        · exact absurd hclose (by simp)
        · split at hclose <;> obtain ⟨-, rfl⟩ := Prod.mk.inj (Option.some.inj hclose) <;> exact h p
  | semWait i =>
      simp only [sysCall] at hcall
      split at hcall
      · simp only [waitThen, Option.bind_eq_bind, Option.bind_eq_some_iff, Prod.exists] at hcall
        obtain ⟨returned, M, hwait, hafter⟩ := hcall
        rcases semWait_cases hwait with ⟨rfl, rfl⟩ | ⟨_, _, _, hloop⟩
        · rw [if_pos rfl] at hafter
          rw [← Option.some.inj hafter]
          exact outsideFiles_update (f := .user) h trivial p
        · exact outsideFiles_semWait h hloop hafter p
      · rw [← Option.some.inj hcall]
        exact h p
  | semPost i =>
      simp only [sysCall] at hcall
      split at hcall
      · simp only [Option.map_eq_map, Option.map_eq_some_iff, Prod.exists] at hcall
        obtain ⟨r, _, hpost, rfl⟩ := hcall
        rcases semPost_cases hpost with ⟨rfl, -⟩ | ⟨-, -, pids, -, rfl⟩ <;> exact h p
      · rw [← Option.some.inj hcall]
        exact h p
  | semSetValue i value =>
      simp only [sysCall, Option.map_eq_map, Option.map_eq_some_iff, Prod.exists] at hcall
      obtain ⟨r, _, hset, rfl⟩ := hcall
      rcases semSetValue_cases hset with rfl | ⟨-, _, pids, rfl⟩ <;> exact h p
  | semDestroy i =>
      simp only [sysCall] at hcall
      split at hcall
      · simp only [Option.map_eq_map, Option.map_eq_some_iff, Prod.exists] at hcall
        obtain ⟨r, _, hdestroy, rfl⟩ := hcall
        obtain ⟨-, pids, -, rfl⟩ := semDestroy_cases hdestroy
        exact h p
      · rw [← Option.some.inj hcall]
        exact h p
  | _ => exact hevent.elim

theorem outsideFiles_resume {f : Frame} (h : ∀ p, (S.frames p).outsideFiles)
    (hf : f.outsideFiles) (hc : S.sched.currentProcess = some pid)
    (hresume : S.resume pid f = some S') (p : ℤ) : (S'.frames p).outsideFiles := by
  cases f with
  | user => exact absurd hresume (by simp [resume])
  | reading r => exact hf.elim
  | writing w => exact hf.elim
  | semWait semId k =>
      obtain rfl : k = .done := hf
      simp only [resume, Option.bind_eq_bind, Option.bind_eq_some_iff, Prod.exists] at hresume
      obtain ⟨taken, M, hloop, hafter⟩ := hresume
      exact outsideFiles_semWait h hloop hafter p
  | waitBlock target wstatus =>
      rw [← Option.some.inj hresume]
      exact outsideFiles_update (f := .waitForced target wstatus) h trivial p
  | waitForced target wstatus =>
      rw [← Option.some.inj hresume]
      exact outsideFiles_update (f := .user) h trivial p
  | exiting stage =>
      have hclose : ∀ {fd : ℤ} {r : Int32} {S₁ : Machine} (stage' : ExitStage),
          S.closeFD fd = some (r, S₁) →
            ((S₁.setFrame pid (.exiting stage')).frames p).outsideFiles := by
        intro fd r S₁ stage' hfd
        have hpath := closeFD_path (P := fun _ => True) (D := fun _ => True)
          (fun _ => trivial) (fun _ => trivial) hc hfd
        rw [setFrame_frames, hpath.calm.2]
        exact outsideFiles_update (f := .exiting stage') h trivial p
      cases stage with
      | closeIn =>
          simp only [resume, exitRound, Option.bind_eq_bind, Option.bind_eq_some_iff,
            Option.some.injEq, Prod.exists] at hresume
          obtain ⟨_, S₁, hfd, rfl⟩ := hresume
          exact hclose .closeOut hfd
      | closeOut =>
          simp only [resume, exitRound, Option.bind_eq_bind, Option.bind_eq_some_iff,
            Option.some.injEq, Prod.exists] at hresume
          obtain ⟨_, S₁, hfd, rfl⟩ := hresume
          exact hclose .wake hfd
      | wake =>
          rw [← Option.some.inj hresume]
          rw [setFrame_frames, killWake_frames]
          exact outsideFiles_update (f := .exiting .leave) h trivial p
      | leave =>
          rw [← Option.some.inj hresume]
          exact h p

theorem outsideFiles_step (h : ∀ p, (S.frames p).outsideFiles) (hevent : ofSemaphores e)
    (hstep : S.Step e S') (p : ℤ) : (S'.frames p).outsideFiles := by
  cases e with
  | tick =>
      unfold Step step at hstep
      split at hstep
      · rw [← Option.some.inj hstep]
        exact h p
      · dsimp only at hstep
        split at hstep
        · rw [← Option.some.inj hstep]
          exact h p
        · exact absurd hstep (by simp)
  | resume =>
      unfold Step step at hstep
      split at hstep
      · exact absurd hstep (by simp)
      · rename_i pid hc
        exact outsideFiles_resume h (h pid) hc hstep p
  | exit r =>
      unfold Step step at hstep
      split at hstep
      · exact absurd hstep (by simp)
      · rename_i pid hc
        dsimp only at hstep
        split at hstep
        · unfold exitProcess at hstep
          split at hstep
          · exact absurd hstep (by simp)
          · rw [← Option.some.inj hstep]
            exact outsideFiles_update (f := .exiting .closeIn) h trivial p
        · exact absurd hstep (by simp)
  | call call =>
      obtain ⟨c, hc, _, hcall⟩ := step_call hstep
      exact outsideFiles_sysCall h hc hevent hcall p

/-! ## Every run -/

theorem exact_boot (nodes blocks : ℕ → Bool) : (boot nodes blocks).Exact := by
  have hoff : (off nodes blocks).Exact := by
    have hnone : ∀ p semId, ¬(off nodes blocks).Sleeps p semId := fun p =>
      not_sleeps (by simp [off, emptyProcess])
    have hempty : ∀ semId, (off nodes blocks).waiters semId = [] := by
      intro semId
      change (bootSems.sems semId).waiting.list = []
      rcases bootSems_waiting semId with ⟨_, hq⟩ | ⟨_, hq⟩ <;> rw [hq] <;> rfl
    constructor
    · intro p semId hp
      exact absurd hp (hnone p semId)
    · intro semId
      rw [hempty]
      exact List.nodup_nil
    · intro semId p
      rw [hempty]
      exact iff_of_false List.not_mem_nil (hnone p semId)
    · intro semId q hq
      change (bootSems.sems semId).waiting = .queue q at hq
      rcases bootSems_waiting semId with ⟨hused, _⟩ | ⟨_, hnull⟩
      · exact hused
      · rw [hnull] at hq
        exact absurd hq (by simp)
  refine exact_path base_off hoff boot_path fun a ha => ?_
  cases a <;> first | exact absurd ha id | trivial

theorem outsideFiles_boot (nodes blocks : ℕ → Bool) (p : ℤ) :
    ((boot nodes blocks).frames p).outsideFiles := by
  have hoff : ∀ p, ((off nodes blocks).frames p).outsideFiles := fun _ => trivial
  exact outsideFiles_createProcess (outsideFiles_createProcess hoff _) _ p

/-- A post wakes those who are listed. -/
theorem Exact.posts (h : S.Exact) {i : ℤ} (hstep : S.Step (.call (.semPost i)) S')
    (hblocked : (S.sched.processes p).state = BLOCKED)
    (hwoken : (S'.sched.processes p).state ≠ BLOCKED) : S.Sleeps p i.toNat := by
  obtain ⟨c, _, _, hcall⟩ := step_call hstep
  simp only [sysCall] at hcall
  split at hcall
  · simp only [Option.map_eq_map, Option.map_eq_some_iff, Prod.exists] at hcall
    obtain ⟨r, _, hpost, rfl⟩ := hcall
    rcases semPost_cases hpost with ⟨rfl, -⟩ | ⟨-, -, pids, hpids, rfl⟩
    · exact absurd hblocked hwoken
    · rcases wakeAll_processes pids _ p with ⟨heq, -⟩ | ⟨⟨hmem, -⟩, -⟩
      · rw [heq] at hwoken
        exact absurd hblocked hwoken
      · refine (h.listed i.toNat p).mp ?_
        unfold waiters
        rw [elements_list hpids]
        exact hmem
  · rw [← Option.some.inj hcall] at hwoken
    exact absurd hblocked hwoken

/-- **The queues hold exactly those who sleep** in every run that keeps to the rules. -/
theorem waiting_queues_exact (nodes blocks : ℕ → Bool) (S : Machine)
    (h : Reaches Step (fun S e => ofSemaphores e ∧ S.keepsQueues e) (boot nodes blocks) S) :
    S.WaitersExact := by
  obtain ⟨_, hexact, _⟩ := h.invariant
    (I := fun S => S.Base ∧ S.Exact ∧ ∀ p, (S.frames p).outsideFiles)
    ⟨base_boot, exact_boot nodes blocks, outsideFiles_boot nodes blocks⟩
    fun S e S' ⟨hbase, hS, hfiles⟩ ⟨hevent, hok⟩ hstep => ⟨hbase.step hstep,
      exact_step hbase hS hfiles hevent hok hstep, outsideFiles_step hfiles hevent hstep⟩
  constructor
  · intro semId _
    exact hexact.once semId
  · intro semId _ p
    exact hexact.listed semId p
  · intro i S' hstep p hblocked hwoken
    exact hexact.posts hstep hblocked hwoken

/-- A worker sleeps on the semaphore of the shell, and stands in its queue. -/
theorem waiting_queues_exact_worker : ∃ S, exec step booted workerSleeps = some S ∧
    S.waiters 3 = [3] ∧ S.WaitersExact := by
  obtain ⟨S₁, hS₁⟩ := Option.isSome_iff_exists.mp (by decide +kernel :
    (exec step booted [.call (.semOpen nameA 0), .call (.createProcess (some workerParams)),
      .call (.changePriority 2 1)]).isSome)
  obtain ⟨S₂, hS₂⟩ := Option.isSome_iff_exists.mp (by decide +kernel :
    ((exec step booted [.call (.semOpen nameA 0), .call (.createProcess (some workerParams)),
      .call (.changePriority 2 1)]).bind fun S => S.step (.call (.semWait 3))).isSome)
  obtain ⟨S₃, hS₃⟩ := Option.isSome_iff_exists.mp (by decide +kernel :
    (exec step booted workerSleeps).isSome)
  have hroom : (exec step booted [.call (.semOpen nameA 0),
      .call (.createProcess (some workerParams)), .call (.changePriority 2 1)]).map
        (fun S => ((S.sems.sems 3).waiting, S.sched.nodes 0)) = some (.queue [], true) := by
    decide +kernel
  have hafter : (exec step booted workerSleeps).map (fun S => S.waiters 3) = some [3] := by
    decide +kernel
  have hlast : exec step booted workerSleeps = ((exec step booted [.call (.semOpen nameA 0),
      .call (.createProcess (some workerParams)), .call (.changePriority 2 1)]).bind
        fun S => S.step (.call (.semWait 3))).bind fun S => S.step (.call .yield) := by
    simp [exec, workerSleeps, workerWaits, Option.bind_assoc]
  rw [hS₂, Option.bind_some, hS₃] at hlast
  rw [hS₃] at hafter
  rw [hS₁] at hroom hS₂
  simp only [Option.map_some, Option.some.injEq, Prod.mk.injEq,
    Option.bind_some] at hroom hafter hS₂
  have hfirst : Reaches Step (fun S e => ofSemaphores e ∧ S.keepsQueues e) booted S₁ := by
    refine exec_always hS₁ fun e he S => ?_
    simp only [List.mem_cons, List.not_mem_nil, or_false] at he
    rcases he with rfl | rfl | rfl <;> exact ⟨trivial, trivial⟩
  have hwait : S₁.keepsQueues (.call (.semWait 3)) := fun _ _ _ => ⟨⟨[], hroom.1⟩, hroom.2⟩
  have hwaits : Reaches Step (fun S e => ofSemaphores e ∧ S.keepsQueues e) booted S₂ :=
    hfirst.tail (e := .call (.semWait 3)) ⟨trivial, hwait⟩ hS₂
  have hyield : S₂.keepsQueues (.call .yield) := trivial
  have hrun : Reaches Step (fun S e => ofSemaphores e ∧ S.keepsQueues e) booted S₃ :=
    hwaits.tail (e := .call .yield) ⟨trivial, hyield⟩ hlast.symm
  exact ⟨S₃, hS₃, hafter, waiting_queues_exact _ _ S₃ hrun⟩

/-- **A waiter that is killed stays listed**, and a new process in its slot would be too. -/
theorem waiting_queues_dead : ¬∀ nodes blocks S,
    Reaches Step (fun _ e => ofSemaphores e) (boot nodes blocks) S → S.WaitersExact := by
  intro hall
  obtain ⟨S, hS⟩ := Option.isSome_iff_exists.mp (by decide +kernel :
    (exec step booted (workerSleeps ++ [.call (.kill 3)])).isSome)
  have hafter : (exec step booted (workerSleeps ++ [.call (.kill 3)])).map (fun S =>
      ((S.sched.processes 3).state, S.waiters 3, (S.sems.sems 3).used)) =
        some (EXITED, [3], true) := by
    decide +kernel
  rw [hS] at hafter
  simp only [Option.map_some, Option.some.injEq, Prod.mk.injEq] at hafter
  obtain ⟨hstate, hlisted, hused⟩ := hafter
  have hexact := hall _ _ S (exec_always hS fun e he _ => by
    simp only [workerSleeps, workerWaits, List.cons_append, List.nil_append, List.mem_cons,
      List.not_mem_nil, or_false] at he
    rcases he with rfl | rfl | rfl | rfl | rfl | rfl <;> trivial)
  have hsleeps := (hexact.listed 3 hused 3).mp (by
    rw [hlisted]
    exact List.mem_singleton_self 3)
  rw [hsleeps.1] at hstate
  exact absurd hstate (by decide)

end Machine

end BareKernel.Kernel
