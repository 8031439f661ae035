import BareKernel.Kernel.StepTrace
import BareKernel.Kernel.SemaphoreNames
import BareKernel.Kernel.ReadyQueues

/-!
# References to a process that is over

A PID stands in the ready queues, in the waiting queues of semaphores, in the
`waitPid` of other processes and in `openedBy` of semaphores. `kill` removes the
first entry of each ready queue and nothing else. Nobody but the process that
has the CPU, and those that were referred to before, gets new references, so a
PID without references stays without until its slot is used again.
-/

namespace BareKernel.Kernel

open ProcessState Runs

namespace Sched

variable {s s' : Sched} {p q c i : ℤ} {b : Process}

/-- Neither the ready queues nor the block of another live process refer to `p`. -/
structure Forgets (s : Sched) (p : ℤ) : Prop where
  queues : ∀ i ∈ levels, p ∉ s.priorityQueues i
  waitPid : ∀ q ≠ p, (s.processes q).state ≠ EXITED → (s.processes q).waitPid ≠ p

theorem Forgets.congr (h : s.Forgets p) (hqueues : s'.priorityQueues = s.priorityQueues)
    (hprocesses : s'.processes = s.processes) : s'.Forgets p := by
  constructor
  · rw [hqueues]
    exact h.queues
  · rw [hprocesses]
    exact h.waitPid

/-- A switch only queues the process that ran. -/
theorem Forgets.switchContext (h : s.Forgets p) (hs : s.Settled)
    (hrun : (s.processes p).state ≠ RUNNING) : s.switchContext.Forgets p := by
  have hquiet := switchContext_quiet hs
  constructor
  · intro i hi hmem
    rcases mem_switchContext hmem with ⟨j, hj, hbefore⟩ | ⟨_, hrun'⟩
    · rcases hj with rfl | hj
      · exact h.queues j hi hbefore
      · exact h.queues j hj hbefore
    · exact hrun hrun'
  · intro q hq halive
    rw [hquiet.waitPid]
    exact h.waitPid q hq fun hexited => halive ((hquiet.exited q).mpr hexited)

theorem Forgets.setProcess (h : s.Forgets p)
    (hb : q ≠ p → b.state ≠ EXITED → b.waitPid ≠ p) : (s.setProcess q b).Forgets p := by
  refine ⟨h.queues, ?_⟩
  intro r hr halive
  by_cases heq : r = q
  · subst heq
    rw [setProcess_self] at halive ⊢
    exact hb hr halive
  · rw [setProcess_of_ne heq] at halive ⊢
    exact h.waitPid r hr halive

/-- A block changes, but not in who waits for the process. -/
theorem Forgets.setBlock (h : s.Forgets p) (hw : b.waitPid = (s.processes q).waitPid)
    (he : b.state ≠ EXITED → (s.processes q).state ≠ EXITED) : (s.setProcess q b).Forgets p := by
  apply h.setProcess
  intro hq halive
  rw [hw]
  exact h.waitPid q hq (he halive)

theorem Forgets.schedule (h : s.Forgets p) (hne : q ≠ p) : (s.schedule q).Forgets p := by
  constructor
  · intro i hi hmem
    rcases mem_schedule hmem with hmem | heq
    · exact h.queues i hi hmem
    · exact hne heq.symm
  · rw [schedule_processes]
    exact h.waitPid

/-- A process that is over is not unblocked. -/
theorem Forgets.unblockProcess (h : s.Forgets p) (hp : (s.processes p).state = EXITED) :
    (s.unblockProcess q).2.Forgets p := by
  rcases unblockProcess_cases (s := s) with heq | ⟨_, _, hblocked, heq⟩ <;> rw [heq]
  · exact h
  · have hne : q ≠ p := by
      rintro rfl
      rw [hp] at hblocked
      exact absurd hblocked (by decide)
    refine Forgets.schedule ?_ hne
    exact h.setBlock rfl fun _ => by rw [hblocked]; decide

theorem Forgets.blockProcess (h : s.Forgets p) (hc : s.currentProcess = some c)
    (hp : (s.processes p).state = EXITED) (hvalid : s.isValidPID q) :
    (s.blockProcess q).2.Forgets p := by
  have halive := (isValidPID_iff.mp hvalid).2.2
  have hne : p ≠ q := by
    rintro rfl
    exact halive hp
  have hset : (s.setState q BLOCKED).Forgets p := h.setBlock rfl fun _ => halive
  rw [blockProcess_of_valid hvalid]
  split
  · have hyield : ({ s.setState q BLOCKED with isYield := true } : Sched).Forgets p :=
      hset.congr rfl rfl
    refine hyield.switchContext (settled_of_some hc) ?_
    change ((s.setState q BLOCKED).processes p).state ≠ RUNNING
    rw [setState, setProcess_of_ne hne, hp]
    decide
  · exact hset

/-- `unscheduleProcess` removes what stands at most once in each queue. -/
theorem unscheduleProcess_forgets (hqueues : ∀ i ∈ levels, (s.priorityQueues i).count p ≤ 1)
    (hwait : ∀ q ≠ p, (s.processes q).state ≠ EXITED → (s.processes q).waitPid ≠ p) :
    (s.unscheduleProcess p).Forgets p := by
  refine ⟨?_, hwait⟩
  intro i hi hmem
  have hcount : ((s.priorityQueues i).erase p).count p = 0 := by
    rw [List.count_erase_self]
    have := hqueues i hi
    omega
  have heq : (s.unscheduleProcess p).priorityQueues i = (s.priorityQueues i).erase p := if_pos hi
  rw [heq] at hmem
  exact List.count_eq_zero.mp hcount hmem

end Sched

namespace Machine

variable {S S' S₁ M M' : Machine} {a : Act} {e : Event} {c p : ℤ} {semId : ℕ}

/-- Nothing in the kernel refers to `p` any more: no priority queue, no waiting
queue, no live process that would wake it, and no mark of a semaphore in use. -/
structure Erased (S : Machine) (p : ℤ) : Prop where
  queues : ∀ i ∈ Sched.levels, p ∉ S.sched.priorityQueues i
  waiting : ∀ semId q, (S.sems.sems semId).waiting = .queue q → p ∉ q
  waitPid : ∀ q ≠ p, (S.sched.processes q).state ≠ EXITED → (S.sched.processes q).waitPid ≠ p
  opened : ∀ semId, (S.sems.sems semId).used = true → (S.sems.sems semId).opened p = 0

/-- Without the marks of semaphores, which are taken up on their own: PID 100
has none, and its mark is the first byte of a name. -/
structure Unlisted (S : Machine) (p : ℤ) : Prop where
  sched : S.sched.Forgets p
  waiting : ∀ semId q, (S.sems.sems semId).waiting = .queue q → p ∉ q

def Unopened (S : Machine) (p : ℤ) : Prop :=
  ∀ semId, (S.sems.sems semId).used = true → (S.sems.sems semId).opened p = 0

theorem erased_iff : S.Erased p ↔ S.Unlisted p ∧ S.Unopened p :=
  ⟨fun h => ⟨⟨⟨h.queues, h.waitPid⟩, h.waiting⟩, h.opened⟩,
    fun h => ⟨h.1.sched.queues, h.1.waiting, h.1.sched.waitPid, h.2⟩⟩

/-! ## Every action keeps a process unlisted -/

/-- A slot changes, and its queue holds no more than it did. -/
theorem Unlisted.setSem (h : S.Unlisted p) {s : Sem}
    (hqueue : ∀ q, s.waiting = .queue q → p ∉ q) : (S.setSem semId s).Unlisted p := by
  refine ⟨h.sched, ?_⟩
  intro i q hq
  by_cases hi : i = semId
  · subst hi
    rw [setSem_sems, SemTable.setSem_sems_self] at hq
    exact hqueue q hq
  · rw [setSem_sems, SemTable.setSem_sems_of_ne hi] at hq
    exact h.waiting i q hq

theorem Unlisted.setValue (h : S.Unlisted p) (semId : ℕ) (value : Int32) :
    (S.setSem semId { S.sems.sems semId with value := value }).Unlisted p :=
  h.setSem (h.waiting semId)

/-- The scheduler changes, and still forgets the process. -/
theorem Unlisted.mapSched (h : S.Unlisted p) (hsched : S'.sched.Forgets p)
    (hsems : S'.sems = S.sems) : S'.Unlisted p := by
  refine ⟨hsched, ?_⟩
  rw [hsems]
  exact h.waiting

theorem Unlisted.congr (h : S.Unlisted p) (hsched : S'.sched = S.sched) (hsems : S'.sems = S.sems) :
    S'.Unlisted p :=
  h.mapSched (by rw [hsched]; exact h.sched) hsems

theorem Unlisted.enlist (h : S.Unlisted p) (hne : c ≠ p) (semId : ℕ) :
    (S.enlist c semId).Unlisted p := by
  unfold Machine.enlist
  split
  · rename_i q hq
    have hset : (S.setSem semId { S.sems.sems semId with
        waiting := .queue (S.sched.append q c) }).Unlisted p := by
      apply h.setSem
      intro q' hq' hmem
      obtain rfl := WaitQueue.queue.inj hq'
      rcases Sched.mem_append hmem with hmem | heq
      · exact h.waiting semId q hq hmem
      · exact hne heq.symm
    exact hset.mapSched (hset.sched.congr rfl rfl) rfl
  · exact h

/-- **No action refers to a process that is over**, but its slot may be used again. -/
theorem Unlisted.does (hbase : S.Base) (h : S.Unlisted p) (hpos : 0 < p)
    (hp : (S.sched.processes p).state = EXITED) (hnew : a ≠ .create p) (hd : S.Does a S') :
    S'.Unlisted p := by
  -- whoever goes on with a call of its own is not `p`
  have hworks : ∀ {c : ℤ}, S.sched.currentProcess = some c → (S.frames c).working → c ≠ p := by
    rintro c hc hwork rfl
    have hrun := hbase.running hc (Frame.working_ne_exiting hwork)
    rw [hp] at hrun
    exact absurd hrun (by decide)
  cases hd with
  | @switch isYield =>
      have hflag : ({ S.sched with isYield := isYield } : Sched).Forgets p := h.sched.congr rfl rfl
      have hstop : (S.sched.processes p).state ≠ RUNNING := by
        rw [hp]
        decide
      exact h.mapSched (hflag.switchContext hbase.sound.settled hstop) rfl
  | blocks => exact h.mapSched (h.sched.congr rfl rfl) rfl
  | block hc _ hvalid => exact h.mapSched (h.sched.blockProcess hc hp hvalid) rfl
  | unblock => exact h.mapSched (h.sched.unblockProcess hp) rfl
  | @create pid b hpid hexited hc hb =>
      have hne : pid ≠ p := by
        rintro rfl
        exact hnew rfl
      have hset : (S.sched.setProcess pid b).Forgets p := by
        apply h.sched.setProcess
        intro _ _
        rw [hb.waitPid]
        unfold nonPid
        omega
      exact h.mapSched (hset.schedule hne) rfl
  | returned => exact h.mapSched (h.sched.setBlock rfl id) rfl
  | @kill c pid stage hc hpid halive =>
      have hoff : (S.sched.unscheduleProcess pid).Forgets p := by
        refine ⟨?_, h.sched.waitPid⟩
        intro i hi hmem
        exact h.sched.queues i hi (Sched.mem_unscheduleProcess hmem)
      exact h.mapSched (hoff.setProcess fun _ habs => absurd rfl habs) rfl
  | @killWake c pid hc hexited =>
      unfold Machine.killWake
      dsimp only
      split
      · exact h
      · refine h.mapSched ((h.sched.unblockProcess hp).setProcess fun _ _ => ?_) rfl
        unfold nonPid
        change (-1 : ℤ) ≠ p
        omega
  | priority => exact h.mapSched (h.sched.setBlock rfl id) rfl
  | @waitBlock pid target wstatus hc hf htarget halive =>
      have hne : pid ≠ p := hworks hc (by rw [hf]; trivial)
      have hset : (S.sched.setProcess target
          { S.sched.processes target with waitPid := pid }).Forgets p :=
        h.sched.setProcess fun _ _ => hne
      have hexited : ((S.sched.setProcess target
          { S.sched.processes target with waitPid := pid }).processes p).state = EXITED := by
        by_cases heq : p = target
        · subst heq
          exact absurd hp halive
        · rw [Sched.setProcess_of_ne heq, hp]
      have hvalid := waitFor_valid hbase hc hf target
      exact h.mapSched (hset.blockProcess (c := pid) hc hexited hvalid) rfl
  | @semCreate c name value waiting semId T hc hf hw hcreate =>
      rcases SemTable.semCreate_cases S.sems c name value waiting with hnone | ⟨i, _, _, _, heq⟩
      · rw [hnone] at hcreate
        exact absurd hcreate (by simp)
      · rw [heq, Prod.mk.injEq, Option.some.injEq] at hcreate
        obtain ⟨rfl, rfl⟩ := hcreate
        have hfill : ((S.sems.sems i).fill c name value waiting).waiting = waiting := by
          simp [Sem.fill, (SemTable.setOpened_eq _ _ _).2.2, Sem.copyName]
        have hset : (S.setSem i ((S.sems.sems i).fill c name value waiting)).Unlisted p := by
          apply h.setSem
          intro q hq
          rw [hfill] at hq
          rcases hw with rfl | rfl
          · obtain rfl := WaitQueue.queue.inj hq
            exact List.not_mem_nil
          · exact absurd hq (by simp)
        exact hset.mapSched (hset.sched.congr rfl rfl) rfl
  | mark =>
      apply h.setSem
      rw [(SemTable.setOpened_eq _ _ _).2.2]
      exact h.waiting _
  | @sleep pid semId k hc hf hvalue hwaiting hin =>
      have hne : pid ≠ p := hworks hc hf
      have hlist := h.enlist hne semId
      have hsched : (S.enlist pid semId).sched.processes = S.sched.processes ∧
          (S.enlist pid semId).sched.currentProcess = S.sched.currentProcess := by
        rcases enlist_sched S pid semId with heq | heq <;> rw [heq] <;> exact ⟨rfl, rfl⟩
      have hvalid := enlist_valid hbase hc hf semId
      exact hlist.mapSched (hlist.sched.blockProcess (hsched.2.trans hc)
        (by rw [hsched.1]; exact hp) hvalid) rfl
  | @take pid semId => exact (h.setValue semId ((S.sems.sems semId).value - 1)).congr rfl rfl
  | @post semId => exact (h.setValue semId ((S.sems.sems semId).value + 1)).congr rfl rfl
  | @wake c pid semId rest hc hq =>
      have hset :
          (S.setSem semId { S.sems.sems semId with waiting := .queue rest }).Unlisted p := by
        apply h.setSem
        intro q hq'
        obtain rfl := WaitQueue.queue.inj hq'
        exact fun hmem => h.waiting semId _ hq (List.mem_cons_of_mem _ hmem)
      exact hset.mapSched (hset.sched.unblockProcess hp) rfl
  | @set semId value => exact (h.setValue semId value).congr rfl rfl
  | @destroy semId hlt hq =>
      have hset : (S.setSem semId { S.sems.sems semId with
          used := false, waiting := (S.sems.sems semId).waiting.free }).Unlisted p := by
        apply h.setSem
        intro q hq'
        dsimp only [WaitQueue.free] at hq'
        split at hq' <;> exact absurd hq' (by simp)
      exact hset.congr rfl rfl
  | _ => exact h.congr rfl rfl

/-! ## The marks of semaphores -/

theorem opened_setOpened {s : Sem} {b : UInt8} (hne : c ≠ p) (hp : p < openedByLength) :
    (s.setOpened c b).opened p = s.opened p := by
  unfold Sem.setOpened Sem.opened
  rw [if_pos hp, if_pos hp]
  split
  · exact Function.update_of_ne (Ne.symm hne) _ _
  · rfl

theorem opened_fill {s : Sem} {name : CString} {value : Int32} {waiting : WaitQueue}
    (hne : c ≠ p) (hp : p < openedByLength) : (s.fill c name value waiting).opened p = 0 := by
  unfold Sem.fill
  rw [opened_setOpened hne hp]
  exact if_pos hp

theorem Unopened.setSem (h : S.Unopened p) {s : Sem}
    (hs : s.used = true → s.opened p = 0) : (S.setSem semId s).Unopened p := by
  intro i hi
  by_cases heq : i = semId
  · subst heq
    rw [setSem_sems, SemTable.setSem_sems_self] at hi ⊢
    exact hs hi
  · rw [setSem_sems, SemTable.setSem_sems_of_ne heq] at hi ⊢
    exact h i hi

theorem Unopened.congr (h : S.Unopened p) (hsems : S'.sems = S.sems) : S'.Unopened p := by
  unfold Unopened
  rw [hsems]
  exact h

theorem Unopened.setValue (h : S.Unopened p) (semId : ℕ) (value : Int32) :
    (S.setSem semId { S.sems.sems semId with value := value }).Unopened p :=
  h.setSem (h semId)

/-- The actions that write marks, or the name behind them. -/
def marking : Act → Prop
  | .semCreate _ _ | .mark _ => True
  | _ => False

/-- **Nobody opens a semaphore for a process that is over.** -/
theorem Unopened.does (hbase : S.Base) (h : S.Unopened p)
    (hp : (S.sched.processes p).state = EXITED) (hmark : p < openedByLength ∨ ¬marking a)
    (hd : S.Does a S') : S'.Unopened p := by
  have hopens : ∀ {c : ℤ}, S.sched.currentProcess = some c → S.frames c = .user → c ≠ p := by
    rintro c hc hf rfl
    have hrun := hbase.running hc fun stage => by rw [hf]; simp
    rw [hp] at hrun
    exact absurd hrun (by decide)
  cases hd with
  | @semCreate c name value waiting semId T hc hf hw hcreate =>
      have hlow := hmark.resolve_right fun hno => hno trivial
      rcases SemTable.semCreate_cases S.sems c name value waiting with hnone | ⟨i, _, _, _, heq⟩
      · rw [hnone] at hcreate
        exact absurd hcreate (by simp)
      · rw [heq, Prod.mk.injEq, Option.some.injEq] at hcreate
        obtain ⟨rfl, rfl⟩ := hcreate
        exact (h.setSem fun _ => opened_fill (hopens hc hf) hlow).congr rfl
  | @mark c semId b hc hf hused =>
      have hlow := hmark.resolve_right fun hno => hno trivial
      apply h.setSem
      intro _
      rw [opened_setOpened (hopens hc hf) hlow]
      exact h semId hused
  | @sleep pid semId k hc hf hvalue hwaiting hin =>
      have hlist : (S.enlist pid semId).Unopened p := by
        unfold enlist
        split
        · exact (h.setSem (s := { S.sems.sems semId with
            waiting := .queue (S.sched.append _ pid) }) (h semId)).congr rfl
        · exact h
      exact hlist.congr rfl
  | @take pid semId => exact (h.setValue semId ((S.sems.sems semId).value - 1)).congr rfl
  | @post semId => exact (h.setValue semId ((S.sems.sems semId).value + 1)).congr rfl
  | @set semId value => exact (h.setValue semId value).congr rfl
  | @wake c pid semId rest hc hq =>
      exact (h.setSem (s := { S.sems.sems semId with waiting := .queue rest }) (h semId)).congr rfl
  | @destroy semId hlt hq =>
      exact (h.setSem (s := { S.sems.sems semId with
        used := false, waiting := (S.sems.sems semId).waiting.free }) (by simp)).congr rfl
  | @killWake c pid hc hexited => exact h.congr (killWake_sems S pid)
  | _ => exact h.congr rfl

/-! ## The process that is killed -/

/-- What `kill` does not look at holds no reference to `p`, and each priority
queue at most one entry. -/
structure Erasable (S : Machine) (p : ℤ) : Prop where
  queues : ∀ i ∈ Sched.levels, (S.sched.priorityQueues i).count p ≤ 1
  waiting : ∀ semId q, (S.sems.sems semId).waiting = .queue q → p ∉ q
  waitPid : ∀ q ≠ p, (S.sched.processes q).state ≠ EXITED → (S.sched.processes q).waitPid ≠ p
  opened : ∀ semId, (S.sems.sems semId).used = true → (S.sems.sems semId).opened p = 0

/-- The process that an event kills: by the call, or behind its `entry`. -/
def Kills (S : Machine) : Event → ℤ → Prop
  | .call (.kill p), q => q = p ∧ initPid < q ∧ q ≤ maxPid ∧
      (S.sched.processes q).state ≠ EXITED
  | .exit _, q => S.sched.currentProcess = some q
  | _, _ => False

/-- `kill` only meets processes that nothing else refers to. -/
def killsErasable (S : Machine) (e : Event) : Prop := ∀ p, S.Kills e p → S.Erasable p

theorem erased_killStart (h : S.Erasable p) (stage : ExitStage) :
    (S.killStart p stage).Erased p := by
  have hforgets := Sched.unscheduleProcess_forgets h.queues h.waitPid
  have hset : ((S.sched.unscheduleProcess p).setProcess p
      { S.sched.processes p with state := EXITED, argc := 0 }).Forgets p :=
    hforgets.setProcess fun _ habs => absurd rfl habs
  exact ⟨hset.queues, h.waiting, hset.waitPid, h.opened⟩

/-- What follows in a `kill` refers to nobody who is over. -/
theorem Erased.path {ok : Act → Prop} (h : S.Erased p) (hbase : S.Base) (hpos : 0 < p)
    (hp : (S.sched.processes p).state = EXITED) (hpath : Path ok S S')
    (hok : ∀ a, ok a → a ≠ .create p ∧ ¬marking a) :
    S'.Erased p ∧ S'.Base ∧ (S'.sched.processes p).state = EXITED := by
  refine hpath.invariant (I := fun M => M.Erased p ∧ M.Base ∧
    (M.sched.processes p).state = EXITED) ⟨h, hbase, hp⟩ ?_
  rintro M a M' ⟨hM, hMbase, hMp⟩ ha hd
  obtain ⟨hnew, hmark⟩ := hok a ha
  obtain ⟨hlisted, hopened⟩ := erased_iff.mp hM
  refine ⟨erased_iff.mpr ⟨?_, ?_⟩, hMbase.does hd, hd.over hMbase hnew hMp⟩
  · exact hlisted.does hMbase hpos hMp hnew hd
  · exact hopened.does hMbase hMp (.inr hmark) hd

/-- **`kill` erases** what nothing else refers to. -/
theorem erased_kill {r : Int32} (hbase : S.Base) (hc : S.sched.currentProcess = some c)
    (hkills : S.Kills (.call (.kill p)) p) (h : S.Erasable p) (hkill : S.kill p = some (r, S')) :
    S'.Erased p := by
  obtain ⟨_, hlow, hhigh, halive⟩ := hkills
  rcases kill_cases hc hkill with ⟨_, hrefused⟩ | ⟨hrange, _, S₁, hclose, rfl⟩
  · rcases hrefused with hinit | hmax | hexited
    · omega
    · omega
    · exact absurd hexited halive
  · have hpos : 0 < p := by
      have := hrange.1
      unfold initPid at this
      omega
    have hstart : (S.killStart p .leave).Base :=
      hbase.does (.kill hc hrange halive)
    obtain ⟨hclosed, hbase₁, hp₁⟩ := (erased_killStart h .leave).path hstart hpos
      (killStart_state S p _) hclose fun a ha => by
        cases a <;> simp_all [closing, marking]
    have hc₁ : S₁.sched.currentProcess = some c := hclose.calm.1.trans hc
    have hwake : Path (fun a => a = .killWake p ∨ ∃ b, a = .switch b) S₁ (S₁.killWake p) :=
      Path.one (.inl rfl) (.killWake hc₁ hp₁)
    have hquiet : ∀ a, (a = .killWake p ∨ ∃ b, a = .switch b) → a ≠ .create p ∧ ¬marking a := by
      rintro a (rfl | ⟨b, rfl⟩) <;> exact ⟨by simp, id⟩
    split
    · exact (hclosed.path hbase₁ hpos hp₁ (hwake.tail (.inr ⟨_, rfl⟩) (switch_path _)) hquiet).1
    · exact (hclosed.path hbase₁ hpos hp₁ hwake hquiet).1

/-- The result is kept first, and then the process is killed. -/
theorem erased_exit {r : Int32} (h : S.Erasable p) (hexit : S.exitProcess p r = some S') :
    S'.Erased p := by
  unfold exitProcess at hexit
  split at hexit
  · simp at hexit
  · rw [← Option.some.inj hexit]
    apply erased_killStart
    refine ⟨h.queues, h.waiting, ?_, h.opened⟩
    intro q hq halive
    change ((S.sched.setProcess p _).processes q).state ≠ EXITED at halive
    change ((S.sched.setProcess p _).processes q).waitPid ≠ p
    rw [Sched.setProcess_of_ne hq] at halive ⊢
    exact h.waitPid q hq halive

/-! ## Every step -/

/-- Whoever is over and still has the CPU, or has a mark of its own, is erased. -/
def OverErased (S : Machine) : Prop :=
  ∀ p, 0 < p → (S.sched.processes p).state = EXITED →
    (p < openedByLength ∨ S.sched.currentProcess = some p) → S.Erased p

/-- Actions that do not kill `p` keep it erased, and those of a process that is
over write no marks. -/
theorem overErased_path {ok : Act → Prop} (hbase : S.Base) (h : S.OverErased)
    (hpath : Path ok S S') (hkill : ¬ok (.kill p)) (hpos : 0 < p)
    (hmark : S.sched.currentProcess = some p → (S.sched.processes p).state = EXITED →
      ∀ a, ok a → ¬marking a)
    (hp : (S'.sched.processes p).state = EXITED)
    (hwhich : p < openedByLength ∨ S'.sched.currentProcess = some p) : S'.Erased p := by
  refine ((hpath.invariant (I := fun M => M.Base ∧
    ((M.sched.processes p).state = EXITED →
      (p < openedByLength ∨ M.sched.currentProcess = some p) → M.Erased p ∧
        (p < openedByLength ∨
          S.sched.currentProcess = some p ∧ (S.sched.processes p).state = EXITED)))
    ⟨hbase, fun hover hor => ⟨h p hpos hover hor, hor.imp_right fun hc => ⟨hc, hover⟩⟩⟩
    ?_).2 hp hwhich).1
  rintro M a M' ⟨hMbase, hM⟩ ha hd
  refine ⟨hMbase.does hd, fun hover hor => ?_⟩
  have hnew : a ≠ .create p := by
    rintro rfl
    exact hd.create_live hover
  have hkill' : a ≠ .kill p := by
    rintro rfl
    exact hkill ha
  have hMp := (hd.exited hMbase hnew hkill').mp hover
  obtain ⟨herased, hfirst⟩ := hM hMp (hor.imp_right (hd.current hMbase hover))
  obtain ⟨hlisted, hopened⟩ := erased_iff.mp herased
  refine ⟨erased_iff.mpr ⟨hlisted.does hMbase hpos hMp hnew hd, ?_⟩, hfirst⟩
  exact hopened.does hMbase hMp (hfirst.imp_right fun ⟨hc, hS⟩ => hmark hc hS a ha) hd

theorem overErased_step (hbase : S.Base) (h : S.OverErased) (hok : S.killsErasable e)
    (hstep : S.Step e S') : S'.OverErased := by
  intro p hpos hp hwhich
  by_cases hkills : S.Kills e p
  · have herasable := hok p hkills
    cases e with
    | call call =>
        cases call with
        | kill q =>
            obtain rfl := hkills.1
            obtain ⟨c, hc, _, hcall⟩ := step_call hstep
            simp only [sysCall, Option.map_eq_map, Option.map_eq_some_iff, Prod.exists] at hcall
            obtain ⟨r, _, hkill, rfl⟩ := hcall
            exact erased_kill hbase hc hkills herasable hkill
        | _ => exact hkills.elim
    | exit r =>
        have hc : S.sched.currentProcess = some p := hkills
        unfold Step step at hstep
        rw [hc] at hstep
        dsimp only at hstep
        split at hstep
        · exact erased_exit herasable hstep
        · simp at hstep
    | _ => exact hkills.elim
  · by_cases hcall : e = .call (.kill p)
    · subst hcall
      obtain ⟨c, hc, _, hcall⟩ := step_call hstep
      simp only [sysCall, Option.map_eq_map, Option.map_eq_some_iff, Prod.exists] at hcall
      obtain ⟨r, _, hkill, rfl⟩ := hcall
      rcases kill_cases hc hkill with ⟨rfl, _⟩ | ⟨hrange, halive, _⟩
      · exact h p hpos hp hwhich
      · exact absurd ⟨rfl, hrange.1, hrange.2, halive⟩ hkills
    · have hpath := step_path hbase hstep
      refine overErased_path hbase h hpath ?_ hpos ?_ hp hwhich
      · rintro (rfl | ⟨⟨r, rfl⟩, hc⟩)
        · exact hcall rfl
        · exact hkills hc
      · -- whoever is over makes no call
        intro hc hover a ha hmark
        have hcalls : ∃ call, e = .call call := by
          cases a <;> first | exact ha | exact mayCreate_call ha | exact hmark.elim
        obtain ⟨call, rfl⟩ := hcalls
        obtain ⟨c, hc', hf, _⟩ := step_call hstep
        obtain rfl : p = c := Option.some.inj (hc.symm.trans hc')
        have hrun := hbase.running hc fun stage => by rw [hf]; simp
        rw [hover] at hrun
        exact absurd hrun (by decide)

/-! ## Boot -/

theorem createProcess_sems (S : Machine) (params : Option CreationParameters) :
    (S.createProcess params).2.sems = S.sems := by
  unfold createProcess
  repeat' first | rfl | split

theorem boot_sems (nodes blocks : ℕ → Bool) : (boot nodes blocks).sems = bootSems := by
  unfold boot
  dsimp only
  rw [onSched_sems, createProcess_sems, createProcess_sems]
  rfl

theorem bootSems_empty {semId : ℕ} {q : List ℤ} (h : (bootSems.sems semId).waiting = .queue q) :
    q = [] := by
  rcases bootSems_waiting semId with ⟨_, hqueue⟩ | ⟨_, hnull⟩
  · exact (WaitQueue.queue.inj (hqueue.symm.trans h)).symm
  · exact absurd (hnull.symm.trans h) (by simp)

theorem overErased_boot (nodes blocks : ℕ → Bool) : (boot nodes blocks).OverErased := by
  have hoff : (off nodes blocks).OverErased := by
    intro p hpos _ hwhich
    have hlow := hwhich.resolve_right (by simp [off])
    constructor
    · intro i _
      exact List.not_mem_nil
    · intro semId q hq
      exact bootSems_empty hq ▸ List.not_mem_nil
    · intro q _ halive
      exact absurd rfl halive
    · intro semId _
      exact (if_pos hlow).trans (bootSems_openedBy p semId)
  intro p hpos hp hwhich
  refine overErased_path base_off hoff boot_path id hpos ?_ hp hwhich
  intro hc
  exact absurd hc (by simp [off])

/-! ## Every run -/

/-- A process that was just created owes nothing to whoever had its PID before. -/
structure Clean (S : Machine) (p : ℤ) : Prop where
  queued : S.sched.entries p ≤ 1
  waiting : ∀ semId q, (S.sems.sems semId).waiting = .queue q → p ∉ q
  waitPid : ∀ q ≠ p, (S.sched.processes q).state ≠ EXITED → (S.sched.processes q).waitPid ≠ p
  opened : ∀ semId, (S.sems.sems semId).used = true → (S.sems.sems semId).opened p = 0

theorem Erased.clean {params : Option CreationParameters} (h : S.Erased p)
    (hcreate : S.createProcess params = (p, S')) (hpos : 0 < p) : S'.Clean p := by
  obtain ⟨_, _, outcomes, b, hb, rfl⟩ := createProcess_pos hcreate hpos
  have hempty : S.sched.entries p = 0 := MultiQueue.entries_eq_zero.mpr h.queues
  constructor
  · have hle := Sched.entries_schedule_le (({ S.sched with blocks := outcomes }).setProcess p b) p
    change _ ≤ S.sched.entries p + 1 at hle
    rw [hempty] at hle
    exact hle
  · exact h.waiting
  · intro q hq halive
    change ((({ S.sched with blocks := outcomes }.setProcess p b).schedule p).processes q).state ≠
      EXITED at halive
    change
      ((({ S.sched with blocks := outcomes }.setProcess p b).schedule p).processes q).waitPid ≠ p
    rw [Sched.schedule_processes, Sched.setProcess_of_ne hq] at halive ⊢
    exact h.waitPid q hq halive
  · exact h.opened

/-- What `kill` leaves behind: whoever was killed, by a call or behind its
`entry`, is erased, so is every free slot that a new process can get, and the
new process is clean. PID 100 has no mark of its own, so its slot is left out. -/
structure ReferencesErased (ok : Machine → Event → Prop) (S : Machine) : Prop where
  killed : ∀ p S', S.Kills (.call (.kill p)) p → ok S (.call (.kill p)) →
    S.Step (.call (.kill p)) S' → S'.Erased p
  left : ∀ p stage, S.sched.currentProcess = some p → S.frames p = .exiting stage → S.Erased p
  free : ∀ p, 0 < p → p < openedByLength → (S.sched.processes p).state = EXITED → S.Erased p
  reused : ∀ params p S', 0 < p → p < openedByLength → S.createProcess params = (p, S') → S'.Clean p

/-- **`kill` erases every reference to the PID** in every run in which nothing but
one entry in each ready queue refers to the process at that moment. -/
theorem kill_erases (nodes blocks : ℕ → Bool) (S : Machine)
    (h : Reaches Step killsErasable (boot nodes blocks) S) : S.ReferencesErased killsErasable := by
  obtain ⟨hbase, hover⟩ := h.invariant (I := fun S => S.Base ∧ S.OverErased)
    ⟨base_boot, overErased_boot nodes blocks⟩ fun S e S' hS hok hstep =>
      ⟨hS.1.step hstep, overErased_step hS.1 hS.2 hok hstep⟩
  constructor
  · intro p S' hkills hok hstep
    obtain ⟨c, hc, _, hcall⟩ := step_call hstep
    simp only [sysCall, Option.map_eq_map, Option.map_eq_some_iff, Prod.exists] at hcall
    obtain ⟨r, _, hkill, rfl⟩ := hcall
    exact erased_kill hbase hc hkills (hok p hkills) hkill
  · intro p stage hc hf
    exact hover p (hbase.sound.current p hc).1 (hbase.ended p stage hf) (.inr hc)
  · intro p hpos hlow hp
    exact hover p hpos hp (.inl hlow)
  · intro params p S' hpos hlow hcreate
    have hp := (createProcess_pos hcreate hpos).2.1
    exact (hover p hpos hp (.inl hlow)).clean hcreate hpos

/-- Nobody waits for anybody before the first call of `waitProcess`. -/
theorem unawaited_path (hbase : S.Base) (hS : ∀ q, (S.sched.processes q).waitPid = nonPid)
    (hpath : Path starting S S') : ∀ q, (S'.sched.processes q).waitPid = nonPid := by
  refine (hpath.invariant (I := fun M => M.Base ∧ ∀ q, (M.sched.processes q).waitPid = nonPid)
    ⟨hbase, hS⟩ ?_).2
  rintro M a M' ⟨hbase, hM⟩ ha hd
  refine ⟨hbase.does hd, fun q => ?_⟩
  cases hd with
  | @switch isYield =>
      have hquiet := Sched.switchContext_quiet (s := { M.sched with isYield := isYield })
        hbase.sound.settled
      exact (hquiet.waitPid q).trans (hM q)
  | @create p b hpid hexited hc hb =>
      change (((M.sched.setProcess p b).schedule p).processes q).waitPid = nonPid
      rw [Sched.schedule_processes]
      by_cases heq : q = p
      · subst heq
        rw [Sched.setProcess_self]
        exact hb.waitPid
      · rw [Sched.setProcess_of_ne heq]
        exact hM q
  | blocks | files | semCreate => exact hM q
  | _ => exact absurd ha (by simp [starting])

/-- The shell has created a worker. -/
def withWorker : Machine := (booted.createProcess (some workerParams)).2

theorem unawaited_worker (q : ℤ) : (withWorker.sched.processes q).waitPid = nonPid := by
  have hboot : ∀ q, (booted.sched.processes q).waitPid = nonPid :=
    unawaited_path base_off (fun _ => rfl) boot_path
  have hcreate : Path starting booted withWorker := by
    refine (createProcess_path _ fun c hc hexited => ?_).mono ?_
    · obtain rfl : 2 = c := Option.some.inj
        ((by decide +kernel : booted.sched.currentProcess = some 2).symm.trans hc)
      exact absurd hexited (by decide +kernel)
    · rintro a (⟨outcomes, rfl⟩ | ⟨pid, rfl⟩)
      · trivial
      · trivial
  exact unawaited_path base_boot hboot hcreate q

/-- The worker is in no waiting queue and has opened nothing. -/
theorem erasable_worker : withWorker.Erasable 3 := by
  have hsems : withWorker.sems = bootSems := (createProcess_sems _ _).trans (boot_sems _ _)
  constructor
  · decide +kernel
  · rw [hsems]
    intro semId q hq
    exact bootSems_empty hq ▸ List.not_mem_nil
  · intro q _ _
    rw [unawaited_worker q]
    decide
  · rw [hsems]
    intro semId _
    exact bootSems_openedBy _ semId

/-- A worker that waits for the CPU is killed, and its PID is given away again. -/
theorem kill_erases_worker : ∃ S S', withWorker.step (.call (.kill 3)) = some S ∧
    3 ∈ withWorker.sched.priorityQueues 2 ∧ S.Erased 3 ∧
      S.createProcess (some workerParams) = (3, S') ∧ S'.Clean 3 := by
  have hend : (withWorker.step (.call (.kill 3))).map (fun S => ((S.sched.processes 3).state,
      (S.createProcess (some workerParams)).1)) = some (EXITED, 3) := by
    decide +kernel
  obtain ⟨S, hS, hlast⟩ := Option.map_eq_some_iff.mp hend
  rw [Prod.mk.injEq] at hlast
  have hcreate : booted.Step (.call (.createProcess (some workerParams))) withWorker := rfl
  have hrun : Reaches Step killsErasable booted S := by
    refine ((Reaches.refl _).tail (fun p hkills => hkills.elim) hcreate).tail
      (fun p hkills => ?_) hS
    rw [hkills.1]
    exact erasable_worker
  have hall := kill_erases (fun _ => true) (fun _ => true) S hrun
  have hagain : S.createProcess (some workerParams) =
      (3, (S.createProcess (some workerParams)).2) := Prod.ext hlast.2 rfl
  exact ⟨S, _, hS, by decide +kernel, hall.free 3 (by decide) (by decide) hlast.1, hagain,
    hall.reused _ 3 _ (by decide) (by decide) hagain⟩

/-- **A process that sleeps in `semWait` stays in the waiting queue** when it is
killed. -/
theorem kill_leaves_waiter : ¬∀ nodes blocks S,
    Reaches Step always (boot nodes blocks) S → S.ReferencesErased always := by
  intro hall
  obtain ⟨S, hS⟩ := Option.isSome_iff_exists.mp (by decide +kernel :
    (exec step booted workerSleeps).isSome)
  obtain ⟨S', hS'⟩ := Option.isSome_iff_exists.mp (by decide +kernel :
    ((exec step booted workerSleeps).bind fun S => S.step (.call (.kill 3))).isSome)
  have hbefore : (exec step booted workerSleeps).map (fun S => (S.sched.processes 3).state) =
      some BLOCKED := by
    decide +kernel
  have hafter : ((exec step booted workerSleeps).bind fun S => S.step (.call (.kill 3))).map
      (fun S => (S.sems.sems 3).waiting) = some (.queue [3]) := by
    decide +kernel
  rw [hS'] at hafter
  rw [hS] at hbefore hS'
  simp only [Option.map_some, Option.some.injEq, Option.bind_some] at *
  have herased := (hall _ _ S (exec_always hS fun _ _ _ => trivial)).killed 3 S'
    ⟨rfl, by decide, by decide, by rw [hbefore]; decide⟩ trivial hS'
  exact herased.waiting 3 [3] hafter (by simp)

end Machine

end BareKernel.Kernel
