import BareKernel.Kernel.ReadyProcesses

/-!
# The idle process

`init` is the process that runs when no other can. Nothing in the scheduler says so: it
follows from the priority 1, which no other process may then have, and from the aging that
leaves PID 1 out. What sets PID 1 apart is one invariant of the ready queues.
-/

namespace BareKernel.Kernel

open ProcessState Runs

namespace Sched

variable {s s' : Sched} {p q c i j : ℤ} {b : Process} {temp : List ℤ} {m : ℕ}

/-! ## What sets PID 1 apart -/

/-- The lowest priority is that of PID 1, and of nobody else. -/
structure Placed (p : ℤ) (b : Process) : Prop where
  priority : b.priority.toNat = 1 ↔ p = initPid
  originalPriority : b.originalPriority.toNat = 1 ↔ p = initPid

/-- PID 1 has the lowest queue for itself, and whoever is ready stands in a queue. -/
structure Apart (s : Sched) : Prop where
  nodes : ∀ n, s.nodes n = true
  placed : ∀ p, ((s.processes p).state ≠ EXITED ∨ ∃ i, p ∈ s.priorityQueues i) →
    Placed p (s.processes p)
  low : ∀ i, ∀ p ∈ s.priorityQueues i, i = 0 ↔ p = initPid
  ready : ∀ p, (s.processes p).state = READY → s.InQueues p

theorem Placed.congr (h : Placed p b) {b' : Process} (hpriority : b'.priority = b.priority)
    (horiginal : b'.originalPriority = b.originalPriority) : Placed p b' := by
  constructor
  · rw [hpriority]
    exact h.priority
  · rw [horiginal]
    exact h.originalPriority

theorem queueIndex_zero (hgraded : Graded b) : queueIndex b = 0 ↔ b.priority.toNat = 1 := by
  have hrange := checkPriority_iff.mp hgraded.priority
  unfold queueIndex
  omega

/-- Aging raises nobody to the lowest priority, and nobody else has it. -/
theorem Placed.age (h : Placed p b) (hgraded : Graded b) (hp : p ≠ initPid) :
    Placed p (age b) := by
  constructor
  · refine iff_of_false ?_ hp
    by_cases hboost : b.agingCounter + 1 ≥ agingThreshold ∧ b.priority < maxPriority
    · have horiginal := checkPriority_iff.mp hgraded.originalPriority
      have hne : b.originalPriority.toNat ≠ 1 := fun heq => hp (h.originalPriority.mp heq)
      rcases age_high hgraded hboost with hfive | ⟨-, -, hvalue⟩
      · rw [hfive]
        decide
      · rw [hvalue, age_originalPriority]
        omega
    · rw [age_low hboost]
      exact fun heq => hp (h.priority.mp heq)
  · rw [age_originalPriority]
    exact h.originalPriority

theorem Placed.iterate (hp : p ≠ initPid) : ∀ {m : ℕ} {b : Process}, Placed p b → Graded b →
    b.state ≠ RUNNING → Placed p (Sched.age^[m] b)
  | 0, _, h, _, _ => h
  | m + 1, b, h, hgraded, hrun => by
      rw [Function.iterate_succ_apply]
      apply Placed.iterate hp (h.age hgraded hp) (age_graded hgraded hrun)
      rw [age_state]
      exact hrun

/-! ## Blocks and entries change -/

theorem Apart.of_queues (h : s.Apart) (hnodes : ∀ n, s'.nodes n = true)
    (hprocesses : s'.processes = s.processes) (hqueues : s'.priorityQueues = s.priorityQueues) :
    s'.Apart := by
  constructor
  · exact hnodes
  · rw [hprocesses, hqueues]
    exact h.placed
  · rw [hqueues]
    exact h.low
  · intro p hp
    rw [hprocesses] at hp
    unfold InQueues
    rw [hqueues]
    exact h.ready p hp

/-- A block changes, but neither in its priorities nor to be live or ready. -/
theorem Apart.setBlock (h : s.Apart) (hpriority : b.priority = (s.processes q).priority)
    (horiginal : b.originalPriority = (s.processes q).originalPriority)
    (hready : b.state = READY → (s.processes q).state = READY)
    (hlive : b.state ≠ EXITED → (s.processes q).state ≠ EXITED) : (s.setProcess q b).Apart := by
  refine ⟨h.nodes, fun p hp => ?_, h.low, fun p hp => ?_⟩ <;> by_cases heq : p = q
  · subst heq
    rw [setProcess_self] at hp ⊢
    exact (h.placed p (hp.imp_left hlive)).congr hpriority horiginal
  · rw [setProcess_of_ne heq] at hp ⊢
    exact h.placed p hp
  · subst heq
    rw [setProcess_self] at hp
    exact h.ready p (hready hp)
  · rw [setProcess_of_ne heq] at hp
    exact h.ready p hp

/-- A process whose block is new, or ready again, gets into the queue of its priority. -/
theorem Apart.enter (h : s.Apart) (hgraded : Graded b) (hplaced : Placed q b) :
    ((s.setProcess q b).schedule q).Apart := by
  have hself : (s.setProcess q b).processes q = b := setProcess_self
  refine ⟨schedule_nodes h.nodes, fun p hp => ?_, fun i p hp => ?_, fun p hp => ?_⟩
  · rw [schedule_processes] at hp ⊢
    by_cases heq : p = q
    · subst heq
      rw [hself]
      exact hplaced
    · rw [setProcess_of_ne heq] at hp ⊢
      apply h.placed p
      refine hp.imp_right ?_
      rintro ⟨i, hi⟩
      rcases mem_schedule_level hi with hmem | ⟨rfl, -⟩
      · exact ⟨i, hmem⟩
      · exact absurd rfl heq
  · rcases mem_schedule_level hp with hmem | ⟨rfl, rfl⟩
    · exact h.low i p hmem
    · rw [hself, queueIndex_zero hgraded]
      exact hplaced.priority
  · rw [schedule_processes] at hp
    by_cases heq : p = q
    · subst heq
      have hcheck : checkPriority ((s.setProcess p b).processes p).priority := by
        rw [hself]
        exact hgraded.priority
      exact (inQueues_schedule hcheck).mpr (.inl (h.nodes 0))
    · rw [setProcess_of_ne heq] at hp
      exact InQueues.schedule (h.ready p hp)

theorem Apart.unblockProcess (h : s.Apart) (hranked : s.Ranked) :
    (s.unblockProcess p).2.Apart := by
  rcases unblockProcess_cases (s := s) with heq | ⟨_, _, hblocked, heq⟩ <;> rw [heq]
  · exact h
  · have hlive : (s.processes p).state ≠ EXITED ∨ ∃ i, p ∈ s.priorityQueues i := by
      rw [hblocked]
      exact .inl (by decide)
    exact h.enter ((hranked p hlive).congr rfl rfl rfl fun hrun => absurd hrun (by simp))
      ((h.placed p hlive).congr rfl rfl)

/-! ## The aging pass -/

/-- **Aging one queue** leaves PID 1 where it is, and gets nobody to it. -/
theorem ageQueue_apart (h : s.Apart) (hranked : s.Ranked)
    (hrun : ∀ p, (s.processes p).state ≠ RUNNING) (hi : i ∈ levels) : (s.ageQueue i).Apart := by
  have hplaced : ∀ p, ((s.processes p).state ≠ EXITED ∨ ∃ i, p ∈ s.priorityQueues i) →
      Placed p (s.visited i p) := by
    intro p hp
    unfold visited
    split
    · exact h.placed p hp
    · rename_i hother
      rw [not_or] at hother
      exact (h.placed p hp).iterate hother.1 (hranked p hp) (hrun p)
  by_cases hproc : s.Processed i
  · refine ⟨fun n => ?_, fun p hp => ?_, fun j p hp => ?_, fun p hp => ?_⟩
    · rw [ageQueue_nodes]
      exact h.nodes _
    · rw [ageQueue_processes hproc]
      apply hplaced p
      refine hp.imp (fun hlive => ?_) ?_
      · rwa [ageQueue_aged.state] at hlive
      · rintro ⟨j, hj⟩
        obtain ⟨k, _, hk⟩ := mem_ageQueue hj
        exact ⟨k, hk⟩
    · rw [ageQueue_queues hproc fun n _ => h.nodes n] at hp
      rcases List.mem_append.mp hp with hstays | hmoves
      · split at hstays
        · exact absurd hstays List.not_mem_nil
        · exact h.low j p hstays
      · obtain ⟨hmem, hindex⟩ := List.mem_filter.mp hmoves
        have hqueued : (s.processes p).state ≠ EXITED ∨ ∃ i, p ∈ s.priorityQueues i :=
          .inr ⟨i, hmem⟩
        have hgraded : Graded (s.visited i p) := by
          rw [← ageQueue_processes hproc]
          exact ageQueue_graded hrun hranked p hqueued
        rw [← of_decide_eq_true hindex, queueIndex_zero hgraded]
        exact (hplaced p hqueued).priority
    · rw [ageQueue_aged.state] at hp
      exact (ageQueue_served hranked hrun hi fun n _ => h.nodes n).mpr (h.ready p hp)
  · rw [ageQueue_skipped hproc]
    exact h.of_queues h.nodes rfl rfl

theorem applyAging_apart (h : s.Apart) (hranked : s.Ranked)
    (hrun : ∀ p, (s.processes p).state ≠ RUNNING) : s.applyAging.Apart := by
  have hall : ∀ (is : List ℤ) {s : Sched}, (∀ i ∈ is, i ∈ levels) → s.Apart → s.Ranked →
      (∀ p, (s.processes p).state ≠ RUNNING) → (is.foldl ageQueue s).Apart := by
    intro is
    induction is with
    | nil => exact fun _ h _ _ => h
    | cons i is ih =>
        intro s hlevels h hranked hrun
        apply ih fun j hj => hlevels j (List.mem_cons_of_mem _ hj)
        · exact ageQueue_apart h hranked hrun (hlevels i List.mem_cons_self)
        · exact ageQueue_ranked hranked hrun
        · intro p
          rw [ageQueue_aged.state]
          exact hrun p
  exact hall levels (fun _ hi => hi) h hranked hrun

/-! ## The context switch -/

theorem park_apart (h : s.Apart) (hranked : s.Ranked) : (s.park c).Apart := by
  unfold park
  split
  · rename_i hrun
    have hlive : (s.processes c).state ≠ EXITED ∨ ∃ i, c ∈ s.priorityQueues i := by
      rw [hrun]
      exact .inl (by decide)
    have hgraded := hranked c hlive
    have hlow : (s.processes c).agingCounter.toNat < 15 * 2 ^ 31 := by
      rw [hgraded.running hrun]
      decide
    have hplaced := (h.placed c hlive).originalPriority
    exact h.enter ⟨hgraded.originalPriority, hgraded.originalPriority, .inl hlow,
      fun hrun' => absurd hrun' (by simp)⟩ ⟨hplaced, hplaced⟩
  · exact h.of_queues h.nodes rfl rfl
  · exact h.of_queues h.nodes rfl rfl
  · exact h

/-- The process that starts to run needs no entry. -/
theorem dispatch_apart (h : s.Apart) (hnodes : s'.nodes = s.nodes)
    (hprocesses : s'.processes = s.processes)
    (hqueues : ∀ i, ∀ p ∈ s'.priorityQueues i, p ∈ s.priorityQueues i)
    (hq : (s.processes q).state ≠ EXITED ∨ ∃ i, q ∈ s.priorityQueues i)
    (hready : ∀ p ≠ q, (s.processes p).state = READY → s'.InQueues p) : (s'.dispatch q).Apart := by
  refine ⟨fun n => ?_, fun p hp => ?_, fun i p hp => h.low i p (hqueues i p hp), fun p hp => ?_⟩
  · change s'.nodes n = true
    rw [hnodes]
    exact h.nodes n
  · change Placed p ((s'.setProcess q _).processes p)
    by_cases heq : p = q
    · subst heq
      rw [setProcess_self, hprocesses]
      exact (h.placed p hq).congr rfl rfl
    · rw [setProcess_of_ne heq, hprocesses]
      apply h.placed p
      refine hp.imp (fun hlive => ?_) fun ⟨i, hi⟩ => ⟨i, hqueues i p hi⟩
      change ((s'.setProcess q _).processes p).state ≠ EXITED at hlive
      rwa [setProcess_of_ne heq, hprocesses] at hlive
  · change ((s'.setProcess q _).processes p).state = READY at hp
    by_cases heq : p = q
    · subst heq
      rw [setProcess_self] at hp
      exact absurd hp (by simp)
    · rw [setProcess_of_ne heq, hprocesses] at hp
      exact hready p heq hp

/-- **A context switch keeps PID 1 apart.** -/
theorem switchContext_apart (h : s.Apart) (hranked : s.Ranked) (halone : s.Alone) :
    s.switchContext.Apart := by
  unfold switchContext
  split
  · split
    · exact h
    · rename_i first s' hsome
      obtain ⟨i, hi, rest, hq, rfl⟩ := unschedule_some hsome
      have hmem : first ∈ s.priorityQueues i := by
        rw [hq]
        exact List.mem_cons_self
      refine @dispatch_apart s (s.setQueue i rest) first h rfl rfl
        (fun j p hp => mem_setQueue_tail hq hp) (.inr ⟨i, hmem⟩) fun p hne hp => ?_
      obtain ⟨j, hj, hmem'⟩ := h.ready p hp
      refine ⟨j, hj, ?_⟩
      change p ∈ Function.update s.priorityQueues i rest j
      by_cases hji : j = i
      · subst hji
        rw [hq] at hmem'
        rw [Function.update_self]
        exact (List.mem_cons.mp hmem').resolve_left hne
      · rwa [Function.update_of_ne hji]
  · rename_i c hc
    split
    · exact h.of_queues h.nodes rfl rfl
    · have haged := applyAging_apart (park_apart (c := c) h hranked) (park_ranked hranked)
        (park_state_ne halone hc)
      generalize (s.park c).applyAging = aged at *
      dsimp only
      have hkeeps : ∀ p, (aged.processes p).state = READY →
          (nextProcess (aged.queuedCount + 1) aged).currentProcess ≠ some p →
            (nextProcess (aged.queuedCount + 1) aged).InQueues p := by
        intro p hp
        exact nextProcess_keeps (haged.ready p hp) (by rw [hp]; decide) (by rw [hp]; decide)
      split
      · rename_i hnone
        refine ⟨fun n => ?_, fun p hp => ?_, fun i p hp => haged.low i p (mem_nextProcess hp),
          fun p hp => ?_⟩
        · rw [nextProcess_nodes]
          exact haged.nodes n
        · rw [nextProcess_processes] at hp ⊢
          exact haged.placed p (hp.imp_right fun ⟨i, hi⟩ => ⟨i, mem_nextProcess hi⟩)
        · rw [nextProcess_processes] at hp
          exact hkeeps p hp (by rw [hnone]; simp)
      · rename_i first hfirst
        have hdispatch := dispatch_apart (q := first) haged nextProcess_nodes nextProcess_processes
          (fun i p hp => mem_nextProcess hp) (.inr (nextProcess_some hfirst).1) fun p hne hp =>
            hkeeps p hp fun heq => hne (Option.some.inj (heq.symm.trans hfirst))
        exact hdispatch.of_queues hdispatch.nodes rfl rfl

/-- **PID 1 gets the CPU only when nobody else is ready.** -/
theorem switchContext_idle (h : s.Apart) (hranked : s.Ranked) (halone : s.Alone)
    (hleaves : ∀ c, s.currentProcess = some c → s.Leaves c)
    (hidle : s.switchContext.currentProcess = some initPid) (hp : p ≠ initPid) :
    (s.switchContext.processes p).state ≠ READY := by
  -- an entry of another process stands higher than those of PID 1
  have habove : ∀ {t : Sched}, t.Apart → (t.processes p).state = READY →
      ∃ j ∈ levels, 0 < j ∧ p ∈ t.priorityQueues j := by
    intro t ht hready
    obtain ⟨j, hj, hmem⟩ := ht.ready p hready
    have hne : j ≠ 0 := fun hzero => hp ((ht.low j p hmem).mp hzero)
    refine ⟨j, hj, ?_, hmem⟩
    simp only [levels, List.mem_cons, List.not_mem_nil, or_false] at hj
    omega
  cases hc : s.currentProcess with
  | none =>
      unfold switchContext at hidle ⊢
      rw [hc] at hidle ⊢
      dsimp only at hidle ⊢
      split at hidle
      · rw [hc] at hidle
        exact absurd hidle (by simp)
      · rename_i first s' hsome
        obtain ⟨i, hi, rest, hq, rfl, hempty⟩ := unschedule_top hsome
        obtain rfl : first = initPid := Option.some.inj hidle
        change (((s.setQueue i rest).setProcess initPid _).processes p).state ≠ READY
        rw [setProcess_of_ne hp]
        intro hready
        obtain ⟨j, hj, hpos, hmem⟩ := habove h hready
        have hzero : i = 0 := (h.low i initPid (by rw [hq]; exact List.mem_cons_self)).mpr rfl
        rw [hempty j hj (by omega)] at hmem
        exact absurd hmem List.not_mem_nil
  | some c =>
      have haged := applyAging_apart (park_apart (c := c) h hranked) (park_ranked hranked)
        (park_state_ne halone hc)
      rw [switchContext_leaves (hleaves c hc)] at hidle ⊢
      generalize (s.park c).applyAging = aged at *
      split at hidle
      · rename_i hnone
        rw [hnone] at hidle
        exact absurd hidle (by simp)
      · rename_i first hfirst
        obtain rfl : first = initPid := Option.some.inj hidle
        obtain ⟨k, pre, rest, hfound⟩ := nextProcess_found hfirst
        change
          (((nextProcess (aged.queuedCount + 1) aged).setProcess initPid _).processes p).state ≠
          READY
        rw [setProcess_of_ne hp, nextProcess_processes]
        intro hready
        obtain ⟨j, hj, hpos, hmem⟩ := habove haged hready
        have hin : initPid ∈ aged.priorityQueues k := by
          rw [hfound.queue]
          exact List.mem_append_right _ List.mem_cons_self
        have hzero : k = 0 := (haged.low k initPid hin).mpr rfl
        have hstale := (hfound.above j hj (by omega)).1 p hmem
        unfold Stale at hstale
        rw [hready] at hstale
        exact absurd hstale (by decide)

/-- A switch to a process that had not got the CPU takes it from whoever had. -/
theorem leaves_of_moved (h : s.switchContext.currentProcess = some p)
    (hbefore : s.currentProcess ≠ some p) : ∀ c, s.currentProcess = some c → s.Leaves c := by
  intro c hc
  refine ⟨hc, fun hstays => ?_⟩
  have hsame : s.switchContext = { s with quantumsLeft := s.quantumsLeft - 1 } := by
    unfold switchContext
    rw [hc]
    exact if_pos hstays
  rw [hsame] at h
  exact hbefore h

/-- A process blocks itself: the state in which it calls `switchContext`. -/
theorem blocked_apart (h : s.Apart) (hranked : s.Ranked) (hsound : s.Sound)
    (hc : s.currentProcess = some c) (hvalid : s.isValidPID p) (isYield : Bool) :
    ({ s.setState p BLOCKED with isYield := isYield } : Sched).Apart ∧
      ({ s.setState p BLOCKED with isYield := isYield } : Sched).Ranked ∧
        ({ s.setState p BLOCKED with isYield := isYield } : Sched).Alone := by
  have hlive := (isValidPID_iff.mp hvalid).2.2
  have hset : (s.setState p BLOCKED).Apart :=
    h.setBlock rfl rfl (fun hready => absurd hready (by simp)) fun _ => hlive
  have hranks : (s.setState p BLOCKED).Ranked :=
    hranked.setBlock rfl rfl rfl (fun hrun => absurd hrun (by simp)) fun _ => hlive
  exact ⟨hset.of_queues hset.nodes rfl rfl, hranks.congr rfl rfl,
    (hsound.setState p BLOCKED hc (by decide)).alone⟩

theorem blockProcess_apart (h : s.Apart) (hranked : s.Ranked) (hsound : s.Sound)
    (hc : s.currentProcess = some c) (hvalid : s.isValidPID p) : (s.blockProcess p).2.Apart := by
  rw [blockProcess_of_valid hvalid]
  split
  · obtain ⟨hflag, hranks, halone⟩ := blocked_apart h hranked hsound hc hvalid true
    exact switchContext_apart hflag hranks halone
  · obtain ⟨hflag, -, -⟩ := blocked_apart h hranked hsound hc hvalid s.isYield
    exact hflag

theorem blockProcess_idle (h : s.Apart) (hranked : s.Ranked) (hsound : s.Sound)
    (hc : s.currentProcess = some c) (hvalid : s.isValidPID p)
    (hbefore : s.currentProcess ≠ some initPid)
    (hidle : (s.blockProcess p).2.currentProcess = some initPid) (hq : q ≠ initPid) :
    ((s.blockProcess p).2.processes q).state ≠ READY := by
  rw [blockProcess_of_valid hvalid] at hidle ⊢
  split at hidle
  · rename_i hself
    rw [if_pos hself]
    obtain ⟨hflag, hranks, halone⟩ := blocked_apart h hranked hsound hc hvalid true
    exact switchContext_idle hflag hranks halone (leaves_of_moved hidle hbefore) hidle hq
  · exact absurd hidle hbefore

end Sched

namespace Machine

variable {S S' : Machine} {a : Act} {e : Event} {c p : ℤ} {blocks : ℕ → Bool}

/-! ## Every step keeps PID 1 apart -/

/-- **Every action keeps PID 1 apart**, but for those that set a priority. -/
theorem apart_does (hbase : S.Base) (hranked : S.sched.Ranked) (h : S.sched.Apart)
    (hcreate : ∀ p, a ≠ .create p) (hpriority : ∀ p, a ≠ .priority p) (hd : S.Does a S') :
    S'.sched.Apart := by
  cases hd with
  | @switch isYield =>
      have hflag : ({ S.sched with isYield := isYield } : Sched).Apart :=
        h.of_queues h.nodes rfl rfl
      exact Sched.switchContext_apart hflag (hranked.congr rfl rfl) hbase.sound.alone
  | blocks => exact h.of_queues h.nodes rfl rfl
  | block hc _ hvalid => exact Sched.blockProcess_apart h hranked hbase.sound hc hvalid
  | unblock => exact h.unblockProcess hranked
  | create => exact absurd rfl (hcreate _)
  | returned => exact h.setBlock rfl rfl id id
  | @kill c q stage hc hq halive =>
      have hset : (S.sched.setProcess q
          { S.sched.processes q with state := EXITED, argc := 0 }).Apart :=
        h.setBlock rfl rfl (fun hready => absurd hready (by simp)) fun habs => absurd rfl habs
      refine ⟨hset.nodes, fun p hp => ?_, fun i p hp => h.low i p (Sched.mem_unscheduleProcess hp),
        fun p hp => ?_⟩
      · exact hset.placed p (hp.imp_right fun ⟨i, hi⟩ => ⟨i, Sched.mem_unscheduleProcess hi⟩)
      · obtain ⟨i, hi, hmem⟩ := hset.ready p hp
        refine ⟨i, hi, ?_⟩
        change p ∈ if i ∈ Sched.levels then (S.sched.priorityQueues i).erase q
          else S.sched.priorityQueues i
        rw [if_pos hi]
        have hne : p ≠ q := by
          rintro rfl
          change ((S.sched.setProcess p _).processes p).state = READY at hp
          rw [Sched.setProcess_self] at hp
          exact absurd hp (by simp)
        exact (List.mem_erase_of_ne hne).mpr hmem
  | killWake =>
      unfold Machine.killWake
      dsimp only
      split
      · exact h
      · exact (h.unblockProcess hranked).setBlock rfl rfl id id
  | priority => exact absurd rfl (hpriority _)
  | @waitBlock q target wstatus hc hf htarget halive =>
      have hset : (S.sched.setProcess target
          { S.sched.processes target with waitPid := q }).Apart := h.setBlock rfl rfl id id
      have hranks : (S.sched.setProcess target
          { S.sched.processes target with waitPid := q }).Ranked :=
        hranked.setBlock rfl rfl rfl id id
      have hsound : (S.sched.setProcess target
          { S.sched.processes target with waitPid := q }).Sound := hbase.sound.setProcess hc id
      exact Sched.blockProcess_apart hset hranks hsound hc (waitFor_valid hbase hc hf target)
  | @sleep q semId k hc hf hvalue hwaiting hin =>
      have hsound := (hbase.enlist q semId).sound
      have hvalid := enlist_valid hbase hc hf semId
      rcases enlist_sched S q semId with heq | heq
      · change ((S.enlist q semId).sched.blockProcess q).2.Apart
        rw [heq] at hsound hvalid ⊢
        exact Sched.blockProcess_apart h hranked hsound hc hvalid
      · change ((S.enlist q semId).sched.blockProcess q).2.Apart
        rw [heq] at hsound hvalid ⊢
        exact Sched.blockProcess_apart (h.of_queues (fun n => h.nodes (n + 1)) rfl rfl)
          (hranked.congr rfl rfl) hsound hc hvalid
  | wake => exact h.unblockProcess hranked
  | semCreate => exact h.of_queues h.nodes rfl rfl
  | _ => exact h

/-! ## Every run keeps PID 1 apart -/

/-- The calls that set a priority keep the lowest one to PID 1. -/
def keepsLowest : Machine → Event → Prop
  | _, .call (.createProcess (some params)) => params.priority ≠ minPriority
  | _, .call (.changePriority pid priority) => priority = minPriority ↔ pid = initPid
  | _, _ => True

/-- The state between two steps. -/
structure Idling (S : Machine) : Prop where
  base : S.Base
  ranked : S.sched.Ranked
  apart : S.sched.Apart
  live : (S.sched.processes initPid).state ≠ EXITED

theorem toNat_minPriority {n : UInt32} : n.toNat = 1 ↔ n = minPriority :=
  UInt32.toNat_inj (b := minPriority)

theorem Idling.does (h : S.Idling) (hcreate : ∀ p, a ≠ .create p)
    (hpriority : ∀ p, a ≠ .priority p) (hd : S.Does a S') : S'.Idling := by
  refine ⟨h.base.does hd, ranked_does h.base h.ranked hd,
    apart_does h.base h.ranked h.apart hcreate hpriority hd, ?_⟩
  by_cases hkill : a = .kill initPid
  · subst hkill
    cases hd with
    | kill _ hpid _ => exact absurd hpid.1 (lt_irrefl _)
  · exact fun hexited => h.live ((hd.exited h.base (hcreate _) hkill).mp hexited)

/-- A process with another priority than the lowest is created. -/
theorem createProcess_apart (h : S.sched.Apart) (params : Option CreationParameters)
    (hlive : (S.sched.processes initPid).state ≠ EXITED)
    (hparams : ∀ given, params = some given → given.priority ≠ minPriority) :
    (S.createProcess params).2.sched.Apart := by
  rcases createProcess_cases S params with
    ⟨outcomes, heq⟩ | ⟨given, name, pid, outcomes, hgiven, hpriority, hpid, heq⟩ <;> rw [heq]
  · exact h.of_queues h.nodes rfl rfl
  · have hne : pid ≠ initPid := by
      rintro rfl
      exact hlive (getFreeProcess_some hpid).2
    have hplaced : given.priority.toNat = 1 ↔ pid = initPid := by
      rw [toNat_minPriority]
      exact iff_of_false (hparams given hgiven) hne
    have hblocks : ({ S.sched with blocks := outcomes } : Sched).Apart :=
      h.of_queues h.nodes rfl rfl
    have hgraded : Sched.Graded (newProcess (S.sched.processes pid) name given) :=
      ⟨hpriority, hpriority, .inl (show (0 : UInt64).toNat < _ by decide),
        fun hrun => absurd hrun (by simp [newProcess])⟩
    exact hblocks.enter hgraded ⟨hplaced, hplaced⟩

/-- Creating a process keeps the processes sound and their priorities in range. -/
theorem createProcess_ranked (hbase : S.Base) (hranked : S.sched.Ranked)
    (params : Option CreationParameters)
    (hrun : ∀ c, S.sched.currentProcess = some c → (S.sched.processes c).state ≠ EXITED) :
    (S.createProcess params).2.Base ∧ (S.createProcess params).2.sched.Ranked :=
  (createProcess_path _ hrun).invariant (I := fun M => M.Base ∧ M.sched.Ranked) ⟨hbase, hranked⟩
    fun _ _ _ hM _ hd => ⟨hM.1.does hd, ranked_does hM.1 hM.2 hd⟩

theorem Idling.createProcess (h : S.Idling) (params : Option CreationParameters)
    (hrun : ∀ c, S.sched.currentProcess = some c → (S.sched.processes c).state ≠ EXITED)
    (hparams : ∀ given, params = some given → given.priority ≠ minPriority) :
    (S.createProcess params).2.Idling := by
  obtain ⟨hbase, hranked⟩ := createProcess_ranked h.base h.ranked params hrun
  refine ⟨hbase, hranked, createProcess_apart h.apart params h.live hparams, ?_⟩
  rcases createProcess_cases S params with
    ⟨outcomes, heq⟩ | ⟨given, name, pid, outcomes, -, -, hpid, heq⟩ <;> rw [heq]
  · exact h.live
  · have hne : initPid ≠ pid := by
      rintro rfl
      exact h.live (getFreeProcess_some hpid).2
    simp only [note_sched, setFrame_sched, onSched_sched, Sched.schedule_processes]
    rw [Sched.setProcess_of_ne hne]
    exact h.live

theorem changePriority_apart (h : S.sched.Apart) {pid : ℤ} {priority : UInt32}
    (hpriority : priority = minPriority ↔ pid = initPid) :
    (S.sched.setProcess pid { S.sched.processes pid with
      priority := priority, originalPriority := priority, agingCounter := 0 }).Apart := by
  refine ⟨h.nodes, fun p hp => ?_, h.low, fun p hp => ?_⟩ <;> by_cases heq : p = pid
  · subst heq
    rw [Sched.setProcess_self]
    exact ⟨toNat_minPriority.trans hpriority, toNat_minPriority.trans hpriority⟩
  · rw [Sched.setProcess_of_ne heq] at hp ⊢
    exact h.placed p hp
  · subst heq
    rw [Sched.setProcess_self] at hp
    exact h.ready p hp
  · rw [Sched.setProcess_of_ne heq] at hp
    exact h.ready p hp

/-- **Every step keeps PID 1 apart**, if the calls do, up to a switch at its end. -/
theorem Idling.ends (h : S.Idling) (hok : S.keepsLowest e) (hstep : S.Step e S') : ∃ M : Machine,
    M.Idling ∧ M.sched.currentProcess = S.sched.currentProcess ∧
      (S' = M ∨ ∃ a, ¬a.quiet ∧ M.Does a S') := by
  by_cases hcreate : ∃ params, e = .call (.createProcess params)
  · obtain ⟨params, rfl⟩ := hcreate
    obtain ⟨c, hc, hf, hcall⟩ := step_call hstep
    obtain rfl := Option.some.inj hcall
    refine ⟨_, h.createProcess params ?_ ?_, createProcess_currentProcess S params, .inl rfl⟩
    · intro c' hc'
      obtain rfl : c = c' := Option.some.inj (hc.symm.trans hc')
      rw [h.base.running hc fun stage => by rw [hf]; simp]
      decide
    · rintro given rfl
      exact hok
  by_cases hpriority : ∃ pid priority, e = .call (.changePriority pid priority)
  · obtain ⟨pid, priority, rfl⟩ := hpriority
    obtain ⟨c, hc, hf, hcall⟩ := step_call hstep
    obtain rfl := Option.some.inj hcall
    unfold changeProccessPriority
    split
    · exact ⟨S, h, rfl, .inl rfl⟩
    · rename_i hrefused
      rw [not_or] at hrefused
      dsimp only
      split
      · exact ⟨S, h, rfl, .inl rfl⟩
      · have hset : (S.onSched fun s => s.setProcess pid { s.processes pid with
            priority := priority, originalPriority := priority, agingCounter := 0 }).Idling := by
          have hdoes : S.Does (.priority pid) (S.onSched fun s => s.setProcess pid
              { s.processes pid with
                priority := priority, originalPriority := priority, agingCounter := 0 }) :=
            .priority hc (by simpa using hrefused.2)
          refine ⟨h.base.does hdoes, ranked_does h.base h.ranked hdoes,
            changePriority_apart h.apart hok, ?_⟩
          exact fun hexited => h.live ((hdoes.exited h.base (by simp) (by simp)).mp hexited)
        split
        · exact ⟨_, hset, rfl, .inr ⟨.switch true, id, .switch⟩⟩
        · exact ⟨_, hset, rfl, .inl rfl⟩
  · obtain ⟨M, hpath, hlast⟩ := step_ends h.base hstep
    have hmiddle := hpath.invariant (I := fun M => M.Idling ∧
      M.sched.currentProcess = S.sched.currentProcess) ⟨h, rfl⟩ fun M a M' hM ha hd =>
        ⟨hM.1.does
          (fun p heq => by
            rw [heq] at ha
            exact hcreate ha.1)
          (fun p heq => by
            rw [heq] at ha
            obtain ⟨priority, rfl⟩ := ha.1
            exact hpriority ⟨p, priority, rfl⟩) hd, (hd.quiet_current ha.2).trans hM.2⟩
    refine ⟨M, hmiddle.1, hmiddle.2, hlast.imp_right ?_⟩
    rintro ⟨a, -, hswitches, hd⟩
    exact ⟨a, hswitches, hd⟩

theorem Idling.step (h : S.Idling) (hok : S.keepsLowest e) (hstep : S.Step e S') : S'.Idling := by
  obtain ⟨M, hM, -, rfl | ⟨a, hswitches, hd⟩⟩ := h.ends hok hstep
  · exact hM
  · apply hM.does ?_ ?_ hd <;> rintro p rfl <;> exact hswitches trivial

/-- When every allocation succeeds, the first free slot is filled. -/
theorem createProcess_served {given : CreationParameters} {name : List UInt8} {pid : ℤ} {s : Sched}
    (hname : given.name = some name)
    (hcheck : ¬((!checkPriority given.priority) = true ∨ given.argc < 0 ∨ given.entryPoint = 0 ∨
      (!checkName given.name) = true))
    (hblocks : S.sched.allocBlocks (neededBlocks given) = (true, s))
    (hfree : S.getFreeProcess = some pid) : S.createProcess (some given) = (pid,
      ((S.onSched fun _ => (s.setProcess pid (newProcess (s.processes pid) name given)).schedule
        pid).setFrame pid .user).note (.created pid)) := by
  unfold createProcess
  simp only [hname] at hcheck ⊢
  rw [if_neg hcheck, hblocks]
  dsimp only
  rw [hfree]
  rfl

/-- Boot makes PID 1, if the heap holds its stack. -/
theorem idling_boot (hstack : blocks 0 = true) : (boot (fun _ => true) blocks).Idling := by
  have hoff : (off (fun _ => true) blocks).sched.dropBlock.Apart := by
    refine ⟨fun _ => rfl, fun p hp => ?_, fun i p hp => absurd hp List.not_mem_nil,
      fun p hp => absurd hp (by simp [off, emptyProcess, Sched.dropBlock])⟩
    rcases hp with halive | ⟨i, hi⟩
    · exact absurd rfl halive
    · exact absurd hi List.not_mem_nil
  have hblocks : (off (fun _ => true) blocks).sched.allocBlocks (neededBlocks initParams) =
      (true, (off (fun _ => true) blocks).sched.dropBlock) := if_pos hstack
  have hinit :=
    createProcess_served (S := off (fun _ => true) blocks) (show initParams.name = some _ from rfl)
    (by decide) hblocks (show _ = some initPid from rfl)
  have hnone : ∀ {S : Machine}, S.sched.currentProcess = none →
      ∀ c, S.sched.currentProcess = some c → (S.sched.processes c).state ≠ EXITED := by
    intro S hS c hc
    rw [hS] at hc
    exact absurd hc (by simp)
  have hranked : (off (fun _ => true) blocks).sched.Ranked := by
    rintro p (halive | ⟨i, hi⟩)
    · exact absurd rfl halive
    · exact absurd hi List.not_mem_nil
  have hfirst : ((off (fun _ => true) blocks).createProcess (some initParams)).2.Idling := by
    obtain ⟨hbase, hranked⟩ := createProcess_ranked base_off hranked (some initParams) (hnone rfl)
    refine ⟨hbase, hranked, ?_, ?_⟩ <;> rw [hinit]
    · have hgraded : Sched.Graded (newProcess emptyProcess [105, 110, 105, 116] initParams) :=
        ⟨by decide, by decide, .inl (by decide), fun hrun => absurd hrun (by simp [newProcess])⟩
      exact hoff.enter (q := initPid) hgraded ⟨by decide, by decide⟩
    · simp [newProcess]
  have hshell := hfirst.createProcess (some shellParams) (hnone
    ((createProcess_currentProcess (off (fun _ => true) blocks) (some initParams)).trans rfl))
    (by rintro _ ⟨⟩; decide)
  exact hshell.does (a := .switch _) (by simp) (by simp) (switch_path _)

/-! ## Who is ready while PID 1 runs -/

/-- The event makes PID 1 give up the CPU while it could go on: the timer ends its time
slice, or it yields. -/
def givesUp (S : Machine) : Event → Prop
  | .tick => S.sched.quantumsLeft = 0 ∨ S.sched.isYield = true
  | .resume => (∃ target wstatus, S.frames initPid = .waitBlock target wstatus) ∧
      (S.sched.quantumsLeft = 0 ∨ S.sched.isYield = true)
  | .call .yield => True
  | _ => False

/-- Whenever a step gives the CPU to PID 1, newly or again, nobody else is ready. -/
def OnlyIdle (S : Machine) (e : Event) (S' : Machine) : Prop :=
  S'.sched.currentProcess = some initPid → (S.sched.currentProcess = some initPid → S.givesUp e) →
    ∀ p ≠ initPid, (S'.sched.processes p).state ≠ READY

/-- An action that gives the CPU to PID 1 finds nobody else ready. -/
theorem Idling.does_idle (h : S.Idling) (hd : S.Does a S')
    (hbefore : S.sched.currentProcess ≠ some initPid)
    (hidle : S'.sched.currentProcess = some initPid) (hp : p ≠ initPid) :
    (S'.sched.processes p).state ≠ READY := by
  by_cases hquiet : a.quiet
  · rw [hd.quiet_current hquiet] at hidle
    exact absurd hidle hbefore
  · cases hd with
    | @switch isYield =>
        have hflag : ({ S.sched with isYield := isYield } : Sched).Apart :=
          h.apart.of_queues h.apart.nodes rfl rfl
        exact Sched.switchContext_idle hflag (h.ranked.congr rfl rfl) h.base.sound.alone
          (Sched.leaves_of_moved hidle hbefore) hidle hp
    | block hc _ hvalid =>
        exact Sched.blockProcess_idle h.apart h.ranked h.base.sound hc hvalid hbefore hidle hp
    | @waitBlock q target wstatus hc hf htarget halive =>
        exact Sched.blockProcess_idle (h.apart.setBlock rfl rfl id id)
          (h.ranked.setBlock rfl rfl rfl id id) (h.base.sound.setProcess hc id) hc
          (waitFor_valid h.base hc hf target) hbefore hidle hp
    | @sleep q semId k hc hf hvalue hwaiting hin =>
        have hvalid := enlist_valid h.base hc hf semId
        have hlist : (S.enlist q semId).sched.Apart ∧ (S.enlist q semId).sched.Ranked ∧
            (S.enlist q semId).sched.currentProcess = S.sched.currentProcess := by
          rcases enlist_sched S q semId with heq | heq <;> rw [heq]
          · exact ⟨h.apart, h.ranked, rfl⟩
          · exact ⟨h.apart.of_queues (fun n => h.apart.nodes (n + 1)) rfl rfl,
              h.ranked.congr rfl rfl, rfl⟩
        rw [← hlist.2.2] at hbefore hc
        exact Sched.blockProcess_idle hlist.1 hlist.2.1 (h.base.enlist q semId).sound hc hvalid
          hbefore hidle hp
    | _ => exact absurd trivial hquiet

/-- What switches while PID 1 has the CPU and could go on. -/
theorem Idling.switch_idle (h : S.Idling) {isYield : Bool}
    (hgive : S.sched.quantumsLeft = 0 ∨ isYield = true)
    (hidle : ({ S.sched with isYield := isYield } : Sched).switchContext.currentProcess =
      some initPid) (hp : p ≠ initPid) :
    (({ S.sched with isYield := isYield } : Sched).switchContext.processes p).state ≠ READY := by
  have hflag : ({ S.sched with isYield := isYield } : Sched).Apart :=
    h.apart.of_queues h.apart.nodes rfl rfl
  apply Sched.switchContext_idle hflag (h.ranked.congr rfl rfl) h.base.sound.alone ?_ hidle hp
  intro c hc'
  refine ⟨hc', fun hstays => ?_⟩
  rcases hgive with hover | hyield
  · have hleft : S.sched.quantumsLeft > 0 := hstays.2.1
    rw [hover] at hleft
    exact absurd hleft (by decide)
  · exact hstays.2.2 hyield

/-- **The idle process runs only when nothing else can**, in every run in which the lowest
priority is left to it and every queue node is there. -/
theorem idle_last (blocks : ℕ → Bool) (hstack : blocks 0 = true) (S : Machine)
    (hreach : Reaches Step keepsLowest (boot (fun _ => true) blocks) S) (e : Event)
    (S' : Machine) (hok : S.keepsLowest e) (hstep : S.Step e S') : S.OnlyIdle e S' := by
  have h : S.Idling := hreach.invariant (I := Idling) (idling_boot hstack)
    fun _ _ _ hM hok hstep => hM.step hok hstep
  intro hidle hgives p hp
  by_cases hc : S.sched.currentProcess = some initPid
  · have hgive := hgives hc
    unfold Step step at hstep
    simp only [hc] at hstep
    cases e with
    | tick =>
        dsimp only at hstep
        split at hstep
        · obtain rfl := Option.some.inj hstep
          exact h.switch_idle hgive hidle hp
        · simp at hstep
    | resume =>
        obtain ⟨⟨target, wstatus, hf⟩, hgive⟩ := hgive
        dsimp only at hstep
        rw [hf] at hstep
        obtain rfl := Option.some.inj hstep
        exact h.switch_idle hgive hidle hp
    | exit returnValue => exact hgive.elim
    | call call =>
        cases call with
        | yield =>
            dsimp only at hstep
            split at hstep
            · obtain rfl := Option.some.inj hstep
              exact h.switch_idle (.inr rfl) hidle hp
            · simp at hstep
        | _ => exact hgive.elim
  · obtain ⟨M, hM, hcur, rfl | ⟨a, -, hd⟩⟩ := h.ends hok hstep
    · rw [hcur] at hidle
      exact absurd hidle hc
    · rw [← hcur] at hc
      exact hM.does_idle hd hc hidle hp

/-- The shell waits for a worker, and the worker for the shell. -/
theorem idle_last_deadlock : ∃ S S', exec step booted
    [.call (.createProcess (some workerParams)), .call (.wait 3 true)] = some S ∧
      S.Step (.call (.wait 2 true)) S' ∧ S'.sched.currentProcess = some initPid ∧
        S.OnlyIdle (.call (.wait 2 true)) S' := by
  obtain ⟨S, hS⟩ := Option.isSome_iff_exists.mp (by decide +kernel :
    (exec step booted
      [.call (.createProcess (some workerParams)), .call (.wait 3 true)]).isSome)
  have hrun : ((exec step booted [.call (.createProcess (some workerParams)),
      .call (.wait 3 true)]).bind fun S => (S.step (.call (.wait 2 true))).map fun S' =>
        S'.sched.currentProcess) = some (some initPid) := by
    decide +kernel
  rw [hS] at hrun
  simp only [Option.bind_some, Option.map_eq_some_iff] at hrun
  obtain ⟨S', hstep, hc⟩ := hrun
  refine ⟨S, S', hS, hstep, hc, idle_last _ rfl S (exec_always hS ?_) _ S' trivial hstep⟩
  intro e he s
  simp only [List.mem_cons, List.not_mem_nil, or_false] at he
  rcases he with rfl | rfl
  · show workerParams.priority ≠ minPriority
    decide
  · trivial

/-- A worker that is created with the lowest priority. -/
def lowParams : CreationParameters := { workerParams with priority := minPriority }

/-- **A process of priority 1 shares the queue of PID 1**, which runs before it. -/
theorem idle_shares : ¬∀ blocks : ℕ → Bool, blocks 0 = true → ∀ S,
    Reaches Step always (boot (fun _ => true) blocks) S → ∀ e S', S.Step e S' →
      S.OnlyIdle e S' := by
  intro hall
  obtain ⟨S, hS⟩ := Option.isSome_iff_exists.mp (by decide +kernel :
    (exec step booted [.call (.createProcess (some lowParams))]).isSome)
  have hrun : ((exec step booted [.call (.createProcess (some lowParams))]).bind fun S =>
      (S.step (.call (.wait 3 true))).map fun S' => (S.sched.currentProcess,
        S'.sched.currentProcess, (S'.sched.processes 3).state)) =
          some (some shellPid, some initPid, READY) := by
    decide +kernel
  rw [hS] at hrun
  simp only [Option.bind_some, Option.map_eq_some_iff, Prod.mk.injEq] at hrun
  obtain ⟨S', hstep, hc, hidle, hready⟩ := hrun
  have honly := hall _ rfl S (exec_always hS fun _ _ _ => trivial) _ S' hstep
  refine honly hidle (fun hbefore => ?_) 3 (by decide) hready
  rw [hc] at hbefore
  exact absurd hbefore (by decide)

end Machine

end BareKernel.Kernel
