import BareKernel.Kernel.Selection

/-!
# Whoever is ready stands in a queue

As long as every allocation of a queue node succeeds, no operation of the scheduler loses a process
that is ready. A process that sleeps or is over may still have an entry, so the converse does not
hold.
-/

namespace BareKernel.Kernel

open ProcessState Runs

namespace Sched

variable {s s' : Sched} {p q c i j : ℤ} {b : Process}

/-! ## Entries of one process -/

theorem mem_schedule_level (h : p ∈ (s.schedule q).priorityQueues i) :
    p ∈ s.priorityQueues i ∨ p = q ∧ i = queueIndex (s.processes q) := by
  unfold schedule at h
  split at h
  · unfold enqueue at h
    dsimp only at h
    change p ∈ Function.update s.priorityQueues _ _ i at h
    by_cases heq : i = queueIndex (s.processes q)
    · subst heq
      rw [Function.update_self] at h
      exact (mem_append h).imp_right fun hp => ⟨hp, rfl⟩
    · rw [Function.update_of_ne heq] at h
      exact .inl h
  · exact .inl h

theorem mem_schedule_of_mem (h : p ∈ s.priorityQueues i) : p ∈ (s.schedule q).priorityQueues i := by
  unfold schedule
  split
  · unfold enqueue
    dsimp only
    change p ∈ Function.update s.priorityQueues _ _ i
    by_cases heq : i = queueIndex (s.processes q)
    · subst heq
      rw [Function.update_self]
      unfold append
      split
      · exact List.mem_append_left _ h
      · exact h
    · rw [Function.update_of_ne heq]
      exact h
  · exact h

theorem InQueues.schedule (h : s.InQueues p) : (s.schedule q).InQueues p := by
  obtain ⟨i, hi, hmem⟩ := h
  exact ⟨i, hi, mem_schedule_of_mem hmem⟩

theorem schedule_nodes (h : ∀ n, s.nodes n = true) (n : ℕ) : (s.schedule q).nodes n = true := by
  unfold schedule
  split
  · exact h (n + 1)
  · exact h n

theorem nextProcess_nodes : ∀ {fuel : ℕ} {s : Sched}, (nextProcess fuel s).nodes = s.nodes
  | 0, _ => rfl
  | fuel + 1, s => by
      unfold nextProcess
      split
      · rfl
      · rename_i first s' hsome
        obtain ⟨i, _, rest, _, rfl⟩ := unschedule_some hsome
        split
        · exact nextProcess_nodes
        · rfl

/-! ## Who is served -/

/-- The heap has a node for every entry, and whoever is ready stands in a queue. -/
structure Served (s : Sched) : Prop where
  nodes : ∀ n, s.nodes n = true
  ready : ∀ p, (s.processes p).state = READY → s.InQueues p

theorem Served.of_queues (h : s.Served) (hnodes : ∀ n, s'.nodes n = true)
    (hprocesses : s'.processes = s.processes) (hqueues : s'.priorityQueues = s.priorityQueues) :
    s'.Served := by
  refine ⟨hnodes, fun p hp => ?_⟩
  rw [hprocesses] at hp
  unfold InQueues
  rw [hqueues]
  exact h.ready p hp

/-- A block changes, and does not become ready. -/
theorem Served.setBlock (h : s.Served)
    (hready : b.state = READY → (s.processes q).state = READY) : (s.setProcess q b).Served := by
  refine ⟨h.nodes, fun p hp => ?_⟩
  by_cases heq : p = q
  · subst heq
    rw [setProcess_self] at hp
    exact h.ready p (hready hp)
  · rw [setProcess_of_ne heq] at hp
    exact h.ready p hp

/-- Whoever becomes ready gets into the queue of its priority. -/
theorem Served.enter (h : s.Served) (hpriority : checkPriority b.priority) :
    ((s.setProcess q b).schedule q).Served := by
  refine ⟨schedule_nodes h.nodes, fun p hp => ?_⟩
  rw [schedule_processes] at hp
  by_cases heq : p = q
  · subst heq
    have hcheck : checkPriority ((s.setProcess p b).processes p).priority := by
      rw [setProcess_self]
      exact hpriority
    exact (inQueues_schedule hcheck).mpr (.inl (h.nodes 0))
  · rw [setProcess_of_ne heq] at hp
    exact InQueues.schedule (h.ready p hp)

theorem Served.unblockProcess (h : s.Served) (hranked : s.Ranked) :
    (s.unblockProcess p).2.Served := by
  rcases unblockProcess_cases (s := s) with heq | ⟨_, _, hblocked, heq⟩ <;> rw [heq]
  · exact h
  · apply h.enter
    exact (hranked p (.inl (by rw [hblocked]; decide))).priority

theorem Served.unscheduleProcess (h : s.Served) (hb : b.state = EXITED) :
    ((s.unscheduleProcess q).setProcess q b).Served := by
  refine ⟨h.nodes, fun p hp => ?_⟩
  have hne : p ≠ q := by
    rintro rfl
    rw [setProcess_self, hb] at hp
    exact absurd hp (by decide)
  rw [setProcess_of_ne hne] at hp
  obtain ⟨i, hi, hmem⟩ := h.ready p hp
  refine ⟨i, hi, ?_⟩
  change p ∈ if i ∈ levels then (s.priorityQueues i).erase q else s.priorityQueues i
  rw [if_pos hi]
  exact (List.mem_erase_of_ne hne).mpr hmem

/-! ## The context switch -/

theorem applyAging_nodes (h : ∀ n, s.nodes n = true) (n : ℕ) : s.applyAging.nodes n = true := by
  have hall : ∀ (is : List ℤ) {s : Sched}, (∀ n, s.nodes n = true) →
      ∀ n, (is.foldl ageQueue s).nodes n = true := by
    intro is
    induction is with
    | nil => exact fun h => h
    | cons i is ih =>
        intro s h
        apply ih
        intro n
        rw [ageQueue_nodes]
        exact h _
  exact hall _ h n

theorem Served.applyAging (h : s.Served) (hranked : s.Ranked)
    (hrun : ∀ p, (s.processes p).state ≠ RUNNING) : s.applyAging.Served := by
  refine ⟨applyAging_nodes h.nodes, fun p hp => ?_⟩
  rw [applyAging_aged.state] at hp
  exact (applyAging_served hranked hrun fun n _ => h.nodes n).mpr (h.ready p hp)

theorem Served.park (h : s.Served) (hranked : s.Ranked) : (s.park c).Served := by
  unfold Sched.park
  split
  · rename_i hrun
    apply h.enter
    exact (hranked c (.inl (by rw [hrun]; decide))).originalPriority
  · exact h.of_queues h.nodes rfl rfl
  · exact h.of_queues h.nodes rfl rfl
  · exact h

/-- The process that starts to run needs no entry. -/
theorem Served.dispatch (hnodes : ∀ n, s.nodes n = true)
    (hready : ∀ p ≠ q, (s.processes p).state = READY → s.InQueues p) : (s.dispatch q).Served := by
  refine ⟨hnodes, fun p hp => ?_⟩
  change ((s.setProcess q _).processes p).state = READY at hp
  by_cases heq : p = q
  · subst heq
    rw [setProcess_self] at hp
    exact absurd hp (by simp)
  · rw [setProcess_of_ne heq] at hp
    exact hready p heq hp

/-- **A context switch loses nobody who is ready.** -/
theorem Served.switchContext (h : s.Served) (hranked : s.Ranked) (halone : s.Alone) :
    s.switchContext.Served := by
  unfold Sched.switchContext
  split
  · split
    · exact h
    · rename_i first s' hsome
      obtain ⟨i, hi, rest, hq, rfl⟩ := unschedule_some hsome
      have hnodes : ∀ n, (s.setQueue i rest).nodes n = true := h.nodes
      apply Served.dispatch hnodes
      intro p hne hp
      obtain ⟨j, hj, hmem⟩ := h.ready p hp
      refine ⟨j, hj, ?_⟩
      change p ∈ Function.update s.priorityQueues i rest j
      by_cases hji : j = i
      · subst hji
        rw [hq] at hmem
        rw [Function.update_self]
        exact (List.mem_cons.mp hmem).resolve_left hne
      · rwa [Function.update_of_ne hji]
  · rename_i c hc
    split
    · exact h.of_queues h.nodes rfl rfl
    · have haged := (h.park (c := c) hranked).applyAging (park_ranked hranked)
        (park_state_ne halone hc)
      generalize (s.park c).applyAging = aged at *
      dsimp only
      have hkeeps : ∀ p, (aged.processes p).state = READY →
          (nextProcess (aged.queuedCount + 1) aged).currentProcess ≠ some p →
            (nextProcess (aged.queuedCount + 1) aged).InQueues p := by
        intro p hp
        exact nextProcess_keeps (haged.ready p hp) (by rw [hp]; decide) (by rw [hp]; decide)
      have hnodes : ∀ n, (nextProcess (aged.queuedCount + 1) aged).nodes n = true := by
        rw [nextProcess_nodes]
        exact haged.nodes
      split
      · rename_i hnone
        refine ⟨hnodes, fun p hp => ?_⟩
        rw [nextProcess_processes] at hp
        exact hkeeps p hp (by rw [hnone]; simp)
      · rename_i first hfirst
        have hdispatch := Served.dispatch (q := first) hnodes fun p hne hp =>
          hkeeps p (by rwa [nextProcess_processes] at hp) fun heq =>
            hne (Option.some.inj (heq.symm.trans hfirst))
        exact hdispatch.of_queues hdispatch.nodes rfl rfl

/-- A switch that finds no process has emptied the queues. -/
theorem switchContext_empty (h : s.switchContext.currentProcess = none) (hi : i ∈ levels) :
    s.switchContext.priorityQueues i = [] := by
  have hlevel : i ∈ [4, 3, 2, 1, 0] := by
    simp only [levels, List.mem_cons, List.not_mem_nil, or_false] at hi ⊢
    omega
  unfold Sched.switchContext at h ⊢
  split at h
  · split at h
    · rename_i hnone
      exact unscheduleFrom_none.mp hnone i hlevel
    · exact absurd h (by simp [Sched.dispatch])
  · rename_i c hc
    split at h
    · exact absurd (hc.symm.trans h) (by simp)
    · rename_i hleaves
      rw [if_neg hleaves]
      dsimp only at h ⊢
      split at h
      · rename_i hnone
        exact nextProcess_none (Nat.lt_succ_self _) hnone i hlevel
      · exact absurd h (by simp [Sched.dispatch])

/-- **A switch finds a process** if one is ready or running after it. -/
theorem Served.finds (h : s.switchContext.Served) (halone : s.switchContext.Alone)
    (hawake : (s.switchContext.processes p).state = READY ∨
      (s.switchContext.processes p).state = RUNNING) : s.switchContext.currentProcess ≠ none := by
  intro hnone
  rcases hawake with hready | hrun
  · obtain ⟨i, hi, hmem⟩ := h.ready p hready
    rw [switchContext_empty hnone hi] at hmem
    exact absurd hmem List.not_mem_nil
  · have hc := halone p hrun
    rw [hnone] at hc
    exact absurd hc (by simp)

theorem Served.blockProcess (h : s.Served) (hranked : s.Ranked) (hsound : s.Sound)
    (hc : s.currentProcess = some c) (hvalid : s.isValidPID p) : (s.blockProcess p).2.Served := by
  have hset : (s.setState p BLOCKED).Served := h.setBlock fun hready => absurd hready (by simp)
  rw [blockProcess_of_valid hvalid]
  split
  · have hranks : (s.setState p BLOCKED).Ranked :=
      hranked.setBlock rfl rfl rfl (fun hrun => absurd hrun (by simp))
        fun _ => (isValidPID_iff.mp hvalid).2.2
    have hflag : ({ s.setState p BLOCKED with isYield := true } : Sched).Served :=
      hset.of_queues hset.nodes rfl rfl
    exact hflag.switchContext (hranks.congr rfl rfl)
      (hsound.setState p BLOCKED hc (by decide)).alone
  · exact hset

end Sched

namespace Machine

variable {S S' : Machine} {a : Act}

/-- **No action loses a process that is ready.** -/
theorem served_does (hbase : S.Base) (hranked : S.sched.Ranked) (h : S.sched.Served)
    (hd : S.Does a S') : S'.sched.Served := by
  cases hd with
  | @switch isYield =>
      have hflag : ({ S.sched with isYield := isYield } : Sched).Served :=
        h.of_queues h.nodes rfl rfl
      exact hflag.switchContext (hranked.congr rfl rfl) hbase.sound.alone
  | blocks => exact h.of_queues h.nodes rfl rfl
  | block hc _ hvalid => exact h.blockProcess hranked hbase.sound hc hvalid
  | unblock => exact h.unblockProcess hranked
  | create _ _ _ hp => exact h.enter hp.priority
  | returned => exact h.setBlock id
  | kill => exact h.unscheduleProcess rfl
  | killWake =>
      unfold Machine.killWake
      dsimp only
      split
      · exact h
      · exact (h.unblockProcess hranked).setBlock id
  | priority => exact h.setBlock id
  | @waitBlock q target wstatus hc hf htarget halive =>
      have hset : (S.sched.setProcess target
          { S.sched.processes target with waitPid := q }).Served := h.setBlock id
      exact hset.blockProcess (hranked.setBlock rfl rfl rfl id id) (hbase.sound.setProcess hc id) hc
        (waitFor_valid hbase hc hf target)
  | @sleep q semId k hc hf hvalue hwaiting hin =>
      have hsound := (hbase.enlist q semId).sound
      have hvalid := enlist_valid hbase hc hf semId
      change ((S.enlist q semId).sched.blockProcess q).2.Served
      rcases enlist_sched S q semId with heq | heq <;> rw [heq] at hsound hvalid ⊢
      · exact h.blockProcess hranked hsound hc hvalid
      · have hdrop : S.sched.dropNode.Served := h.of_queues (fun n => h.nodes (n + 1)) rfl rfl
        exact hdrop.blockProcess (hranked.congr rfl rfl) hsound hc hvalid
  | wake => exact h.unblockProcess hranked
  | semCreate => exact h.of_queues h.nodes rfl rfl
  | _ => exact h

end Machine

end BareKernel.Kernel
