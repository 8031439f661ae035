import BareKernel.Kernel.BoostedTurns
import Mathlib.Data.List.Nodup

/-!
# How long a process waits

A process that waits counts the passes, and the boost lifts it by at most two priorities.
From priority 3 that is enough for the highest queue, in which its place then moves to the
front with every switch. From a lower priority it is not: a process of priority 5 that never
blocks is chosen every time.
-/

namespace BareKernel.Kernel

open ProcessState Runs

namespace Sched

variable {s s' : Sched} {p q c i j : ℤ} {b : Process} {l temp : List ℤ} {m bound : ℕ}

/-! ## One queue, whatever the heap answers -/

theorem fillTemp_sublist : ∀ {l temp : List ℤ} {s : Sched}, ∃ kept : List ℤ, kept.Sublist l ∧
    (fillTemp l s temp).2 = temp ++ kept
  | [], temp, _ => ⟨[], List.Sublist.refl _, (List.append_nil temp).symm⟩
  | first :: rest, temp, s => by
      unfold fillTemp
      dsimp only
      generalize (if first = 1 ∨ first = 2 then s
        else s.setProcess first (age (s.processes first))) = t
      obtain ⟨kept, hsub, heq⟩ := @fillTemp_sublist rest (t.append temp first) t.dropNode
      rw [heq]
      unfold append
      split
      · exact ⟨first :: kept, hsub.cons_cons first, by rw [List.append_assoc]; rfl⟩
      · exact ⟨kept, hsub.cons first, rfl⟩

theorem requeue_sublist : ∀ {temp : List ℤ} {s : Sched}, ∃ kept : List ℤ,
    kept.Sublist (temp.filter fun p => queueIndex (s.processes p) = j) ∧
      (requeue temp s).priorityQueues j = s.priorityQueues j ++ kept
  | [], s => ⟨[], List.Sublist.refl _, (List.append_nil _).symm⟩
  | first :: rest, s => by
      obtain ⟨kept, hsub, heq⟩ := @requeue_sublist rest (s.enqueue first)
      change ∃ kept, _ ∧ (requeue rest (s.enqueue first)).priorityQueues j = _
      rw [heq]
      unfold enqueue
      dsimp only
      change ∃ kept', _ ∧ Function.update s.priorityQueues _ _ j ++ kept = _
      by_cases hindex : queueIndex (s.processes first) = j
      · rw [hindex, Function.update_self, List.filter_cons_of_pos (by simpa using hindex)]
        unfold append
        split
        · exact ⟨first :: kept, hsub.cons_cons first, by rw [List.append_assoc]; rfl⟩
        · exact ⟨kept, hsub.cons first, rfl⟩
      · rw [Function.update_of_ne (Ne.symm hindex), List.filter_cons_of_neg (by simpa using hindex)]
        exact ⟨kept, hsub, rfl⟩

/-- One queue is aged: it is emptied, and of its elements some get to the end of the queue of
their new priority, in order. -/
theorem ageQueue_lists (h : s.Processed i) (j : ℤ) : ∃ kept : List ℤ,
    kept.Sublist ((s.priorityQueues i).filter fun p => queueIndex (s.visited i p) = j) ∧
      (s.ageQueue i).priorityQueues j = (if j = i then [] else s.priorityQueues j) ++ kept := by
  unfold ageQueue
  split
  · rename_i hempty
    refine ⟨[], List.nil_sublist _, ?_⟩
    rw [List.append_nil]
    split
    · rename_i heq
      rw [heq, hempty]
    · rfl
  · rename_i hne
    rw [if_neg (not_not.mpr (h.resolve_left hne))]
    dsimp only
    obtain ⟨filled, hfilled, hfill⟩ := @fillTemp_sublist (s.priorityQueues i) []
      (s.dropBlock.setQueue i [])
    obtain ⟨kept, hkept, heq⟩ := @requeue_sublist j
      (fillTemp (s.priorityQueues i) (s.dropBlock.setQueue i []) []).2
      (fillTemp (s.priorityQueues i) (s.dropBlock.setQueue i []) []).1
    rw [heq, fillTemp_priorityQueues]
    refine ⟨kept, ?_, ?_⟩
    · rw [hfill, List.nil_append] at hkept
      have hsame :
          ∀ p, (fillTemp (s.priorityQueues i) (s.dropBlock.setQueue i []) []).1.processes p =
          s.visited i p := fun p => fillTemp_processes
      simp only [hsame] at hkept
      exact hkept.trans (hfilled.filter _)
    · congr 1
      change Function.update s.priorityQueues i [] j = _
      by_cases hji : j = i
      · rw [hji, Function.update_self, if_pos rfl]
      · rw [Function.update_of_ne hji, if_neg hji]

/-! ## The order of waiting -/

/-- Aging can lift the process to the highest priority. -/
structure Liftable (p : ℤ) (b : Process) : Prop where
  aged : ¬(p = 1 ∨ p = 2)
  original : 3 ≤ b.originalPriority.toNat

/-- Each process has at most one entry, and is ready then; who waits below the highest queue
has not waited long, and the counter of who waits in it grows only while its place there
gets better. -/
structure Orderly (bound : ℕ) (s : Sched) : Prop where
  once : s.Single
  ready : ∀ i ∈ levels, ∀ p ∈ s.priorityQueues i, (s.processes p).state = READY
  still : ∀ p, (s.processes p).state = BLOCKED ∨ (s.processes p).state = RUNNING →
    (s.processes p).agingCounter = 0
  low : ∀ i ∈ levels, i ≠ 4 → ∀ p ∈ s.priorityQueues i, Liftable p (s.processes p) →
    (s.processes p).agingCounter.toNat ≤ 29
  top : ∀ p ∈ s.priorityQueues 4, Liftable p (s.processes p) →
    (s.processes p).agingCounter.toNat + (s.priorityQueues 4).idxOf p ≤ bound
  high : ∀ p ∈ s.priorityQueues 4, Liftable p (s.processes p) →
    (s.processes p).priority.toNat = 5 ∨ (s.processes p).agingCounter = 0

/-- The entries are processes, so that no queue is longer than the table. -/
def InTable (s : Sched) : Prop := ∀ i, ∀ p ∈ s.priorityQueues i, 0 < p ∧ p ≤ maxPid

theorem Single.nodup (h : s.Single) (hi : i ∈ levels) : (s.priorityQueues i).Nodup := by
  rw [List.nodup_iff_count_le_one]
  exact fun p => (MultiQueue.count_le_entries hi).trans (h p)

theorem Single.idxOf_lt (h : s.Single) (htable : s.InTable) (hi : i ∈ levels)
    (hp : p ∈ s.priorityQueues i) : (s.priorityQueues i).idxOf p ≤ 99 := by
  have hlt := List.idxOf_lt_length_of_mem hp
  have hle : (s.priorityQueues i).length ≤ pids.length :=
    (h.nodup hi).length_le_of_subset fun q hq => mem_pids.mpr (htable i q hq)
  have hlen : pids.length = 100 := rfl
  omega

/-- Entries go away, and otherwise nothing changes that matters. -/
theorem Orderly.shrink (h : Orderly bound s) (hqueues : ∀ i, (s'.priorityQueues i).Sublist
      (s.priorityQueues i))
    (hsame : ∀ i ∈ levels, ∀ p ∈ s'.priorityQueues i, SameRank (s.processes p) (s'.processes p) ∧
      (s'.processes p).state = READY)
    (hstill : ∀ p, (s'.processes p).state = BLOCKED ∨ (s'.processes p).state = RUNNING →
      (s'.processes p).agingCounter = 0) : Orderly bound s' := by
  have hlift : ∀ {p}, SameRank (s.processes p) (s'.processes p) → Liftable p (s'.processes p) →
      Liftable p (s.processes p) := by
    intro p hrank hp
    refine ⟨hp.aged, ?_⟩
    rw [← hrank.originalPriority]
    exact hp.original
  have hfour : (4 : ℤ) ∈ levels := by decide
  refine ⟨fun p => (MultiQueue.entries_mono fun i _ => hqueues i).trans (h.once p),
    fun i hi p hp => (hsame i hi p hp).2, hstill, fun i hi hne p hp hlifts => ?_,
    fun p hp hlifts => ?_, fun p hp hlifts => ?_⟩
  · have hrank := (hsame i hi p hp).1
    rw [hrank.agingCounter]
    exact h.low i hi hne p ((hqueues i).subset hp) (hlift hrank hlifts)
  · have hrank := (hsame 4 hfour p hp).1
    have hbefore := h.top p ((hqueues 4).subset hp) (hlift hrank hlifts)
    have hindex := MultiQueue.idxOf_le_of_sublist (hqueues 4) (h.once.nodup hfour) hp
    rw [hrank.agingCounter]
    omega
  · have hrank := (hsame 4 hfour p hp).1
    rw [hrank.agingCounter, hrank.priority]
    exact h.high p ((hqueues 4).subset hp) (hlift hrank hlifts)

theorem schedule_queue (s : Sched) (q i : ℤ) :
    (s.schedule q).priorityQueues i = s.priorityQueues i ∨
    (s.schedule q).priorityQueues i = s.priorityQueues i ++ [q] := by
  unfold schedule
  split
  · unfold enqueue
    dsimp only
    change Function.update s.priorityQueues _ _ i = _ ∨ Function.update s.priorityQueues _ _ i = _
    by_cases heq : i = queueIndex (s.processes q)
    · rw [heq, Function.update_self]
      unfold append
      split
      · exact .inr rfl
      · exact .inl rfl
    · rw [Function.update_of_ne heq]
      exact .inl rfl
  · exact .inl rfl

theorem Orderly.notMem (h : Orderly bound s) (hstate : (s.processes q).state ≠ READY)
    (hi : i ∈ levels) : q ∉ s.priorityQueues i := fun hmem => hstate (h.ready i hi q hmem)

theorem InTable.enter (h : s.InTable) (hq : 0 < q ∧ q ≤ maxPid) :
    ((s.setProcess q b).schedule q).InTable := by
  intro i p hp
  rcases mem_schedule hp with hp | rfl
  · exact h i p hp
  · exact hq

/-- A process that was not ready gets into the queue of its priority, with a counter of 0. -/
theorem Orderly.enter (h : Orderly bound s) (hbound : 99 ≤ bound) (htable : s.InTable)
    (hq : 0 < q ∧ q ≤ maxPid) (hstate : (s.processes q).state ≠ READY) (hready : b.state = READY)
    (hcounter : b.agingCounter = 0) : Orderly bound ((s.setProcess q b).schedule q) := by
  have hself : (s.setProcess q b).processes q = b := setProcess_self
  have hzero : b.agingCounter.toNat = 0 := by
    rw [hcounter]
    rfl
  have hfour : (4 : ℤ) ∈ levels := by decide
  -- who stands in a queue was there, or is the new one
  have hmem : ∀ {i p}, i ∈ levels → p ∈ ((s.setProcess q b).schedule q).priorityQueues i →
      p = q ∨ p ≠ q ∧ p ∈ s.priorityQueues i ∧ (s.setProcess q b).processes p = s.processes p := by
    intro i p hi hp
    by_cases heq : p = q
    · exact .inl heq
    · rcases mem_schedule hp with hp | hp
      · exact .inr ⟨heq, hp, setProcess_of_ne heq⟩
      · exact absurd hp heq
  have honce : ((s.setProcess q b).schedule q).Single := by
    intro p
    have hle := schedule_entries (s.setProcess q b) p q
    rw [entries_setProcess] at hle
    by_cases heq : p = q
    · subst heq
      have hnone : s.entries p = 0 := MultiQueue.entries_eq_zero.mpr fun i hi => h.notMem hstate hi
      rw [if_pos rfl, hnone] at hle
      exact hle
    · rw [if_neg heq] at hle
      exact hle.trans (h.once p)
  refine ⟨honce, fun i hi p hp => ?_, fun p hp => ?_, fun i hi hne p hp hlifts => ?_,
    fun p hp hlifts => ?_, fun p hp hlifts => ?_⟩ <;> rw [schedule_processes] at *
  · rcases hmem hi hp with rfl | ⟨-, hp, heq⟩
    · rw [hself]
      exact hready
    · rw [heq]
      exact h.ready i hi p hp
  · by_cases heq : p = q
    · subst heq
      rw [hself, hready] at hp
      exact absurd hp (by simp)
    · rw [setProcess_of_ne heq] at hp ⊢
      exact h.still p hp
  · rcases hmem hi hp with rfl | ⟨-, hp, heq⟩
    · rw [hself, hzero]
      exact Nat.zero_le _
    · rw [heq] at hlifts ⊢
      exact h.low i hi hne p hp hlifts
  · rcases hmem hfour hp with rfl | ⟨-, hold, heq⟩
    · rw [hself, hzero, Nat.zero_add]
      exact (honce.idxOf_lt (htable.enter hq) hfour hp).trans hbound
    · rw [heq] at hlifts ⊢
      have hbefore := h.top p hold hlifts
      rcases schedule_queue (s.setProcess q b) q 4 with hqueue | hqueue <;> rw [hqueue]
      · exact hbefore
      · rw [List.idxOf_append_of_mem (show p ∈ (s.setProcess q b).priorityQueues 4 from hold)]
        exact hbefore
  · rcases hmem hfour hp with rfl | ⟨-, hold, heq⟩
    · rw [hself]
      exact .inr hcounter
    · rw [heq] at hlifts ⊢
      exact h.high p hold hlifts

/-! ## The aging pass -/

/-- From priority 3 the boost lifts to the highest priority at the latest with 30 passes. -/
theorem age_lifts (hgraded : Graded b) (horiginal : 3 ≤ b.originalPriority.toNat)
    (hcounter : b.agingCounter.toNat ≤ 29) : (age b).agingCounter.toNat ≤ 29 ∨
      ((age b).agingCounter.toNat = 30 ∧ (age b).priority.toNat = 5) := by
  have hnext : (age b).agingCounter.toNat = b.agingCounter.toNat + 1 := by
    rw [age_agingCounter, counter_succ (by omega)]
  by_cases hlast : b.agingCounter.toNat = 29
  · right
    refine ⟨by omega, ?_⟩
    by_cases hboost : b.agingCounter + 1 ≥ agingThreshold ∧ b.priority < maxPriority
    · rcases age_high hgraded hboost with hfive | ⟨-, -, hvalue⟩
      · exact hfive
      · rw [hvalue, hnext, age_originalPriority, hlast]
        omega
    · rw [age_low hboost]
      have hreached : b.agingCounter + 1 ≥ agingThreshold := by
        rw [ge_iff_le, UInt64.le_iff_toNat_le, counter_succ (by omega), hlast]
        decide
      have hmax : ¬b.priority < maxPriority := fun hlt => hboost ⟨hreached, hlt⟩
      rw [UInt32.lt_iff_toNat_lt] at hmax
      have hrange := checkPriority_iff.mp hgraded.priority
      change ¬b.priority.toNat < 5 at hmax
      change b.priority.toNat = 5
      omega
  · left
    omega

theorem InTable.ageQueue (h : s.InTable) : (s.ageQueue i).InTable := by
  intro j p hp
  obtain ⟨k, -, hk⟩ := mem_ageQueue hp
  exact h k p hk

/-- **Aging one queue** keeps the order of waiting; only in the highest queue the counter grows
while the place stays. -/
theorem ageQueue_orderly {bound' : ℕ} (h : Orderly bound s) (hle : bound ≤ bound')
    (hnext : i = 4 → bound + 1 ≤ bound') (hbound : 129 ≤ bound') (hsmall : bound ≤ 1000)
    (hranked : s.Ranked) (htable : s.InTable) (hi : i ∈ levels) :
    Orderly bound' (s.ageQueue i) := by
  have hfour : (4 : ℤ) ∈ levels := by decide
  have hstill : ∀ p, ((s.ageQueue i).processes p).state = BLOCKED ∨
      ((s.ageQueue i).processes p).state = RUNNING →
        ((s.ageQueue i).processes p).agingCounter = 0 := by
    intro p hp
    rw [ageQueue_aged.state] at hp
    have hout : p ∉ s.priorityQueues i :=
      h.notMem (by rcases hp with hp | hp <;> rw [hp] <;> decide) hi
    rw [(ageQueue_absent hout).1]
    exact h.still p hp
  by_cases hproc : s.Processed i
  · -- an entry has not moved, or it was aged
    have hmem : ∀ {j p}, j ∈ levels → p ∈ (s.ageQueue i).priorityQueues j →
        (j ≠ i ∧ p ∈ s.priorityQueues j ∧ (s.ageQueue i).processes p = s.processes p) ∨
        (p ∈ s.priorityQueues i ∧ queueIndex ((s.ageQueue i).processes p) = j ∧
          (¬(p = 1 ∨ p = 2) → (s.ageQueue i).processes p = age (s.processes p))) := by
      intro j p hj hp
      obtain ⟨kept, hsub, hqueue⟩ := ageQueue_lists hproc j
      rw [hqueue] at hp
      rcases List.mem_append.mp hp with hold | hnew
      · left
        split at hold
        · exact absurd hold List.not_mem_nil
        · rename_i hji
          have hout : p ∉ s.priorityQueues i := fun hin => hji (h.once.unique hj hi hold hin)
          exact ⟨hji, hold, (ageQueue_absent hout).1⟩
      · right
        obtain ⟨hin, hindex⟩ := List.mem_filter.mp (hsub.subset hnew)
        rw [ageQueue_processes hproc]
        exact ⟨hin, of_decide_eq_true hindex, fun hp => visited_of_count (h.once.count hi hin) hp⟩
    have haged : ∀ {p}, p ∈ s.priorityQueues i → Liftable p ((s.ageQueue i).processes p) →
        (s.ageQueue i).processes p = age (s.processes p) → Liftable p (s.processes p) := by
      intro p hin hlifts heq
      refine ⟨hlifts.aged, ?_⟩
      rw [← age_originalPriority, ← heq]
      exact hlifts.original
    have hindex_four : ∀ {p}, ((s.ageQueue i).processes p).priority.toNat = 5 ↔
        queueIndex ((s.ageQueue i).processes p) = 4 := by
      intro p
      unfold queueIndex
      omega
    refine ⟨h.once.ageQueue hi, fun j hj p hp => ?_, hstill, fun j hj hne p hp hlifts => ?_,
      fun p hp hlifts => ?_, fun p hp hlifts => ?_⟩
    · rw [ageQueue_aged.state]
      rcases hmem hj hp with ⟨-, hold, -⟩ | ⟨hin, -⟩
      · exact h.ready j hj p hold
      · exact h.ready i hi p hin
    · rcases hmem hj hp with ⟨-, hold, heq⟩ | ⟨hin, hindex, hage⟩
      · rw [heq] at hlifts ⊢
        exact h.low j hj hne p hold hlifts
      · have heq := hage hlifts.aged
        have hlifts' := haged hin hlifts heq
        have hgraded := hranked p (.inr ⟨i, hin⟩)
        have hnot : ¬((s.ageQueue i).processes p).priority.toNat = 5 := by
          rw [hindex_four, hindex]
          exact hne
        rw [heq] at hnot ⊢
        by_cases hi4 : i = 4
        · -- who leaves the highest queue has just got a new priority
          subst hi4
          rcases h.high p hin hlifts' with hfive | hzero
          · have hmax : ¬((s.processes p).agingCounter + 1 ≥ agingThreshold ∧
                (s.processes p).priority < maxPriority) := by
              rintro ⟨-, hlt⟩
              have := UInt32.lt_iff_toNat_lt.mp hlt
              change _ < 5 at this
              omega
            rw [age_low hmax] at hnot
            exact absurd hfive hnot
          · rw [age_agingCounter, hzero]
            decide
        · rcases age_lifts hgraded hlifts'.original (h.low i hi hi4 p hin hlifts') with
            hlow | ⟨-, hfive⟩
          · exact hlow
          · exact absurd hfive hnot
    · rcases hmem hfour hp with ⟨hne, hold, heq⟩ | ⟨hin, -, hage⟩
      · rw [heq] at hlifts ⊢
        have hbefore := h.top p hold hlifts
        obtain ⟨kept, -, hqueue⟩ := ageQueue_lists hproc 4
        rw [hqueue, if_neg hne, List.idxOf_append_of_mem hold]
        exact hbefore.trans hle
      · have heq := hage hlifts.aged
        have hlifts' := haged hin hlifts heq
        have hgraded := hranked p (.inr ⟨i, hin⟩)
        by_cases hi4 : i = 4
        · subst hi4
          have hbefore := h.top p hin hlifts'
          obtain ⟨kept, hsub, hqueue⟩ := ageQueue_lists hproc 4
          rw [if_pos rfl, List.nil_append] at hqueue
          have hplace := MultiQueue.idxOf_le_of_sublist (hsub.trans List.filter_sublist)
            (h.once.nodup hfour) (by rwa [← hqueue])
          rw [heq, hqueue, age_agingCounter, counter_succ (by omega)]
          have := hnext rfl
          omega
        · have hplace := (h.once.ageQueue hi).idxOf_lt htable.ageQueue hfour hp
          have hcount := age_lifts hgraded hlifts'.original (h.low i hi hi4 p hin hlifts')
          rw [heq]
          omega
    · rcases hmem hfour hp with ⟨-, hold, heq⟩ | ⟨-, hindex, -⟩
      · rw [heq] at hlifts ⊢
        exact h.high p hold hlifts
      · exact .inl (hindex_four.mpr hindex)
  · rw [ageQueue_skipped hproc]
    exact ⟨h.once, h.ready, h.still, h.low,
      fun p hp hlifts => (h.top p hp hlifts).trans hle, h.high⟩

/-- What the bound is made of: the boost needs two thresholds, and the highest queue holds the
other processes of the table at most. -/
def waitBound : ℕ :=
  agingThreshold.toNat * maxAgingBoost.toInt.toNat + (maxPid.toNat - 1)

theorem waitBound_eq : waitBound = 129 := rfl

theorem applyAging_orderly (h : Orderly waitBound s) (hranked : s.Ranked)
    (hrun : ∀ p, (s.processes p).state ≠ RUNNING) (htable : s.InTable) :
    Orderly (waitBound + 1) s.applyAging := by
  have hall : ∀ (is : List ℤ) {s : Sched}, (∀ i ∈ is, i ∈ levels ∧ i ≠ 4) → Orderly waitBound s →
      s.Ranked → (∀ p, (s.processes p).state ≠ RUNNING) → s.InTable →
        Orderly waitBound (is.foldl ageQueue s) ∧ (is.foldl ageQueue s).Ranked ∧
          (∀ p, ((is.foldl ageQueue s).processes p).state ≠ RUNNING) ∧
            (is.foldl ageQueue s).InTable := by
    intro is
    induction is with
    | nil => exact fun _ h hranked hrun htable => ⟨h, hranked, hrun, htable⟩
    | cons i is ih =>
        intro s hlevels h hranked hrun htable
        obtain ⟨hi, hne⟩ := hlevels i List.mem_cons_self
        apply ih fun j hj => hlevels j (List.mem_cons_of_mem _ hj)
        · exact ageQueue_orderly h le_rfl (fun heq => absurd heq hne) (le_of_eq waitBound_eq.symm)
            (by rw [waitBound_eq]; decide) hranked htable hi
        · exact ageQueue_ranked hranked hrun
        · intro p
          rw [ageQueue_aged.state]
          exact hrun p
        · exact htable.ageQueue
  obtain ⟨hlow, hranked', -, htable'⟩ := hall [0, 1, 2, 3] (by decide) h hranked hrun htable
  exact ageQueue_orderly hlow (Nat.le_succ _) (fun _ => le_rfl) (by rw [waitBound_eq]; decide)
    (by rw [waitBound_eq]; decide) hranked' htable' (by decide)

/-! ## The context switch -/

theorem park_orderly (h : Orderly waitBound s) (htable : s.InTable) (hc : 0 < c ∧ c ≤ maxPid) :
    Orderly waitBound (s.park c) ∧ (s.park c).InTable := by
  unfold park
  split
  · rename_i hrun
    refine ⟨?_, htable.enter hc⟩
    apply h.enter (by rw [waitBound_eq]; decide) htable hc (by rw [hrun]; decide) rfl
    exact h.still c (.inr hrun)
  · exact ⟨⟨h.once, h.ready, h.still, h.low, h.top, h.high⟩, htable⟩
  · exact ⟨⟨h.once, h.ready, h.still, h.low, h.top, h.high⟩, htable⟩
  · exact ⟨h, htable⟩

theorem nextProcess_sublist : ∀ {fuel : ℕ} {s : Sched},
    ((nextProcess fuel s).priorityQueues i).Sublist (s.priorityQueues i)
  | 0, _ => List.Sublist.refl _
  | fuel + 1, s => by
      unfold nextProcess
      split
      · exact List.Sublist.refl _
      · rename_i first s' hsome
        obtain ⟨j, _, rest, hq, rfl⟩ := unschedule_some hsome
        have hpop : ((s.setQueue j rest).priorityQueues i).Sublist (s.priorityQueues i) := by
          change (Function.update s.priorityQueues j rest i).Sublist _
          by_cases hij : i = j
          · subst hij
            rw [Function.update_self, hq]
            exact List.sublist_cons_self _ _
          · rw [Function.update_of_ne hij]
        split
        · exact nextProcess_sublist.trans hpop
        · exact hpop

/-- The search takes at least one entry off the highest queue, or leaves none in it. -/
theorem nextProcess_orderly (h : Orderly (bound + 1) s) :
    Orderly bound (nextProcess (s.queuedCount + 1) s) := by
  have hfour : (4 : ℤ) ∈ levels := by decide
  have hshrink : Orderly (bound + 1) (nextProcess (s.queuedCount + 1) s) := by
    refine h.shrink (fun i => nextProcess_sublist) (fun i hi p hp => ?_) ?_ <;>
      rw [nextProcess_processes]
    · exact ⟨SameRank.refl _, h.ready i hi p (mem_nextProcess hp)⟩
    · exact h.still
  refine ⟨hshrink.once, hshrink.ready, hshrink.still, hshrink.low, fun p hp hlifts => ?_,
    hshrink.high⟩
  cases hnext : (nextProcess (s.queuedCount + 1) s).currentProcess with
  | none =>
      rw [nextProcess_none (Nat.lt_succ_self _) hnext 4 (by decide)] at hp
      exact absurd hp List.not_mem_nil
  | some first =>
      obtain ⟨k, pre, rest, hfound⟩ := nextProcess_found hnext
      have hk : k = 4 := by
        by_contra hne
        have hlevel := hfound.level
        have hlt : k < 4 := by
          simp only [levels, List.mem_cons, List.not_mem_nil, or_false] at hlevel
          omega
        rw [(hfound.above 4 hfour hlt).2] at hp
        exact absurd hp List.not_mem_nil
      subst hk
      rw [hfound.left] at hp ⊢
      rw [nextProcess_processes] at hlifts ⊢
      have hsub : (first :: rest).Sublist (s.priorityQueues 4) := by
        rw [hfound.queue]
        exact List.sublist_append_right _ _
      have hnd := h.once.nodup hfour
      have hne : first ≠ p := by
        rintro rfl
        exact (List.nodup_cons.mp (hnd.sublist hsub)).1 hp
      have hbefore := h.top p (hsub.subset (List.mem_cons_of_mem _ hp)) hlifts
      have hplace := MultiQueue.idxOf_le_of_sublist hsub hnd (List.mem_cons_of_mem first hp)
      rw [List.idxOf_cons_ne rest hne] at hplace
      omega

theorem dispatch_orderly (h : Orderly bound s) (hqueues : ∀ i, (s'.priorityQueues i).Sublist
      (s.priorityQueues i)) (hprocesses : s'.processes = s.processes)
    (hout : ∀ i ∈ levels, q ∉ s'.priorityQueues i) : Orderly bound (s'.dispatch q) := by
  refine h.shrink hqueues (fun i hi p hp => ?_) fun p hp => ?_
  · have hne : p ≠ q := by
      rintro rfl
      exact hout i hi hp
    change SameRank _ ((s'.setProcess q _).processes p) ∧
      ((s'.setProcess q _).processes p).state = _
    rw [setProcess_of_ne hne, hprocesses]
    exact ⟨SameRank.refl _, h.ready i hi p ((hqueues i).subset hp)⟩
  · change ((s'.setProcess q _).processes p).state = _ ∨
      ((s'.setProcess q _).processes p).state = _ at hp
    change ((s'.setProcess q _).processes p).agingCounter = 0
    by_cases heq : p = q
    · subst heq
      rw [setProcess_self]
    · rw [setProcess_of_ne heq, hprocesses] at hp ⊢
      exact h.still p hp

/-- The entry of the process that is chosen is gone, and it was the only one. -/
theorem chosen_notMem (honce : s.Single) {first : ℤ}
    (hnext : (nextProcess (s.queuedCount + 1) s).currentProcess = some first) (hi : i ∈ levels) :
    first ∉ (nextProcess (s.queuedCount + 1) s).priorityQueues i := by
  obtain ⟨k, pre, rest, hfound⟩ := nextProcess_found hnext
  have hmem : first ∈ s.priorityQueues k := by
    rw [hfound.queue]
    exact List.mem_append_right _ List.mem_cons_self
  intro hin
  obtain rfl := honce.unique hi hfound.level (mem_nextProcess hin) hmem
  rw [hfound.left] at hin
  have hnd := honce.nodup hi
  rw [hfound.queue] at hnd
  exact (List.nodup_cons.mp (hnd.sublist (List.sublist_append_right _ _))).1 hin

/-- **A context switch keeps the order of waiting.** -/
theorem switchContext_orderly (h : Orderly waitBound s) (hranked : s.Ranked) (hsound : s.Sound) :
    Orderly waitBound s.switchContext := by
  unfold switchContext
  split
  · split
    · exact h
    · rename_i first s' hsome
      obtain ⟨i, hi, rest, hq, rfl, -⟩ := unschedule_top hsome
      have hpop : ∀ j, ((s.setQueue i rest).priorityQueues j).Sublist (s.priorityQueues j) := by
        intro j
        change (Function.update s.priorityQueues i rest j).Sublist _
        by_cases hji : j = i
        · subst hji
          rw [Function.update_self, hq]
          exact List.sublist_cons_self _ _
        · rw [Function.update_of_ne hji]
      apply @dispatch_orderly s (s.setQueue i rest) first waitBound h hpop rfl
      intro j hj hin
      have hmem : first ∈ s.priorityQueues i := by
        rw [hq]
        exact List.mem_cons_self
      obtain rfl := h.once.unique hj hi ((hpop j).subset hin) hmem
      change first ∈ Function.update s.priorityQueues j rest j at hin
      rw [Function.update_self] at hin
      have hnd := h.once.nodup hj
      rw [hq] at hnd
      exact (List.nodup_cons.mp hnd).1 hin
  · rename_i c hc
    split
    · exact ⟨h.once, h.ready, h.still, h.low, h.top, h.high⟩
    · obtain ⟨hparked, htable⟩ := park_orderly h hsound.queued (hsound.current c hc)
      have haged := applyAging_orderly hparked (park_ranked hranked)
        (park_state_ne hsound.alone hc) htable
      have hnext := nextProcess_orderly haged
      dsimp only
      split
      · exact hnext
      · rename_i first hfirst
        have hdispatch := dispatch_orderly (q := first) hnext (fun i => List.Sublist.refl _) rfl
          fun i hi => chosen_notMem haged.once hfirst hi
        exact ⟨hdispatch.once, hdispatch.ready, hdispatch.still, hdispatch.low, hdispatch.top,
          hdispatch.high⟩

/-! ## The other operations -/

/-- A block changes, but not in its counter, its priorities or its state. -/
theorem Orderly.setBlock (h : Orderly bound s) (hrank : SameRank (s.processes q) b)
    (hstate : b.state = (s.processes q).state) : Orderly bound (s.setProcess q b) := by
  have hsame : ∀ p, SameRank (s.processes p) ((s.setProcess q b).processes p) ∧
      ((s.setProcess q b).processes p).state = (s.processes p).state := by
    intro p
    by_cases heq : p = q
    · subst heq
      rw [setProcess_self]
      exact ⟨hrank, hstate⟩
    · rw [setProcess_of_ne heq]
      exact ⟨SameRank.refl _, rfl⟩
  refine h.shrink (fun i => List.Sublist.refl _) (fun i hi p hp => ⟨(hsame p).1, ?_⟩) fun p hp => ?_
  · rw [(hsame p).2]
    exact h.ready i hi p hp
  · rw [(hsame p).2] at hp
    rw [(hsame p).1.agingCounter]
    exact h.still p hp

/-- A new priority comes with a counter of 0. -/
theorem Orderly.rerank (h : Orderly bound s) (hbound : 99 ≤ bound) (htable : s.InTable)
    (hstate : b.state = (s.processes q).state) (hcounter : b.agingCounter = 0) :
    Orderly bound (s.setProcess q b) := by
  have hfour : (4 : ℤ) ∈ levels := by decide
  have hzero : b.agingCounter.toNat = 0 := by
    rw [hcounter]
    rfl
  refine ⟨h.once, fun i hi p hp => ?_, fun p hp => ?_, fun i hi hne p hp hlifts => ?_,
    fun p hp hlifts => ?_, fun p hp hlifts => ?_⟩ <;> by_cases heq : p = q
  · subst heq
    rw [setProcess_self, hstate]
    exact h.ready i hi p hp
  · rw [setProcess_of_ne heq]
    exact h.ready i hi p hp
  · subst heq
    rw [setProcess_self]
    exact hcounter
  · rw [setProcess_of_ne heq] at hp ⊢
    exact h.still p hp
  · subst heq
    rw [setProcess_self, hzero]
    exact Nat.zero_le _
  · rw [setProcess_of_ne heq] at hlifts ⊢
    exact h.low i hi hne p hp hlifts
  · subst heq
    rw [setProcess_self, hzero, Nat.zero_add]
    exact (h.once.idxOf_lt htable hfour hp).trans hbound
  · rw [setProcess_of_ne heq] at hlifts ⊢
    exact h.top p hp hlifts
  · subst heq
    rw [setProcess_self]
    exact .inr hcounter
  · rw [setProcess_of_ne heq] at hlifts ⊢
    exact h.high p hp hlifts

theorem unblockProcess_orderly (h : Orderly waitBound s) (htable : s.InTable) :
    Orderly waitBound (s.unblockProcess p).2 := by
  rcases unblockProcess_cases (s := s) with heq | ⟨hpos, hle, hblocked, heq⟩ <;> rw [heq]
  · exact h
  · apply h.enter (by rw [waitBound_eq]; decide) htable ⟨hpos, hle⟩ (by rw [hblocked]; decide) rfl
    exact h.still p (.inl hblocked)

/-- A process is blocked that was not ready: it has no entry. -/
theorem blockProcess_orderly (h : Orderly waitBound s) (hranked : s.Ranked) (hsound : s.Sound)
    (hc : s.currentProcess = some c) (hvalid : s.isValidPID p)
    (hstate : (s.processes p).state ≠ READY) : Orderly waitBound (s.blockProcess p).2 := by
  have hlive := (isValidPID_iff.mp hvalid).2.2
  have hset : Orderly waitBound (s.setState p BLOCKED) := by
    refine h.shrink (fun i => List.Sublist.refl _) (fun i hi q hq => ?_) fun q hq => ?_
    · have hne : q ≠ p := by
        rintro rfl
        exact h.notMem hstate hi hq
      rw [setState, setProcess_of_ne hne]
      exact ⟨SameRank.refl _, h.ready i hi q hq⟩
    · by_cases heq : q = p
      · subst heq
        rw [setState, setProcess_self]
        apply h.still q
        cases hst : (s.processes q).state <;> simp_all
      · rw [setState, setProcess_of_ne heq] at hq ⊢
        exact h.still q hq
  rw [blockProcess_of_valid hvalid]
  split
  · have hranks : (s.setState p BLOCKED).Ranked :=
      hranked.setBlock rfl rfl rfl (fun hrun => absurd hrun (by simp)) fun _ => hlive
    have hsound' := hsound.setState p BLOCKED hc (by decide)
    exact switchContext_orderly (s := { s.setState p BLOCKED with isYield := true })
      ⟨hset.once, hset.ready, hset.still, hset.low, hset.top, hset.high⟩ (hranks.congr rfl rfl)
      ⟨hsound'.queued, hsound'.current, hsound'.settled, hsound'.alone⟩
  · exact hset

end Sched

namespace Machine

open Sched (Orderly SameRank waitBound waitBound_eq)

variable {S S' : Machine} {a : Act} {e : Event} {c p : ℤ} {nodes blocks : ℕ → Bool}

/-! ## Every run keeps the order of waiting -/

/-- **Every action keeps the order of waiting**, but for blocking a ready process. -/
theorem orderly_does (hbase : S.Base) (hranked : S.sched.Ranked) (h : Orderly waitBound S.sched)
    (hblock : ∀ pid, a = .block pid → (S.sched.processes pid).state ≠ READY)
    (hd : S.Does a S') : Orderly waitBound S'.sched := by
  have hbound : 99 ≤ waitBound := by
    rw [waitBound_eq]
    decide
  have htable : S.sched.InTable := hbase.sound.queued
  cases hd with
  | @switch isYield =>
      exact Sched.switchContext_orderly (s := { S.sched with isYield := isYield })
        ⟨h.once, h.ready, h.still, h.low, h.top, h.high⟩ (hranked.congr rfl rfl)
        ⟨hbase.sound.queued, hbase.sound.current, hbase.sound.settled, hbase.sound.alone⟩
  | blocks => exact ⟨h.once, h.ready, h.still, h.low, h.top, h.high⟩
  | block hc _ hvalid =>
      exact Sched.blockProcess_orderly h hranked hbase.sound hc hvalid (hblock _ rfl)
  | unblock => exact Sched.unblockProcess_orderly h htable
  | create hpid hexited _ hp =>
      exact h.enter hbound htable hpid (by rw [hexited]; decide) hp.state hp.agingCounter
  | returned => exact h.setBlock ⟨rfl, rfl, rfl⟩ rfl
  | @kill c q stage hc hq halive =>
      have hqueues : ∀ i, ((S.sched.unscheduleProcess q).priorityQueues i).Sublist
          (S.sched.priorityQueues i) := by
        intro i
        unfold Sched.unscheduleProcess
        dsimp only
        split
        · exact List.erase_sublist
        · exact List.Sublist.refl _
      refine h.shrink hqueues (fun i hi p hp => ?_) fun p hp => ?_
      · have hne : p ≠ q := by
          rintro rfl
          change p ∈ if i ∈ Sched.levels then (S.sched.priorityQueues i).erase p
            else S.sched.priorityQueues i at hp
          rw [if_pos hi] at hp
          exact (h.once.nodup hi).not_mem_erase hp
        change SameRank _ (((S.sched.unscheduleProcess q).setProcess q _).processes p) ∧
          (((S.sched.unscheduleProcess q).setProcess q _).processes p).state = _
        rw [Sched.setProcess_of_ne hne, Sched.unscheduleProcess_processes]
        exact ⟨SameRank.refl _, h.ready i hi p ((hqueues i).subset hp)⟩
      · change (((S.sched.unscheduleProcess q).setProcess q _).processes p).state = _ ∨
          (((S.sched.unscheduleProcess q).setProcess q _).processes p).state = _ at hp
        change (((S.sched.unscheduleProcess q).setProcess q _).processes p).agingCounter = 0
        by_cases heq : p = q
        · subst heq
          rw [Sched.setProcess_self] at hp
          simp at hp
        · rw [Sched.setProcess_of_ne heq, Sched.unscheduleProcess_processes] at hp ⊢
          exact h.still p hp
  | @killWake c q hc hexited =>
      unfold Machine.killWake
      dsimp only
      split
      · exact h
      · exact (Sched.unblockProcess_orderly h htable).setBlock ⟨rfl, rfl, rfl⟩ rfl
  | priority => exact h.rerank hbound htable rfl rfl
  | @waitBlock q target wstatus hc hf htarget halive =>
      have hset : Orderly waitBound (S.sched.setProcess target
          { S.sched.processes target with waitPid := q }) := h.setBlock ⟨rfl, rfl, rfl⟩ rfl
      have hrun := hbase.running hc fun stage => by rw [hf]; simp
      have hstate : ((S.sched.setProcess target
          { S.sched.processes target with waitPid := q }).processes q).state ≠ READY := by
        by_cases heq : q = target
        · subst heq
          rw [Sched.setProcess_self, hrun]
          decide
        · rw [Sched.setProcess_of_ne heq, hrun]
          decide
      exact Sched.blockProcess_orderly hset (hranked.setBlock rfl rfl rfl id id)
        (hbase.sound.setProcess hc id) hc (waitFor_valid hbase hc hf target) hstate
  | @sleep q semId k hc hf hvalue hwaiting hin =>
      have hrun := hbase.running hc (Frame.working_ne_exiting hf)
      have hlist : Orderly waitBound (S.enlist q semId).sched ∧ (S.enlist q semId).sched.Ranked ∧
          (S.enlist q semId).sched.processes = S.sched.processes ∧
            (S.enlist q semId).sched.currentProcess = S.sched.currentProcess := by
        rcases enlist_sched S q semId with heq | heq <;> rw [heq]
        · exact ⟨h, hranked, rfl, rfl⟩
        · exact ⟨⟨h.once, h.ready, h.still, h.low, h.top, h.high⟩, hranked.congr rfl rfl, rfl, rfl⟩
      obtain ⟨hlist, hranks, hprocesses, hcur⟩ := hlist
      refine Sched.blockProcess_orderly hlist hranks (hbase.enlist q semId).sound (hcur.trans hc)
        (enlist_valid hbase hc hf semId) ?_
      change ((S.enlist q semId).sched.processes q).state ≠ READY
      rw [hprocesses, hrun]
      decide
  | wake => exact Sched.unblockProcess_orderly h htable
  | semCreate => exact ⟨h.once, h.ready, h.still, h.low, h.top, h.high⟩
  | _ => exact h

theorem orderly_step (hbase : S.Base) (hranked : S.sched.Ranked) (h : Orderly waitBound S.sched)
    (hok : S.leavesReady e) (hstep : S.Step e S') : Orderly waitBound S'.sched := by
  by_cases hblock : ∃ pid, e = .call (.block pid)
  · obtain ⟨pid, rfl⟩ := hblock
    obtain ⟨c, hc, _, hcall⟩ := step_call hstep
    rw [← Option.some.inj hcall]
    unfold sysBlock
    split
    · exact h
    · rename_i hrefused
      rw [not_or] at hrefused
      exact Sched.blockProcess_orderly h hranked hbase.sound hc (by simpa using hrefused.2)
        (hok hrefused.1)
  · have hboth := (step_path hbase hstep).invariant (I := fun S => S.Base ∧ S.sched.Ranked ∧
      Orderly waitBound S.sched) ⟨hbase, hranked, h⟩ fun S a S' hS ha hd =>
        ⟨hS.1.does hd, ranked_does hS.1 hS.2.1 hd, orderly_does hS.1 hS.2.1 hS.2.2
          (fun pid heq => by
          rw [heq] at ha
          exact absurd ⟨pid, ha.1⟩ hblock) hd⟩
    exact hboth.2.2

theorem orderly_boot (nodes blocks : ℕ → Bool) : Orderly waitBound (boot nodes blocks).sched := by
  have hoff : Orderly waitBound (off nodes blocks).sched := by
    have hempty : ∀ {i p}, p ∉ (off nodes blocks).sched.priorityQueues i := List.not_mem_nil
    exact ⟨fun p => Nat.zero_le _, fun _ _ _ hp => absurd hp hempty, fun _ _ => rfl,
      fun _ _ _ _ hp => absurd hp hempty, fun _ hp => absurd hp hempty,
      fun _ hp => absurd hp hempty⟩
  have hranked : (off nodes blocks).sched.Ranked := by
    rintro p (halive | ⟨i, hi⟩)
    · exact absurd rfl halive
    · exact absurd hi List.not_mem_nil
  have hall := boot_path.invariant (I := fun S => S.Base ∧ S.sched.Ranked ∧
    Orderly waitBound S.sched) ⟨base_off, hranked, hoff⟩ fun S a S' hS ha hd =>
      ⟨hS.1.does hd, ranked_does hS.1 hS.2.1 hd, orderly_does hS.1 hS.2.1 hS.2.2 (fun pid heq => by
        rw [heq] at ha
        exact absurd ha (by simp [starting])) hd⟩
  exact hall.2.2

/-- **Aging bounds the wait** of every process that it can lift to the highest priority, in
every run in which nobody blocks a process that is ready. -/
theorem aging_bounds (nodes blocks : ℕ → Bool) (S : Machine)
    (hreach : Reaches Step leavesReady (boot nodes blocks) S) (p : ℤ) (i : ℤ)
    (hi : i ∈ Sched.levels) (hp : p ∈ S.sched.priorityQueues i) (hpid : p > 2)
    (horiginal : (S.sched.processes p).originalPriority.toNat + maxAgingBoost.toInt.toNat ≥
      maxPriority.toNat) : (S.sched.processes p).agingCounter.toNat ≤ waitBound := by
  have hinv := hreach.invariant (I := fun S => S.Base ∧ S.sched.Ranked ∧
    Orderly waitBound S.sched) ⟨base_boot, ranked_boot nodes blocks, orderly_boot nodes blocks⟩
    fun S e S' hS hok hstep => ⟨hS.1.step hstep, ranked_step hS.1 hS.2.1 hstep,
      orderly_step hS.1 hS.2.1 hS.2.2 hok hstep⟩
  obtain ⟨-, -, horderly⟩ := hinv
  have hlifts : Sched.Liftable p (S.sched.processes p) := by
    refine ⟨by omega, ?_⟩
    change _ + 2 ≥ 5 at horiginal
    omega
  by_cases hi4 : i = 4
  · subst hi4
    have htop := horderly.top p hp hlifts
    omega
  · have hlow := horderly.low i hi hi4 p hp hlifts
    rw [waitBound_eq]
    omega

/-- A worker of priority 3 is created, and the shell yields fifteen times. -/
def passesOver : List Event :=
  .call (.createProcess (some workerParams)) :: List.replicate 15 (.call .yield)

/-- The worker has been passed over and lifted by one level, and waits on. -/
theorem aging_bounds_lifted : ∃ S, exec step booted passesOver = some S ∧
    3 ∈ S.sched.priorityQueues 3 ∧ (S.sched.processes 3).agingCounter = 16 ∧
      (S.sched.processes 3).agingCounter.toNat ≤ waitBound := by
  have hend : (exec step booted passesOver).map (fun S => (S.sched.priorityQueues 3,
      (S.sched.processes 3).originalPriority, (S.sched.processes 3).agingCounter)) =
      some ([3], 3, 16) := by
    decide +kernel
  obtain ⟨S, hS, hlast⟩ := Option.map_eq_some_iff.mp hend
  simp only [Prod.mk.injEq] at hlast
  obtain ⟨hqueue, horiginal, hcounter⟩ := hlast
  have hmem : (3 : ℤ) ∈ S.sched.priorityQueues 3 := by
    rw [hqueue]
    exact List.mem_cons_self
  have hrun : Reaches Step leavesReady booted S := by
    refine exec_always hS fun e he M => ?_
    rcases List.mem_cons.mp he with rfl | he
    · trivial
    · rw [List.eq_of_mem_replicate he]
      trivial
  refine ⟨S, hS, hmem, hcounter, aging_bounds _ _ S hrun 3 3 (by decide) hmem (by decide) ?_⟩
  rw [horiginal]
  decide

end Machine

end BareKernel.Kernel
