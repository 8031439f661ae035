import BareKernel.Kernel.StepActions
import BareKernel.Lib.MultiQueue

/-!
# The ready queues

A process is in the ready queues exactly once when it is `READY`, and otherwise
not at all. What the scheduler does keeps that as long as every queue node is
there; of the calls, only the blocking of another process that is ready breaks
it, since `blockProcess` leaves the entry where it is.
-/

namespace BareKernel.Kernel

open ProcessState Runs MultiQueue

namespace Sched

variable {s s' : Sched} {pid other c i : ℤ} {p : Process} {q temp : List ℤ} {st : ProcessState}

/-! ## Counting entries -/

/-- How often a process stands in the five queues. -/
def entries (s : Sched) (pid : ℤ) : ℕ := MultiQueue.entries levels s.priorityQueues pid

theorem levels_nodup : levels.Nodup := by decide

theorem mem_levels (hi : i ∈ [4, 3, 2, 1, 0]) : i ∈ levels := by
  simp only [levels, List.mem_cons, List.not_mem_nil, or_false] at *
  omega

theorem entries_pos (hi : i ∈ levels) (hpid : pid ∈ s.priorityQueues i) : 0 < s.entries pid :=
  MultiQueue.entries_pos.mpr ⟨i, hi, hpid⟩

@[simp] theorem entries_setProcess : (s.setProcess pid p).entries other = s.entries other := rfl

@[simp] theorem entries_setState : (s.setState pid st).entries other = s.entries other := rfl

theorem queueIndex_mem (h : checkPriority p.priority) : queueIndex p ∈ levels := by
  simp only [checkPriority, minPriority, maxPriority, ge_iff_le, decide_eq_true_eq,
    UInt32.le_iff_toNat_le] at h
  change 1 ≤ p.priority.toNat ∧ p.priority.toNat ≤ 5 at h
  simp only [queueIndex, levels, List.mem_cons, List.not_mem_nil, or_false]
  omega

/-- With a node and a priority in range a process gets one entry more. -/
theorem entries_enqueue (hnode : s.nodes 0 = true)
    (hp : checkPriority (s.processes pid).priority) :
    (s.enqueue pid).entries other = s.entries other + if other = pid then 1 else 0 := by
  unfold enqueue
  dsimp only [append]
  rw [if_pos hnode]
  exact entries_push levels_nodup (queueIndex_mem hp)

theorem entries_schedule (hnode : s.nodes 0 = true)
    (hp : checkPriority (s.processes pid).priority) :
    (s.schedule pid).entries other = s.entries other + if other = pid then 1 else 0 := by
  unfold schedule
  rw [if_pos hp]
  exact entries_enqueue hnode hp

/-- Without a node nothing is queued. -/
theorem entries_enqueue_of_full (hnode : s.nodes 0 = false) :
    (s.enqueue pid).entries other = s.entries other := by
  have hsame : (s.enqueue pid).priorityQueues = s.priorityQueues := by
    simp [enqueue, append, setQueue, dropNode, hnode]
  unfold entries
  rw [hsame]

theorem entries_schedule_le (s : Sched) (pid : ℤ) :
    (s.schedule pid).entries pid ≤ s.entries pid + 1 := by
  by_cases hp : checkPriority (s.processes pid).priority
  · cases hnode : s.nodes 0 with
    | true =>
        rw [entries_schedule hnode hp, if_pos rfl]
    | false =>
        have heq : s.schedule pid = s.enqueue pid := if_pos hp
        rw [heq, entries_enqueue_of_full hnode]
        omega
  · have heq : s.schedule pid = s := if_neg hp
    rw [heq]
    omega

theorem entries_tail {rest : List ℤ} (hi : i ∈ levels) (hq : s.priorityQueues i = pid :: rest) :
    (s.setQueue i rest).entries other + (if other = pid then 1 else 0) = s.entries other :=
  entries_pop levels_nodup hi hq

theorem entries_unscheduleProcess (hone : s.entries pid ≤ 1) :
    (s.unscheduleProcess pid).entries other = if other = pid then 0 else s.entries other := by
  split
  · rename_i h
    subst h
    exact entries_erase_self hone
  · rename_i h
    exact entries_erase_of_ne h

/-! ## Priorities -/

/-- The priority of a process that is not over stays in range. When the aging
counter is so high that the boost would be negative, the priority is already
the highest, and is not changed any more. -/
structure Graded (p : Process) : Prop where
  priority : checkPriority p.priority
  originalPriority : checkPriority p.originalPriority
  counter : p.agingCounter.toNat < 15 * 2 ^ 31 ∨ p.priority = maxPriority
  running : p.state = RUNNING → p.agingCounter = 0

theorem checkPriority_iff {n : UInt32} : checkPriority n = true ↔ 1 ≤ n.toNat ∧ n.toNat ≤ 5 := by
  simp only [checkPriority, minPriority, maxPriority, ge_iff_le, decide_eq_true_eq,
    UInt32.le_iff_toNat_le]
  rfl

/-- A boost up to the highest priority. -/
theorem checkPriority_boost {original boost : UInt32} (h : checkPriority original)
    (hboost : boost.toNat ≤ 2) : checkPriority
      (if original + boost > maxPriority then maxPriority else original + boost) := by
  rw [checkPriority_iff] at h ⊢
  have hadd : (original + boost).toNat = original.toNat + boost.toNat := by
    rw [UInt32.toNat_add]
    omega
  split
  · decide
  · rename_i hle
    rw [gt_iff_lt, UInt32.lt_iff_toNat_lt, hadd] at hle
    change ¬5 < _ at hle
    rw [hadd]
    omega

/-- The boost that a counter gives, while it is below the bound. -/
theorem boostLevel_le {counter : UInt64} (h : counter.toNat < 15 * 2 ^ 31) :
    (if (counter / agingThreshold).toUInt32.toInt32 > maxAgingBoost then maxAgingBoost
      else (counter / agingThreshold).toUInt32.toInt32).toUInt32.toNat ≤ 2 := by
  split
  · decide
  · rename_i hle
    have hquot : (counter / agingThreshold).toNat < 2 ^ 31 := by
      rw [UInt64.toNat_div]
      change counter.toNat / 15 < 2 ^ 31
      omega
    have hcut : (counter / agingThreshold).toUInt32.toNat < 2 ^ 31 := by
      rw [UInt64.toNat_toUInt32]
      omega
    generalize (counter / agingThreshold).toUInt32 = n at *
    rw [gt_iff_lt, Int32.lt_iff_toInt_lt] at hle
    have hint : n.toInt32.toInt = n.toNat := by
      change n.toBitVec.toInt = n.toNat
      exact BitVec.toInt_eq_toNat_of_lt (by change 2 * n.toNat < 2 ^ 32; omega)
    rw [hint] at hle
    change ¬(2 : ℤ) < _ at hle
    change n.toNat ≤ 2
    omega

/-- At the bound the quotient is `2 ^ 31`: as an `int` the boost is negative, and
the sum is above every priority. -/
theorem boost_overflow {original : UInt32} {counter : UInt64} (h : checkPriority original)
    (hcounter : counter.toNat = 15 * 2 ^ 31) :
    original + (if (counter / agingThreshold).toUInt32.toInt32 > maxAgingBoost then maxAgingBoost
      else (counter / agingThreshold).toUInt32.toInt32).toUInt32 > maxPriority := by
  obtain rfl : counter = 32212254720 := UInt64.toNat_inj.mp hcounter
  have hboost : (if ((32212254720 : UInt64) / agingThreshold).toUInt32.toInt32 > maxAgingBoost
      then maxAgingBoost else ((32212254720 : UInt64) / agingThreshold).toUInt32.toInt32).toUInt32 =
      2147483648 := by decide
  rw [hboost, gt_iff_lt, UInt32.lt_iff_toNat_lt, UInt32.toNat_add]
  rw [checkPriority_iff] at h
  change 5 < (original.toNat + 2147483648) % 4294967296
  omega

/-- **Aging keeps the priority in range**, however long a process waits. -/
theorem age_graded (h : Graded p) (hstate : p.state ≠ RUNNING) : Graded (age p) := by
  have hnext : (p.agingCounter + 1).toNat = (p.agingCounter.toNat + 1) % 2 ^ 64 := by
    rw [UInt64.toNat_add]
    rfl
  have hmax : checkPriority p.priority → ¬p.priority < maxPriority → p.priority = maxPriority := by
    intro hcheck hge
    rw [checkPriority_iff] at hcheck
    rw [UInt32.lt_iff_toNat_lt] at hge
    change ¬p.priority.toNat < 5 at hge
    apply UInt32.toNat_inj.mp
    change _ = 5
    omega
  unfold age
  dsimp only
  split
  · rename_i hboost
    have hlow : p.agingCounter.toNat < 15 * 2 ^ 31 := by
      rcases h.counter with hlow | hmax
      · exact hlow
      · rw [hmax] at hboost
        exact absurd hboost.2 (by decide)
    by_cases hnew : (p.agingCounter + 1).toNat < 15 * 2 ^ 31
    · exact ⟨checkPriority_boost h.originalPriority (boostLevel_le hnew), h.originalPriority,
        .inl hnew, fun hrun => absurd hrun hstate⟩
    · have hbound : (p.agingCounter + 1).toNat = 15 * 2 ^ 31 := by omega
      have hfive : checkPriority maxPriority := by decide
      rw [if_pos (boost_overflow h.originalPriority hbound)]
      exact ⟨hfive, h.originalPriority, .inr rfl, fun hrun => absurd hrun hstate⟩
  · rename_i hno
    refine ⟨h.priority, h.originalPriority, ?_, fun hrun => absurd hrun hstate⟩
    by_cases hlow : p.agingCounter + 1 ≥ agingThreshold
    · exact .inr (hmax h.priority fun hlt => hno ⟨hlow, hlt⟩)
    · left
      rw [ge_iff_le, UInt64.le_iff_toNat_le] at hlow
      change ¬15 ≤ _ at hlow
      change (p.agingCounter + 1).toNat < _
      omega

/-! ## The invariant -/

/-- Every node is there, and each process that is not over has a queue. -/
structure Manned (s : Sched) : Prop where
  nodes : ∀ n, s.nodes n = true
  graded : ∀ pid, (s.processes pid).state ≠ EXITED → Graded (s.processes pid)

/-- Exactly the ready processes are in the queues, each of them once. -/
structure Queued (s : Sched) : Prop extends Manned s where
  entries : ∀ pid, s.entries pid = if (s.processes pid).state = READY then 1 else 0

theorem Queued.ready (h : s.Queued) (hi : i ∈ levels) (hpid : pid ∈ s.priorityQueues i) :
    (s.processes pid).state = READY := by
  have hpos := entries_pos hi hpid
  rw [h.entries] at hpos
  split at hpos
  · assumption
  · omega

theorem Manned.dropNode (h : s.Manned) : s.dropNode.Manned :=
  ⟨fun n => h.nodes (n + 1), h.graded⟩

theorem Manned.enqueue (h : s.Manned) : (s.enqueue pid).Manned :=
  ⟨fun n => h.nodes (n + 1), h.graded⟩

theorem Manned.schedule (h : s.Manned) : (s.schedule pid).Manned := by
  unfold Sched.schedule
  split
  · exact h.enqueue
  · exact h

theorem Manned.setProcess (h : s.Manned) (hp : p.state ≠ EXITED → Graded p) :
    (s.setProcess pid p).Manned := by
  refine ⟨h.nodes, fun other hother => ?_⟩
  by_cases heq : other = pid
  · subst heq
    rw [setProcess_self] at hother ⊢
    exact hp hother
  · rw [setProcess_of_ne heq] at hother ⊢
    exact h.graded other hother

/-- A block changes, but neither becomes ready nor stops being so. -/
theorem Queued.setProcess (h : s.Queued) (hp : p.state ≠ EXITED → Graded p)
    (hready : p.state = READY ↔ (s.processes pid).state = READY) :
    (s.setProcess pid p).Queued := by
  refine ⟨h.toManned.setProcess hp, fun other => ?_⟩
  rw [entries_setProcess, h.entries]
  by_cases hother : other = pid
  · subst hother
    rw [setProcess_self]
    exact if_congr hready.symm rfl rfl
  · rw [setProcess_of_ne hother]

/-- A process that was not ready becomes so and is put into its queue. -/
theorem Queued.schedule (h : s.Queued) (hstate : (s.processes pid).state ≠ READY)
    (hp : Graded p) (hready : p.state = READY) : ((s.setProcess pid p).schedule pid).Queued := by
  have hset : (s.setProcess pid p).Manned := h.toManned.setProcess fun _ => hp
  have hself : checkPriority ((s.setProcess pid p).processes pid).priority := by
    rw [setProcess_self]
    exact hp.priority
  refine ⟨hset.schedule, fun other => ?_⟩
  rw [entries_schedule (hset.nodes 0) hself, entries_setProcess, h.entries, schedule_processes]
  by_cases hother : other = pid
  · subst hother
    rw [setProcess_self, if_neg hstate, if_pos rfl, if_pos hready]
  · rw [setProcess_of_ne hother, if_neg hother, Nat.add_zero]

/-! ## Aging moves entries -/

/-- With every node there, all elements reach the temporary queue. -/
theorem fillTemp_manned : ∀ {q temp : List ℤ} {s : Sched}, s.Manned →
    (∀ pid ∈ q, (s.processes pid).state = READY) →
      (fillTemp q s temp).1.Manned ∧ (fillTemp q s temp).2 = temp ++ q
  | [], temp, s, h, _ => ⟨h, (List.append_nil temp).symm⟩
  | pid :: rest, temp, s, h, hready => by
      unfold fillTemp
      dsimp only
      generalize hs₁ : (if pid = 1 ∨ pid = 2 then s
        else s.setProcess pid (age (s.processes pid))) = s₁
      have hready₀ := hready pid List.mem_cons_self
      have haged : Aged s s₁ := by
        rw [← hs₁]
        split
        · exact Aged.of_processes rfl
        · exact aged_age
      have hmanned : s₁.Manned := by
        rw [← hs₁]
        split
        · exact h
        · refine h.setProcess fun _ => age_graded (h.graded pid ?_) ?_ <;> rw [hready₀] <;> decide
      have htemp : s₁.append temp pid = temp ++ [pid] := by
        unfold append
        rw [if_pos (hmanned.nodes 0)]
      have hready₁ : ∀ other ∈ rest, (s₁.dropNode.processes other).state = READY := by
        intro other hother
        rw [aged_dropNode.state, haged.state]
        exact hready other (List.mem_cons_of_mem _ hother)
      obtain ⟨hrest, hall⟩ :
          (fillTemp rest s₁.dropNode (s₁.append temp pid)).1.Manned ∧
            (fillTemp rest s₁.dropNode (s₁.append temp pid)).2 = s₁.append temp pid ++ rest :=
        fillTemp_manned hmanned.dropNode hready₁
      refine ⟨hrest, ?_⟩
      rw [hall, htemp, List.append_assoc, List.singleton_append]

/-- Each element of the temporary queue gets its entry back. -/
theorem requeue_manned : ∀ {temp : List ℤ} {s : Sched}, s.Manned →
    (∀ pid ∈ temp, (s.processes pid).state ≠ EXITED) → (requeue temp s).Manned ∧
      ∀ other, (requeue temp s).entries other = s.entries other + temp.count other
  | [], s, h, _ => ⟨h, fun _ => rfl⟩
  | pid :: rest, s, h, halive => by
      have hpid := halive pid List.mem_cons_self
      obtain ⟨hrest, hentries⟩ := requeue_manned (s := s.enqueue pid) h.enqueue
        fun other hother => halive other (List.mem_cons_of_mem _ hother)
      refine ⟨hrest, fun other => ?_⟩
      change (requeue rest (s.enqueue pid)).entries other = _
      rw [hentries, entries_enqueue (h.nodes 0) (h.graded pid hpid).priority, List.count_cons]
      simp only [beq_iff_eq, eq_comm (a := pid)]
      omega

theorem ageQueue_queued (h : s.Queued) (hi : i ∈ levels) : (s.ageQueue i).Queued := by
  have hkept : ∀ other, (s.ageQueue i).entries other = s.entries other ∧
      (s.ageQueue i).Manned := by
    intro other
    unfold ageQueue
    split
    · exact ⟨rfl, h.toManned⟩
    · split
      · exact ⟨rfl, ⟨h.nodes, h.graded⟩⟩
      · dsimp only
        have hempty : (s.dropBlock.setQueue i []).Manned := ⟨h.nodes, h.graded⟩
        generalize hfilled : fillTemp (s.priorityQueues i) (s.dropBlock.setQueue i []) [] = filled
        have hfill : filled.1.Manned ∧ filled.2 = [] ++ s.priorityQueues i := by
          rw [← hfilled]
          exact fillTemp_manned hempty fun pid hpid => h.ready hi hpid
        rw [List.nil_append] at hfill
        have hqueues : filled.1.entries other = (s.setQueue i []).entries other := by
          unfold Sched.entries
          rw [← hfilled, fillTemp_priorityQueues]
          rfl
        have halive : ∀ pid ∈ filled.2, (filled.1.processes pid).state ≠ EXITED := by
          intro pid hpid
          rw [hfill.2] at hpid
          rw [← hfilled, fillTemp_aged.state]
          change (s.processes pid).state ≠ EXITED
          rw [h.ready hi hpid]
          decide
        obtain ⟨hrequeue, hentries⟩ := requeue_manned hfill.1 halive
        have hclear := entries_update (q := s.priorityQueues) (l := []) (a := other)
          levels_nodup hi
        refine ⟨?_, hrequeue⟩
        rw [hentries, hqueues, hfill.2]
        rw [List.count_nil, Nat.add_zero] at hclear
        exact hclear
  refine ⟨(hkept 0).2, fun other => ?_⟩
  rw [(hkept other).1, h.entries, ageQueue_aged.state]

theorem applyAging_queued (h : s.Queued) : s.applyAging.Queued := by
  have hall : ∀ (is : List ℤ) {s : Sched}, (∀ i ∈ is, i ∈ levels) → s.Queued →
      (is.foldl ageQueue s).Queued := by
    intro is
    induction is with
    | nil => exact fun _ h => h
    | cons i is ih =>
        intro s hlevels h
        exact ih (fun j hj => hlevels j (List.mem_cons_of_mem _ hj))
          (ageQueue_queued h (hlevels i List.mem_cons_self))
  exact hall _ (fun _ hi => hi) h

/-! ## The context switch -/

theorem park_queued (h : s.Queued) : (s.park c).Queued := by
  unfold park
  split
  · rename_i hrun
    have hgraded := h.graded c (by rw [hrun]; decide)
    have hlow : (s.processes c).agingCounter.toNat < 15 * 2 ^ 31 := by
      rw [hgraded.running hrun]
      decide
    exact h.schedule (by rw [hrun]; decide) ⟨hgraded.originalPriority, hgraded.originalPriority,
      .inl hlow, fun hready => absurd hready (by simp)⟩ rfl
  · exact ⟨⟨h.nodes, h.graded⟩, h.entries⟩
  · exact ⟨⟨h.nodes, h.graded⟩, h.entries⟩
  · exact h

/-- The entry of the process that is chosen is taken off the queues. -/
theorem dispatch_queued {rest : List ℤ} (h : s.Queued) (hi : i ∈ levels)
    (hq : s.priorityQueues i = pid :: rest) : ((s.setQueue i rest).dispatch pid).Queued := by
  have hready : (s.processes pid).state = READY :=
    h.ready hi (by rw [hq]; exact List.mem_cons_self)
  have hgraded := h.graded pid (by rw [hready]; decide)
  have hset : ((s.setQueue i rest).setProcess pid
      { s.processes pid with state := RUNNING, agingCounter := 0 }).Manned :=
    Manned.setProcess ⟨h.nodes, h.graded⟩ fun _ =>
      ⟨hgraded.priority, hgraded.originalPriority, .inl (by simp), fun _ => rfl⟩
  refine ⟨⟨hset.nodes, hset.graded⟩, fun other => ?_⟩
  have htail : (s.setQueue i rest).entries other + (if other = pid then 1 else 0) =
      s.entries other := entries_tail hi hq
  rw [h.entries] at htail
  change (s.setQueue i rest).entries other = if (((s.setQueue i rest).setProcess pid
    { s.processes pid with state := RUNNING, agingCounter := 0 }).processes other).state = READY
      then 1 else 0
  by_cases hother : other = pid
  · subst hother
    rw [setProcess_self, if_neg (by simp)]
    rw [if_pos rfl, if_pos hready] at htail
    omega
  · rw [setProcess_of_ne hother]
    rw [if_neg hother] at htail
    exact htail

/-- **A context switch keeps the queues right.** -/
theorem switchContext_queued (h : s.Queued) : s.switchContext.Queued := by
  unfold switchContext
  split
  · split
    · exact h
    · rename_i pid s' hsome
      obtain ⟨i, hi, rest, hq, rfl⟩ := unschedule_some hsome
      exact dispatch_queued h (mem_levels hi) hq
  · rename_i c hc
    split
    · exact ⟨⟨h.nodes, h.graded⟩, h.entries⟩
    · dsimp only
      have hpark := applyAging_queued (park_queued (c := c) h)
      generalize (s.park c).applyAging = s₁ at *
      unfold nextProcess
      rcases hsome : s₁.unschedule with _ | ⟨pid, s'⟩
      · exact ⟨⟨hpark.nodes, hpark.graded⟩, hpark.entries⟩
      · obtain ⟨i, hi, rest, hq, rfl⟩ := unschedule_some hsome
        have hi := mem_levels hi
        have hready : (s₁.processes pid).state = READY :=
          hpark.ready hi (by rw [hq]; exact List.mem_cons_self)
        have hstay : ¬(((s₁.setQueue i rest).processes pid).state = BLOCKED ∨
            ((s₁.setQueue i rest).processes pid).state = EXITED) := by
          change ¬((s₁.processes pid).state = BLOCKED ∨ (s₁.processes pid).state = EXITED)
          rw [hready]
          decide
        dsimp only
        rw [if_neg hstay]
        have hdispatch := dispatch_queued hpark hi hq
        exact ⟨⟨hdispatch.nodes, hdispatch.graded⟩, hdispatch.entries⟩

/-! ## Blocking and unblocking -/

theorem Queued.flag (h : s.Queued) (isYield : Bool) :
    ({ s with isYield := isYield } : Sched).Queued :=
  ⟨⟨h.nodes, h.graded⟩, h.entries⟩

/-- Blocking is right for a process that is in no queue. -/
theorem blockProcess_queued (h : s.Queued) (hvalid : s.isValidPID pid)
    (hready : (s.processes pid).state ≠ READY) : (s.blockProcess pid).2.Queued := by
  have hgraded := h.graded pid (isValidPID_iff.mp hvalid).2.2
  have hset : (s.setState pid BLOCKED).Queued := h.setProcess (fun _ => ⟨hgraded.priority,
    hgraded.originalPriority, hgraded.counter, fun hrun => absurd hrun (by simp)⟩)
      (by simp [hready])
  rw [blockProcess_of_valid hvalid]
  split
  · exact switchContext_queued (hset.flag true)
  · exact hset

theorem blockRunning_queued (h : s.Queued) (hpid : 0 < pid ∧ pid ≤ maxPid)
    (hrun : (s.processes pid).state = RUNNING) : (s.blockProcess pid).2.Queued := by
  refine blockProcess_queued h (isValidPID_iff.mpr ⟨hpid.1, hpid.2, ?_⟩) ?_ <;> rw [hrun] <;> decide

theorem unblockProcess_queued (h : s.Queued) : (s.unblockProcess pid).2.Queued := by
  rcases unblockProcess_cases (s := s) with heq | ⟨_, _, hblocked, heq⟩ <;> rw [heq]
  · exact h
  · have hgraded := h.graded pid (by rw [hblocked]; decide)
    exact h.schedule (by rw [hblocked]; decide) ⟨hgraded.priority, hgraded.originalPriority,
      hgraded.counter, fun hrun => absurd hrun (by simp)⟩ rfl

/-- The fields of a block that do not matter to the queues. -/
theorem Queued.setWait (h : s.Queued) (waitPid : ℤ) (waitReturnValue : Int32) :
    (s.setProcess pid { s.processes pid with waitPid, waitReturnValue }).Queued := by
  refine h.setProcess (fun hp => ?_) Iff.rfl
  obtain ⟨hpriority, horiginal, hcounter, hrunning⟩ := h.graded pid hp
  exact ⟨hpriority, horiginal, hcounter, hrunning⟩

end Sched

/-! ## Every action keeps it -/

namespace Machine

variable {S S' : Machine} {a : Act} {c pid : ℤ}

theorem killStart_queued (h : S.sched.Queued) (stage : ExitStage) :
    (S.killStart pid stage).sched.Queued := by
  have hone : S.sched.entries pid ≤ 1 := by
    rw [h.entries]
    split <;> omega
  have hmanned : (S.killStart pid stage).sched.Manned :=
    Sched.Manned.setProcess ⟨h.nodes, h.graded⟩ fun hp => absurd rfl hp
  refine ⟨hmanned, fun other => ?_⟩
  change (S.sched.unscheduleProcess pid).entries other = _
  rw [Sched.entries_unscheduleProcess hone]
  by_cases hother : other = pid
  · subst hother
    rw [if_pos rfl, killStart_state]
    rfl
  · rw [if_neg hother, h.entries]
    change _ = if ((Sched.setProcess _ pid _).processes other).state = READY then 1 else 0
    rw [Sched.setProcess_of_ne hother, Sched.unscheduleProcess_processes]

theorem killWake_queued (h : S.sched.Queued) : (S.killWake pid).sched.Queued := by
  unfold killWake
  dsimp only
  split
  · exact h
  · exact (Sched.unblockProcess_queued h).setWait nonPid _

/-- **Every action keeps the queues right**, but for blocking a ready process. -/
theorem queued_does (hbase : S.Base) (h : S.sched.Queued)
    (hblock : ∀ pid, a = .block pid → (S.sched.processes pid).state ≠ READY)
    (hd : S.Does a S') : S'.sched.Queued := by
  cases hd with
  | switch => exact Sched.switchContext_queued (h.flag _)
  | blocks => exact ⟨⟨h.nodes, h.graded⟩, h.entries⟩
  | block hc hf hvalid => exact Sched.blockProcess_queued h hvalid (hblock _ rfl)
  | unblock => exact Sched.unblockProcess_queued h
  | create hpid hexited hc hp =>
      refine h.schedule (by rw [hexited]; decide)
        ⟨hp.priority, ?_, .inl ?_, fun hrun => ?_⟩ hp.state
      · rw [hp.originalPriority]
        exact hp.priority
      · rw [hp.agingCounter]
        decide
      · rw [hp.state] at hrun
        exact absurd hrun (by decide)
  | returned => exact h.setWait _ _
  | kill => exact killStart_queued h _
  | killWake => exact killWake_queued h
  | @priority c pid priority hc hpriority =>
      exact h.setProcess (fun _ => ⟨hpriority, hpriority, .inl (by simp), fun _ => rfl⟩) Iff.rfl
  | @waitBlock pid target wstatus hc hf htarget halive =>
      have hrun := hbase.running hc fun stage => by rw [hf]; simp
      have hset : (S.sched.setProcess target
          { S.sched.processes target with waitPid := pid }).Queued := h.setWait pid _
      have hstate : ((S.sched.setProcess target
          { S.sched.processes target with waitPid := pid }).processes pid).state = RUNNING := by
        by_cases heq : pid = target
        · subst heq
          rw [Sched.setProcess_self]
          exact hrun
        · rw [Sched.setProcess_of_ne heq]
          exact hrun
      exact Sched.blockRunning_queued hset (hbase.sound.current pid hc) hstate
  | waitGone => exact h
  | waitRead => exact h
  | frame => exact h
  | semCreate => exact ⟨⟨h.nodes, h.graded⟩, h.entries⟩
  | mark => exact h
  | @sleep pid semId k hc hf =>
      have hrun := hbase.running hc (Frame.working_ne_exiting hf)
      have hlist : (S.enlist pid semId).sched.Queued ∧
          (S.enlist pid semId).sched.processes = S.sched.processes := by
        rcases enlist_sched S pid semId with heq | heq <;> rw [heq]
        · exact ⟨h, rfl⟩
        · exact ⟨⟨h.toManned.dropNode, h.entries⟩, rfl⟩
      rw [← hlist.2] at hrun
      exact Sched.blockRunning_queued hlist.1 (hbase.sound.current pid hc) hrun
  | take => exact h
  | post => exact h
  | wake => exact Sched.unblockProcess_queued h
  | set => exact h
  | destroy => exact h
  | files => exact h
  | moved => exact h

/-! ## Every run keeps it -/

/-- The user only blocks processes that are not ready; PID 1 is refused. -/
def leavesReady (S : Machine) : Event → Prop
  | .call (.block pid) => pid ≠ initPid → (S.sched.processes pid).state ≠ READY
  | _ => True

theorem queued_step {e : Event} (hbase : S.Base) (h : S.sched.Queued) (hok : S.leavesReady e)
    (hstep : S.Step e S') : S'.sched.Queued := by
  by_cases hblock : ∃ pid, e = .call (.block pid)
  · -- blocking is the only action of its step, so the condition is about its own state
    obtain ⟨pid, rfl⟩ := hblock
    obtain ⟨c, _, _, hcall⟩ := step_call hstep
    rw [← Option.some.inj hcall]
    unfold sysBlock
    split
    · exact h
    · rename_i hrefused
      rw [not_or] at hrefused
      exact Sched.blockProcess_queued h (by simpa using hrefused.2) (hok hrefused.1)
  · have hboth := (step_path hbase hstep).invariant (I := fun S => S.Base ∧ S.sched.Queued)
      ⟨hbase, h⟩ fun S a S' hS ha hd => ⟨hS.1.does hd, queued_does hS.1 hS.2 (fun pid heq => by
        rw [heq] at ha
        exact absurd ⟨pid, ha.1⟩ hblock) hd⟩
    exact hboth.2

theorem queued_boot (blocks : ℕ → Bool) : (boot (fun _ => true) blocks).sched.Queued := by
  have hoff : (off (fun _ => true) blocks).sched.Queued :=
    ⟨⟨fun _ => rfl, fun _ halive => absurd rfl halive⟩, fun _ => rfl⟩
  have hboth := boot_path.invariant (I := fun S => S.Base ∧ S.sched.Queued)
    ⟨base_off, hoff⟩ fun S a S' hS ha hd => ⟨hS.1.does hd, queued_does hS.1 hS.2 (fun pid heq => by
      rw [heq] at ha
      exact absurd ha (by simp [starting])) hd⟩
  exact hboth.2

/-- `currentProcess` is the only process that runs, a ready process has exactly
one entry in the five queues, and the others have none. -/
structure QueuesExact (S : Machine) : Prop where
  running : ∀ pid, (S.sched.processes pid).state = RUNNING ↔ S.sched.currentProcess = some pid
  ready : ∀ pid, (S.sched.processes pid).state = READY → S.sched.entries pid = 1
  others : ∀ pid, (S.sched.processes pid).state ≠ READY → S.sched.entries pid = 0

/-- `switchContext` has just returned or a system call returns: the process that
has the CPU is not inside the `kill` of itself. -/
def AtReturn (S : Machine) : Prop :=
  ∀ c stage, S.sched.currentProcess = some c → S.frames c ≠ .exiting stage

/-- **The ready queues are exact in every run** in which nobody blocks a process
that is ready, whatever else happens in it. -/
theorem readyQueues_exact (blocks : ℕ → Bool) (S : Machine)
    (h : Reaches Step leavesReady (boot (fun _ => true) blocks) S) (hret : S.AtReturn) :
    S.QueuesExact := by
  obtain ⟨hbase, hqueued⟩ := h.invariant (I := fun S => S.Base ∧ S.sched.Queued)
    ⟨base_boot, queued_boot blocks⟩ fun S e S' hS hok hstep =>
      ⟨hS.1.step hstep, queued_step hS.1 hS.2 hok hstep⟩
  refine ⟨fun pid => ⟨hbase.sound.alone pid, fun hc => ?_⟩, fun pid hready => ?_,
    fun pid hready => ?_⟩
  · exact hbase.running hc fun stage => hret pid stage hc
  · rw [hqueued.entries, if_pos hready]
  · rw [hqueued.entries, if_neg hready]

/-- The shell creates a process and its time slice goes on. -/
theorem readyQueues_exact_after_create : ∃ S,
    exec step booted
      [.call (.createProcess (some workerParams)), .tick] = some S ∧
    S.sched.entries 3 = 1 ∧ S.QueuesExact := by
  obtain ⟨S, hS⟩ := Option.isSome_iff_exists.mp (by decide +kernel :
    (exec step booted
      [.call (.createProcess (some workerParams)), .tick]).isSome)
  have hrun : (exec step booted
      [.call (.createProcess (some workerParams)), .tick]).map (fun S =>
        (S.sched.entries 3, S.sched.currentProcess, S.frames 2)) = some (1, some 2, .user) := by
    decide +kernel
  rw [hS] at hrun
  simp only [Option.map_some, Option.some.injEq, Prod.mk.injEq] at hrun
  obtain ⟨hentries, hc, hf⟩ := hrun
  refine ⟨S, hS, hentries, readyQueues_exact _ S (exec_always hS (by simp [leavesReady])) ?_⟩
  intro c stage hc'
  rw [hc, Option.some.injEq] at hc'
  rw [← hc', hf]
  simp

/-- **Blocking a ready process and unblocking it queues it twice**: `blockProcess`
leaves the entry in the queue. -/
theorem readyQueues_twice : ¬∀ blocks S,
    Reaches Step always (boot (fun _ => true) blocks) S → S.AtReturn → S.QueuesExact := by
  intro hall
  obtain ⟨S, hS⟩ := Option.isSome_iff_exists.mp (by decide +kernel :
    (exec step booted
      [.call (.createProcess (some workerParams)), .call (.block 3), .call (.unblock 3)]).isSome)
  have hrun : (exec step booted
      [.call (.createProcess (some workerParams)), .call (.block 3), .call (.unblock 3)]).map
        (fun S => (S.sched.entries 3, (S.sched.processes 3).state, S.sched.currentProcess,
          S.frames 2)) = some (2, READY, some 2, .user) := by
    decide +kernel
  rw [hS] at hrun
  simp only [Option.map_some, Option.some.injEq, Prod.mk.injEq] at hrun
  obtain ⟨hentries, hready, hc, hf⟩ := hrun
  have hexact := hall _ S (exec_always hS fun _ _ _ => trivial) fun c stage hc' => by
    rw [hc, Option.some.injEq] at hc'
    rw [← hc', hf]
    simp
  have := hexact.ready 3 hready
  omega

end Machine

end BareKernel.Kernel
