import BareKernel.Kernel.HeapExhaustion

/-!
# One pass of aging

`applyAging` empties the queues one after another into a temporary queue and fills
them again, so a process that is moved up meets the pass again in a queue that is
still to come. What one queue does to the blocks and to the other queues is said
here once; how often a process is counted in a pass follows from it.
-/

namespace BareKernel.Kernel

open ProcessState

namespace Sched

variable {s s' : Sched} {p i j k : ℤ} {b : Process} {l temp is : List ℤ} {m : ℕ}

/-! ## Aging one queue -/

/-- The block of a process when the entries of a queue have been aged: PID 1 and
PID 2 are left out. -/
def visited (s : Sched) (i p : ℤ) : Process :=
  if p = 1 ∨ p = 2 then s.processes p else age^[(s.priorityQueues i).count p] (s.processes p)

theorem visited_of_notMem (h : p ∉ s.priorityQueues i) : s.visited i p = s.processes p := by
  unfold visited
  rw [List.count_eq_zero.mpr h]
  exact ite_self _

theorem visited_of_count (h : (s.priorityQueues i).count p = 1) (hp : ¬(p = 1 ∨ p = 2)) :
    s.visited i p = age (s.processes p) := by
  unfold visited
  rw [if_neg hp, h]
  rfl

/-- Each entry ages the block once. -/
theorem fillTemp_processes : ∀ {l temp : List ℤ} {s : Sched}, (fillTemp l s temp).1.processes p =
    if p = 1 ∨ p = 2 then s.processes p else age^[l.count p] (s.processes p)
  | [], _, _ => (ite_self _).symm
  | first :: rest, temp, s => by
      unfold fillTemp
      dsimp only
      rw [fillTemp_processes]
      by_cases hp : p = 1 ∨ p = 2
      · rw [if_pos hp, if_pos hp]
        split
        · rfl
        · rename_i hfirst
          have hne : p ≠ first := by
            rintro rfl
            exact hfirst hp
          exact setProcess_of_ne hne
      · rw [if_neg hp, if_neg hp]
        by_cases heq : first = p
        · subst heq
          rw [if_neg hp, List.count_cons_self, Function.iterate_succ_apply]
          change age^[rest.count first] ((s.setProcess first _).processes first) = _
          rw [setProcess_self]
        · rw [List.count_cons_of_ne heq]
          split
          · rfl
          · change age^[rest.count p] ((s.setProcess first _).processes p) = _
            rw [setProcess_of_ne (Ne.symm heq)]

/-- With a node for each element, every element goes to the end of the queue of its
priority, in order. -/
theorem requeue_queues : ∀ {temp : List ℤ} {s : Sched}, (∀ n < temp.length, s.nodes n = true) →
    (requeue temp s).priorityQueues j =
      s.priorityQueues j ++ temp.filter fun p => queueIndex (s.processes p) = j
  | [], s, _ => (List.append_nil _).symm
  | first :: rest, s, hnodes => by
      have hrest : (requeue rest (s.enqueue first)).priorityQueues j =
          (s.enqueue first).priorityQueues j ++ rest.filter fun p =>
            queueIndex (s.processes p) = j :=
        requeue_queues fun n hn => hnodes (n + 1) (Nat.succ_lt_succ hn)
      change (requeue rest (s.enqueue first)).priorityQueues j = _
      rw [hrest]
      have hfirst : (s.enqueue first).priorityQueues j = s.priorityQueues j ++
          [first].filter fun p => queueIndex (s.processes p) = j := by
        unfold enqueue
        dsimp only [append]
        rw [if_pos (hnodes 0 (Nat.succ_pos _))]
        change Function.update s.priorityQueues _ _ j = _
        by_cases heq : queueIndex (s.processes first) = j
        · subst heq
          simp
        · rw [Function.update_of_ne (Ne.symm heq)]
          simp [heq]
      rw [hfirst, List.append_assoc, ← List.filter_append, List.singleton_append]

/-- The queue is empty, or there is a temporary queue for it. -/
def Processed (s : Sched) (i : ℤ) : Prop := s.priorityQueues i = [] ∨ s.blocks 0 = true

theorem ageQueue_processes (h : s.Processed i) : (s.ageQueue i).processes p = s.visited i p := by
  unfold ageQueue
  split
  · rename_i hempty
    rw [visited_of_notMem (by rw [hempty]; exact List.not_mem_nil)]
  · rename_i hne
    rw [if_neg (not_not.mpr (h.resolve_left hne))]
    dsimp only
    rw [requeue_processes, fillTemp_processes]
    rfl

/-- **One queue is aged**: it is emptied, and each of its elements goes to the end of
the queue of its new priority. -/
theorem ageQueue_queues (h : s.Processed i) (hnodes : ∀ n < s.ageNodes i, s.nodes n = true) :
    (s.ageQueue i).priorityQueues j = (if j = i then [] else s.priorityQueues j) ++
      (s.priorityQueues i).filter fun p => queueIndex (s.visited i p) = j := by
  unfold ageQueue
  unfold ageNodes at hnodes
  split
  · rename_i hempty
    rw [hempty]
    split
    · rename_i heq
      rw [heq, hempty]
      rfl
    · exact (List.append_nil _).symm
  · rename_i hne
    have hblock := h.resolve_left hne
    rw [if_neg (not_or.mpr ⟨hne, not_not.mpr hblock⟩)] at hnodes
    rw [if_neg (not_not.mpr hblock)]
    dsimp only
    have hall : (fillTemp (s.priorityQueues i) (s.dropBlock.setQueue i []) []).2 =
        [] ++ s.priorityQueues i := fillTemp_served fun n hn => hnodes n (by omega)
    rw [List.nil_append] at hall
    rw [requeue_queues, fillTemp_priorityQueues, hall]
    · congr 1
      · change Function.update s.priorityQueues i [] j = _
        by_cases heq : j = i
        · rw [heq, Function.update_self, if_pos rfl]
        · rw [Function.update_of_ne heq, if_neg heq]
      · apply List.filter_congr
        intro q _
        rw [fillTemp_processes]
        rfl
    · intro n hn
      rw [fillTemp_nodes]
      change s.nodes (n + (s.priorityQueues i).length) = true
      apply hnodes
      omega

theorem ageQueue_skipped (h : ¬s.Processed i) : s.ageQueue i = s.dropBlock := by
  unfold Processed at h
  rw [not_or] at h
  unfold ageQueue
  rw [if_neg h.1, if_pos h.2]

/-- The block of a process that is not in the queue does not change, and it gets into
no queue. -/
theorem ageQueue_absent (h : p ∉ s.priorityQueues i) :
    (s.ageQueue i).processes p = s.processes p ∧
      ∀ j, p ∈ (s.ageQueue i).priorityQueues j → p ∈ s.priorityQueues j := by
  constructor
  · by_cases hproc : s.Processed i
    · rw [ageQueue_processes hproc, visited_of_notMem h]
    · rw [ageQueue_skipped hproc]
      rfl
  · intro j hj
    obtain ⟨k, rfl | rfl, hk⟩ := mem_ageQueue hj
    · exact hk
    · exact absurd hk h

/-! ## Each process queued once -/

/-- Each process stands at most once in the queues. -/
def Single (s : Sched) : Prop := ∀ p, s.entries p ≤ 1

theorem Single.count (h : s.Single) (hi : i ∈ levels) (hp : p ∈ s.priorityQueues i) :
    (s.priorityQueues i).count p = 1 := by
  have hle : (s.priorityQueues i).count p ≤ s.entries p := MultiQueue.count_le_entries hi
  have hpos := List.count_pos_iff.mpr hp
  have := h p
  omega

/-- A process does not stand in two queues. -/
theorem Single.unique (h : s.Single) (hi : i ∈ levels) (hj : j ∈ levels)
    (hp : p ∈ s.priorityQueues i) (hq : p ∈ s.priorityQueues j) : i = j := by
  by_contra hne
  have hclear := MultiQueue.entries_update (q := s.priorityQueues) (l := []) (a := p)
    levels_nodup hi
  have hrest : 0 < MultiQueue.entries levels (Function.update s.priorityQueues i []) p := by
    refine MultiQueue.entries_pos.mpr ⟨j, hj, ?_⟩
    rwa [Function.update_of_ne (Ne.symm hne)]
  have hfirst := List.count_pos_iff.mpr hp
  have hle : MultiQueue.entries levels s.priorityQueues p ≤ 1 := h p
  rw [List.count_nil] at hclear
  omega

/-! ## No entries are added -/

theorem enqueue_entries_le (s : Sched) (p q : ℤ) :
    (s.enqueue q).entries p ≤ s.entries p + if p = q then 1 else 0 := by
  cases hnode : s.nodes 0 with
  | false =>
      rw [entries_enqueue_of_full hnode]
      omega
  | true =>
      unfold enqueue
      dsimp only [append]
      rw [if_pos hnode]
      by_cases hlevel : queueIndex (s.processes q) ∈ levels
      · exact (MultiQueue.entries_push levels_nodup hlevel).le
      · refine le_trans (MultiQueue.entries_update_of_notMem hlevel).le ?_
        exact Nat.le_add_right _ _

theorem requeue_entries_le : ∀ {temp : List ℤ} {s : Sched},
    (requeue temp s).entries p ≤ s.entries p + temp.count p
  | [], _ => le_refl _
  | first :: rest, s => by
      have hrest : (requeue rest (s.enqueue first)).entries p ≤
          (s.enqueue first).entries p + rest.count p := requeue_entries_le
      have hfirst := enqueue_entries_le s p first
      change (requeue rest (s.enqueue first)).entries p ≤ _
      rw [List.count_cons]
      simp only [beq_iff_eq, eq_comm (a := first)]
      omega

theorem fillTemp_count_le : ∀ {l temp : List ℤ} {s : Sched},
    (fillTemp l s temp).2.count p ≤ temp.count p + l.count p
  | [], _, _ => le_refl _
  | first :: rest, temp, s => by
      unfold fillTemp
      dsimp only
      refine le_trans fillTemp_count_le ?_
      have happend : ∀ t : Sched, (t.append temp first).count p ≤
          temp.count p + [first].count p := by
        intro t
        unfold append
        split
        · exact List.count_append.le
        · exact Nat.le_add_right _ _
      have hcons : (first :: rest).count p = [first].count p + rest.count p := by
        rw [← List.singleton_append, List.count_append]
      rw [hcons, ← Nat.add_assoc]
      exact Nat.add_le_add_right (happend _) _

/-- Aging a queue adds no entries, whatever the heap answers. -/
theorem ageQueue_entries_le (hi : i ∈ levels) (p : ℤ) :
    (s.ageQueue i).entries p ≤ s.entries p := by
  unfold ageQueue
  split
  · exact le_refl _
  · split
    · exact le_refl _
    · dsimp only
      have hclear := MultiQueue.entries_update (q := s.priorityQueues) (l := []) (a := p)
        levels_nodup hi
      rw [List.count_nil, Nat.add_zero] at hclear
      refine le_trans requeue_entries_le ?_
      have hcount : (fillTemp (s.priorityQueues i) (s.dropBlock.setQueue i []) []).2.count p ≤
          0 + (s.priorityQueues i).count p := fillTemp_count_le
      have hsame : (fillTemp (s.priorityQueues i) (s.dropBlock.setQueue i []) []).1.entries p =
          MultiQueue.entries levels (Function.update s.priorityQueues i []) p := by
        unfold entries
        rw [fillTemp_priorityQueues]
        rfl
      rw [hsame]
      change _ ≤ MultiQueue.entries levels s.priorityQueues p
      omega

theorem Single.ageQueue (h : s.Single) (hi : i ∈ levels) : (s.ageQueue i).Single :=
  fun p => (ageQueue_entries_le hi p).trans (h p)

/-! ## The visits of a pass -/

/-- What the heap answers when the pass comes to a queue and asks for the temporary
queue. -/
def newQueueIn : List ℤ → Sched → ℤ → Bool
  | [], _, _ => false
  | i :: is, s, k => if i = k then s.blocks 0 else newQueueIn is (s.ageQueue i) k

def newQueueFor (s : Sched) (k : ℤ) : Bool := newQueueIn levels s k

theorem newQueueIn_false : ∀ {is : List ℤ} {s : Sched}, k ∉ is → newQueueIn is s k = false
  | [], _, _ => rfl
  | i :: is, s, h => by
      rw [List.mem_cons, not_or] at h
      unfold newQueueIn
      rw [if_neg (Ne.symm h.1), newQueueIn_false h.2]

/-- A process in none of the queues to come is not visited. -/
theorem pass_absent : ∀ {is : List ℤ} {s : Sched}, (∀ i ∈ is, p ∉ s.priorityQueues i) →
    (is.foldl ageQueue s).processes p = s.processes p
  | [], _, _ => rfl
  | i :: is, s, h => by
      obtain ⟨hblock, hqueues⟩ := ageQueue_absent (h i List.mem_cons_self)
      rw [List.foldl_cons, pass_absent, hblock]
      intro j hj hmem
      exact h j (List.mem_cons_of_mem _ hj) (hqueues j hmem)

theorem agingNodes_cons (h : ∀ n < agingNodesFrom (i :: is) s, s.nodes n = true) :
    (∀ n < s.ageNodes i, s.nodes n = true) ∧
      ∀ n < agingNodesFrom is (s.ageQueue i), (s.ageQueue i).nodes n = true := by
  unfold agingNodesFrom at h
  refine ⟨fun n hn => h n (by omega), fun n hn => ?_⟩
  rw [ageQueue_nodes]
  exact h _ (by omega)

/-- A process in another queue stays where it is. -/
theorem ageQueue_stays (hki : k ≠ i) (hk : p ∈ s.priorityQueues k)
    (hnodes : ∀ n < s.ageNodes i, s.nodes n = true) : p ∈ (s.ageQueue i).priorityQueues k := by
  by_cases hproc : s.Processed i
  · rw [ageQueue_queues hproc hnodes, if_neg hki]
    exact List.mem_append_left _ hk
  · rw [ageQueue_skipped hproc]
    exact hk

/-- **How often a pass visits a process**: once when its queue comes, and again when it
was moved up to a queue that is still to come. -/
theorem pass_visits (hp : ¬(p = 1 ∨ p = 2)) : ∀ {is : List ℤ} {s : Sched} {k : ℤ},
    is.Pairwise (· < ·) → (∀ i ∈ is, i ∈ levels) → s.Single →
      (∀ n < agingNodesFrom is s, s.nodes n = true) → k ∈ is → p ∈ s.priorityQueues k →
        ∃ m ≤ is.length, (is.foldl ageQueue s).processes p = age^[m] (s.processes p) ∧
          (newQueueIn is s k = false → m = 0) ∧
          (newQueueIn is s k = true → 1 ≤ m ∧ (m = 1 ↔
            ¬(k < queueIndex (age (s.processes p)) ∧
              newQueueIn is s (queueIndex (age (s.processes p))) = true)))
  | [], _, _, _, _, _, _, hk, _ => absurd hk List.not_mem_nil
  | i :: is, s, k, hsorted, hlevels, hsingle, hnodes, hk, hmem => by
      obtain ⟨hlow, hsorted'⟩ := List.pairwise_cons.mp hsorted
      obtain ⟨hfirst, hnodes'⟩ := agingNodes_cons hnodes
      have hlevels' : ∀ j ∈ is, j ∈ levels := fun j hj => hlevels j (List.mem_cons_of_mem _ hj)
      have hi := hlevels i List.mem_cons_self
      rw [List.foldl_cons]
      by_cases hik : i = k
      · subst hik
        have hskip : ∀ j ∈ is, p ∉ s.priorityQueues j := by
          intro j hj hother
          have heq := hsingle.unique hi (hlevels' j hj) hmem hother
          exact absurd (hlow j hj) (by omega)
        by_cases hblock : s.blocks 0 = true
        · -- the queue of the process is aged, and the process moves to its new queue
          have hproc : s.Processed i := .inr hblock
          have hblockp : (s.ageQueue i).processes p = age (s.processes p) := by
            rw [ageQueue_processes hproc, visited_of_count (hsingle.count hi hmem) hp]
          have hqueues : ∀ j, p ∈ (s.ageQueue i).priorityQueues j ↔
              j ≠ i ∧ p ∈ s.priorityQueues j ∨ queueIndex (age (s.processes p)) = j := by
            intro j
            rw [ageQueue_queues hproc hfirst, List.mem_append, List.mem_filter,
              visited_of_count (hsingle.count hi hmem) hp, decide_eq_true_eq]
            by_cases hj : j = i <;> simp [hj, hmem]
          by_cases hidx : queueIndex (age (s.processes p)) ∈ is
          · obtain ⟨m, hm, hage, hno, hyes⟩ := pass_visits hp hsorted' hlevels'
              (hsingle.ageQueue hi) hnodes' hidx ((hqueues _).mpr (.inr rfl))
            have hlt := hlow _ hidx
            have hnext : newQueueIn (i :: is) s (queueIndex (age (s.processes p))) =
                newQueueIn is (s.ageQueue i) (queueIndex (age (s.processes p))) :=
              if_neg (ne_of_lt hlt)
            refine ⟨m + 1, Nat.succ_le_succ hm, ?_, ?_, ?_⟩
            · rw [hage, hblockp, Function.iterate_succ_apply]
            · intro hfalse
              unfold newQueueIn at hfalse
              rw [if_pos rfl, hblock] at hfalse
              exact absurd hfalse (by decide)
            · intro _
              refine ⟨Nat.succ_pos m, ?_⟩
              rw [hnext]
              cases hq : newQueueIn is (s.ageQueue i) (queueIndex (age (s.processes p))) with
              | false =>
                  have := hno hq
                  simp [this]
              | true =>
                  have := (hyes hq).1
                  simp only [hlt, true_and, not_true_eq_false, iff_false]
                  omega
          · refine ⟨1, Nat.succ_le_succ (Nat.zero_le _), ?_, ?_, ?_⟩
            · rw [pass_absent, hblockp]
              · rfl
              · intro j hj hother
                rcases (hqueues j).mp hother with ⟨_, hother⟩ | rfl
                · exact hskip j hj hother
                · exact hidx hj
            · intro hfalse
              unfold newQueueIn at hfalse
              rw [if_pos rfl, hblock] at hfalse
              exact absurd hfalse (by decide)
            · intro _
              refine ⟨le_refl 1, iff_of_true rfl ?_⟩
              rintro ⟨hlt, hq⟩
              unfold newQueueIn at hq
              rw [if_neg (ne_of_lt hlt), newQueueIn_false hidx] at hq
              exact absurd hq (by decide)
        · have hproc : ¬s.Processed i := by
            rintro (hempty | hyes)
            · rw [hempty] at hmem
              exact absurd hmem List.not_mem_nil
            · exact hblock hyes
          refine ⟨0, Nat.zero_le _, ?_, fun _ => rfl, ?_⟩
          · rw [ageQueue_skipped hproc]
            exact pass_absent (s := s.dropBlock) hskip
          · intro hyes
            unfold newQueueIn at hyes
            rw [if_pos rfl] at hyes
            exact absurd hyes hblock
      · have hk' : k ∈ is := (List.mem_cons.mp hk).resolve_left (Ne.symm hik)
        have hnot : p ∉ s.priorityQueues i := fun hother =>
          hik (hsingle.unique hi (hlevels' k hk') hother hmem)
        have hsame : (s.ageQueue i).processes p = s.processes p := (ageQueue_absent hnot).1
        obtain ⟨m, hm, hage, hno, hyes⟩ := pass_visits hp hsorted' hlevels' (hsingle.ageQueue hi)
          hnodes' hk' (ageQueue_stays (Ne.symm hik) hmem hfirst)
        rw [hsame] at hage hyes
        have hnext : newQueueIn (i :: is) s k = newQueueIn is (s.ageQueue i) k := if_neg hik
        refine ⟨m, Nat.le_succ_of_le hm, hage, ?_, ?_⟩
        · rw [hnext]
          exact hno
        · rw [hnext]
          intro hq
          obtain ⟨hpos, hiff⟩ := hyes hq
          refine ⟨hpos, hiff.trans (not_congr (and_congr_right fun hlt => ?_))⟩
          have hne : i ≠ queueIndex (age (s.processes p)) := by
            have := hlow k hk'
            omega
          have hlater : newQueueIn (i :: is) s (queueIndex (age (s.processes p))) =
              newQueueIn is (s.ageQueue i) (queueIndex (age (s.processes p))) := if_neg hne
          rw [hlater]

/-! ## The boost -/

/-- The boost that a counter gives, while it is below the bound. -/
theorem boostLevel_eq {counter : UInt64} (h : counter.toNat < 15 * 2 ^ 31) :
    (if (counter / agingThreshold).toUInt32.toInt32 > maxAgingBoost then maxAgingBoost
      else (counter / agingThreshold).toUInt32.toInt32).toUInt32.toNat =
      min (counter.toNat / 15) 2 := by
  have hquot : (counter / agingThreshold).toNat = counter.toNat / 15 := UInt64.toNat_div _ _
  have hcut : (counter / agingThreshold).toUInt32.toNat = counter.toNat / 15 := by
    rw [UInt64.toNat_toUInt32, hquot, Nat.mod_eq_of_lt (by omega)]
  generalize (counter / agingThreshold).toUInt32 = n at *
  have hint : n.toInt32.toInt = n.toNat := by
    change n.toBitVec.toInt = n.toNat
    exact BitVec.toInt_eq_toNat_of_lt (by change 2 * n.toNat < 2 ^ 32; omega)
  by_cases hgt : n.toInt32 > maxAgingBoost
  · rw [if_pos hgt]
    rw [gt_iff_lt, Int32.lt_iff_toInt_lt, hint] at hgt
    change (2 : ℤ) < _ at hgt
    rw [min_eq_right (by omega)]
    rfl
  · rw [if_neg hgt]
    rw [gt_iff_lt, Int32.lt_iff_toInt_lt, hint] at hgt
    change ¬(2 : ℤ) < _ at hgt
    rw [min_eq_left (by omega)]
    exact hcut

/-- The sum of a priority and its boost, cut off at the highest priority. -/
theorem capped_toNat {n boost : UInt32} (hn : n.toNat ≤ 5) (hboost : boost.toNat ≤ 2) :
    (if n + boost > maxPriority then maxPriority else n + boost).toNat =
      min (n.toNat + boost.toNat) 5 := by
  have hadd : (n + boost).toNat = n.toNat + boost.toNat := by
    rw [UInt32.toNat_add]
    omega
  by_cases hcap : n + boost > maxPriority
  · rw [if_pos hcap]
    rw [gt_iff_lt, UInt32.lt_iff_toNat_lt, hadd] at hcap
    change 5 < _ at hcap
    rw [min_eq_right (by omega)]
    rfl
  · rw [if_neg hcap]
    rw [gt_iff_lt, UInt32.lt_iff_toNat_lt, hadd] at hcap
    change ¬5 < _ at hcap
    rw [hadd, min_eq_left (by omega)]

theorem age_agingCounter (b : Process) : (age b).agingCounter = b.agingCounter + 1 := by
  unfold age
  dsimp only
  split <;> rfl

theorem age_originalPriority (b : Process) : (age b).originalPriority = b.originalPriority := by
  unfold age
  dsimp only
  split <;> rfl

theorem age_state (b : Process) : (age b).state = b.state := by
  unfold age
  dsimp only
  split <;> rfl

/-- A counter that may still grow. -/
theorem counter_succ {b : Process} (h : b.agingCounter.toNat < 15 * 2 ^ 31) :
    (b.agingCounter + 1).toNat = b.agingCounter.toNat + 1 := by
  rw [UInt64.toNat_add]
  change (b.agingCounter.toNat + 1) % 2 ^ 64 = _
  exact Nat.mod_eq_of_lt (by omega)

/-- The priority is the highest, or what the counter makes of the original one. -/
def Boosted (b : Process) : Prop :=
  b.priority.toNat = 5 ∨ 15 ≤ b.agingCounter.toNat ∧ b.agingCounter.toNat < 15 * 2 ^ 31 ∧
    b.priority.toNat = min (b.originalPriority.toNat + min (b.agingCounter.toNat / 15) 2) 5

/-- Below the threshold, and at the highest priority, aging only counts. -/
theorem age_low (h : ¬(b.agingCounter + 1 ≥ agingThreshold ∧ b.priority < maxPriority)) :
    age b = { b with agingCounter := b.agingCounter + 1 } := by
  unfold age
  exact if_neg h

/-- From the threshold on the priority is set anew. -/
theorem age_high (hgraded : Graded b)
    (h : b.agingCounter + 1 ≥ agingThreshold ∧ b.priority < maxPriority) : Boosted (age b) := by
  have hlow : b.agingCounter.toNat < 15 * 2 ^ 31 := by
    rcases hgraded.counter with hlow | hmax
    · exact hlow
    · rw [hmax] at h
      exact absurd h.2 (by decide)
  have hsucc := counter_succ hlow
  have horiginal := checkPriority_iff.mp hgraded.originalPriority
  have hthreshold : 15 ≤ (b.agingCounter + 1).toNat := UInt64.le_iff_toNat_le.mp h.1
  unfold age
  rw [if_pos h]
  by_cases hnew : (b.agingCounter + 1).toNat < 15 * 2 ^ 31
  · right
    refine ⟨hthreshold, hnew, ?_⟩
    have hcapped := capped_toNat (by omega) (boostLevel_le hnew) (n := b.originalPriority)
    rwa [boostLevel_eq hnew] at hcapped
  · left
    dsimp only
    rw [if_pos (boost_overflow hgraded.originalPriority (by omega))]
    rfl

/-- **A boost does not fall while a process waits.** -/
theorem Boosted.age (h : Boosted b) (hgraded : Graded b) :
    Boosted (age b) ∧ b.priority.toNat ≤ (Sched.age b).priority.toNat := by
  have hpriority := checkPriority_iff.mp hgraded.priority
  by_cases hboost : b.agingCounter + 1 ≥ agingThreshold ∧ b.priority < maxPriority
  · have hnew := age_high hgraded hboost
    refine ⟨hnew, ?_⟩
    have hlow : b.priority.toNat < 5 := UInt32.lt_iff_toNat_lt.mp hboost.2
    rcases hnew with hfive | ⟨-, hbound, hvalue⟩
    · omega
    · rcases h with hfive | ⟨-, hbound', hvalue'⟩
      · omega
      · have hcount : (Sched.age b).agingCounter.toNat = b.agingCounter.toNat + 1 := by
          rw [age_agingCounter, counter_succ hbound']
        rw [hvalue, hvalue', hcount, age_originalPriority]
        omega
  · rw [age_low hboost]
    refine ⟨?_, le_refl _⟩
    rcases h with hfive | ⟨hthreshold, hbound, hvalue⟩
    · exact .inl hfive
    · -- the counter is past the threshold, so only the highest priority stays as it is
      left
      have hpast : b.agingCounter + 1 ≥ agingThreshold := by
        rw [ge_iff_le, UInt64.le_iff_toNat_le, counter_succ hbound]
        change 15 ≤ _
        omega
      have hmax : ¬b.priority < maxPriority := fun hlt => hboost ⟨hpast, hlt⟩
      rw [UInt32.lt_iff_toNat_lt] at hmax
      change ¬b.priority.toNat < 5 at hmax
      change b.priority.toNat = 5
      omega

theorem iterate_boosted : ∀ {m : ℕ} {b : Process}, Boosted b → Graded b → b.state ≠ RUNNING →
    b.priority.toNat ≤ (age^[m] b).priority.toNat
  | 0, _, _, _, _ => le_refl _
  | m + 1, b, h, hgraded, hstate => by
      obtain ⟨hboosted, hle⟩ := h.age hgraded
      have hstate' : (age b).state ≠ RUNNING := by
        rw [age_state]
        exact hstate
      rw [Function.iterate_succ_apply]
      exact hle.trans (iterate_boosted hboosted (age_graded hgraded hstate) hstate')

/-! ## One step of the counter -/

theorem iterate_age_agingCounter (b : Process) (m : ℕ) :
    (age^[m] b).agingCounter = b.agingCounter + UInt64.ofNat m := by
  induction m with
  | zero => exact (UInt64.add_zero _).symm
  | succ m ih =>
      rw [Function.iterate_succ_apply', age_agingCounter, ih, UInt64.add_assoc]
      congr 1
      apply UInt64.toNat_inj.mp
      simp

/-- A pass counts once for everybody whose queue it ages, and what it makes of the
priority comes from this one count. -/
def OneStep (s : Sched) : Prop :=
  ∀ k ∈ levels, ∀ p ∈ s.priorityQueues k, ¬(p = 1 ∨ p = 2) → s.newQueueFor k = true →
    (s.applyAging.processes p).agingCounter = (s.processes p).agingCounter + 1 ∧
      (s.applyAging.processes p).priority = (age (s.processes p)).priority

/-- Nobody is moved up to a queue that the pass ages afterwards. -/
def NobodyRises (s : Sched) : Prop :=
  ∀ k ∈ levels, ∀ p ∈ s.priorityQueues k, ¬(p = 1 ∨ p = 2) → s.newQueueFor k = true →
    ¬(k < queueIndex (age (s.processes p)) ∧
      s.newQueueFor (queueIndex (age (s.processes p))) = true)

/-- **A pass is one step exactly when nobody rises in it.** -/
theorem aging_oneStep (s : Sched) (hsingle : s.Single)
    (hnodes : ∀ n < s.agingNodes, s.nodes n = true) : s.OneStep ↔ s.NobodyRises := by
  have hpoint : ∀ k ∈ levels, ∀ p ∈ s.priorityQueues k, ¬(p = 1 ∨ p = 2) →
      s.newQueueFor k = true →
        ((s.applyAging.processes p).agingCounter = (s.processes p).agingCounter + 1 ∧
          (s.applyAging.processes p).priority = (age (s.processes p)).priority ↔
        ¬(k < queueIndex (age (s.processes p)) ∧
          s.newQueueFor (queueIndex (age (s.processes p))) = true)) := by
    intro k hk p hmem hp hserved
    obtain ⟨m, hm, hage, -, hyes⟩ := pass_visits hp (by decide) (fun _ hi => hi) hsingle hnodes
      hk hmem
    obtain ⟨-, hiff⟩ := hyes hserved
    refine Iff.trans ?_ hiff
    change ((levels.foldl ageQueue s).processes p).agingCounter = _ ∧
      ((levels.foldl ageQueue s).processes p).priority = _ ↔ _
    rw [hage, iterate_age_agingCounter]
    constructor
    · rintro ⟨hcount, -⟩
      have hone : UInt64.ofNat m = 1 := by
        have hcancel := congrArg (· - (s.processes p).agingCounter) hcount
        simpa using hcancel
      change m ≤ 5 at hm
      have hnat := congrArg UInt64.toNat hone
      rw [UInt64.toNat_ofNat', Nat.mod_eq_of_lt (by omega)] at hnat
      exact hnat
    · rintro rfl
      exact ⟨rfl, rfl⟩
  constructor
  · exact fun h k hk p hmem hp hserved =>
      (hpoint k hk p hmem hp hserved).mp (h k hk p hmem hp hserved)
  · exact fun h k hk p hmem hp hserved =>
      (hpoint k hk p hmem hp hserved).mpr (h k hk p hmem hp hserved)

/-! ## A process that rises -/

/-- PID 3 is alone in the lowest queue and has been skipped some times. -/
def skipped (times : UInt64) : Sched :=
  { Machine.booted.sched with
    processes := Function.update Machine.booted.sched.processes 3
      { Machine.emptyProcess with
        priority := 1, originalPriority := 1, state := READY, agingCounter := times }
    priorityQueues := fun i => if i = 0 then [3] else [] }

theorem skipped_single (times : UInt64) : (skipped times).Single := by
  intro p
  have hsum : (skipped times).entries p = [(3 : ℤ)].count p := by
    simp [entries, MultiQueue.entries, levels, skipped]
  rw [hsum]
  exact List.count_le_length

theorem booted_nodes : Machine.booted.sched.nodes = fun _ => true := by
  funext n
  exact (Machine.queued_boot fun _ => true).nodes n

theorem skipped_nodes (times : UInt64) (n : ℕ) : (skipped times).nodes n = true :=
  congrFun booted_nodes n

/-- The first time that it is skipped. -/
theorem aging_oneStep_first : (skipped 0).OneStep := by
  refine (aging_oneStep (skipped 0) (skipped_single 0) fun n _ => skipped_nodes 0 n).mpr ?_
  intro k hk p hmem _ _ hrise
  have hzero : k = 0 := by
    by_contra hne
    have hempty : (skipped 0).priorityQueues k = [] := if_neg hne
    rw [hempty] at hmem
    exact absurd hmem List.not_mem_nil
  subst hzero
  obtain rfl : p = 3 := List.mem_singleton.mp hmem
  exact absurd hrise.1 (by decide +kernel)

/-- **A process that is moved up is counted again**: at the fifteenth time PID 3 rises
to priority 2, and its counter is 16 when the pass is over. -/
theorem aging_twoSteps : ¬∀ s : Sched, s.Single → (∀ n < s.agingNodes, s.nodes n = true) →
    s.OneStep := by
  intro hall
  have hone := hall (skipped 14) (skipped_single 14) fun n _ => skipped_nodes 14 n
  have hstep := (hone 0 (by decide) 3 (by decide +kernel) (by decide) (by decide +kernel)).1
  exact absurd hstep (by decide +kernel)

end Sched

end BareKernel.Kernel
