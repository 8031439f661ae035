import BareKernel.Kernel.StepTrace
import BareKernel.Kernel.ReadyQueues

/-!
# When the heap is used up

`queue` returns nothing: without a node for it the element is dropped, and its
callers have changed the state of the process before. A process keeps its place
exactly when the node is there, or when it has an entry from before. The
priorities stay in range on every heap, so `schedule` never refuses a process.
-/

namespace BareKernel.Kernel

open ProcessState Runs

namespace Sched

variable {s s' : Sched} {p q c i : ℤ} {b : Process} {temp : List ℤ}

/-- Whoever is not over, or stands in a queue, has a priority in range. -/
def Ranked (s : Sched) : Prop :=
  ∀ p, ((s.processes p).state ≠ EXITED ∨ ∃ i, p ∈ s.priorityQueues i) → Graded (s.processes p)

theorem Graded.congr (h : Graded b) {b' : Process} (hpriority : b'.priority = b.priority)
    (horiginal : b'.originalPriority = b.originalPriority)
    (hcounter : b'.agingCounter = b.agingCounter)
    (hrun : b'.state = RUNNING → b.state = RUNNING) : Graded b' := by
  constructor
  · rw [hpriority]
    exact h.priority
  · rw [horiginal]
    exact h.originalPriority
  · rw [hcounter, hpriority]
    exact h.counter
  · intro hb'
    rw [hcounter]
    exact h.running (hrun hb')

/-! ## The operations keep the priorities in range -/

theorem Ranked.of_queues (h : s.Ranked) (hprocesses : s'.processes = s.processes)
    (hqueues : ∀ i, ∀ p ∈ s'.priorityQueues i, ∃ j, p ∈ s.priorityQueues j) : s'.Ranked := by
  intro p hp
  rw [hprocesses] at hp ⊢
  apply h p
  rcases hp with halive | ⟨i, hi⟩
  · exact .inl halive
  · exact .inr (hqueues i p hi)

theorem Ranked.congr (h : s.Ranked) (hprocesses : s'.processes = s.processes)
    (hqueues : s'.priorityQueues = s.priorityQueues) : s'.Ranked :=
  h.of_queues hprocesses fun i p hp => ⟨i, by rwa [← hqueues]⟩

theorem Ranked.setProcess (h : s.Ranked)
    (hb : (b.state ≠ EXITED ∨ ∃ i, q ∈ s.priorityQueues i) → Graded b) :
    (s.setProcess q b).Ranked := by
  intro p hp
  by_cases heq : p = q
  · subst heq
    rw [setProcess_self] at hp ⊢
    exact hb hp
  · rw [setProcess_of_ne heq] at hp ⊢
    exact h p hp

/-- A block changes, but neither in its priorities nor to be live or to run. -/
theorem Ranked.setBlock (h : s.Ranked) (hpriority : b.priority = (s.processes q).priority)
    (horiginal : b.originalPriority = (s.processes q).originalPriority)
    (hcounter : b.agingCounter = (s.processes q).agingCounter)
    (hrun : b.state = RUNNING → (s.processes q).state = RUNNING)
    (hlive : b.state ≠ EXITED → (s.processes q).state ≠ EXITED) : (s.setProcess q b).Ranked := by
  apply h.setProcess
  intro hq
  exact (h q (hq.imp_left hlive)).congr hpriority horiginal hcounter hrun

theorem Ranked.schedule (h : s.Ranked) (hp : Graded (s.processes p)) : (s.schedule p).Ranked := by
  intro q hq
  rw [schedule_processes] at hq ⊢
  rcases hq with halive | ⟨i, hi⟩
  · exact h q (.inl halive)
  · rcases mem_schedule hi with hmem | rfl
    · exact h q (.inr ⟨i, hmem⟩)
    · exact hp

theorem Ranked.unblockProcess (h : s.Ranked) : (s.unblockProcess p).2.Ranked := by
  rcases unblockProcess_cases (s := s) with heq | ⟨_, _, hblocked, heq⟩ <;> rw [heq]
  · exact h
  · have hlive : (s.processes p).state ≠ EXITED := by
      rw [hblocked]
      decide
    have hset : (s.setState p READY).Ranked :=
      h.setBlock rfl rfl rfl (fun hrun => absurd hrun (by simp)) fun _ => hlive
    apply hset.schedule
    apply hset p
    left
    simp

/-! ## Aging and the context switch -/

/-- While nobody runs, aging keeps every priority in range. -/
theorem fillTemp_graded {A : ℤ → Prop} : ∀ {l temp : List ℤ} {s : Sched},
    (∀ p, (s.processes p).state ≠ RUNNING) → (∀ p, A p → Graded (s.processes p)) →
      ∀ p, A p → Graded ((fillTemp l s temp).1.processes p)
  | [], _, _, _, h => h
  | first :: rest, temp, s, hrun, h => by
      unfold fillTemp
      dsimp only
      split
      · exact fillTemp_graded hrun h
      · apply fillTemp_graded
        · intro p
          rw [aged_dropNode.state, aged_age.state]
          exact hrun p
        · intro p hp
          change Graded ((s.setProcess first (age (s.processes first))).processes p)
          by_cases heq : p = first
          · subst heq
            rw [setProcess_self]
            exact age_graded (h p hp) (hrun p)
          · rw [setProcess_of_ne heq]
            exact h p hp

theorem ageQueue_graded {A : ℤ → Prop} (hrun : ∀ p, (s.processes p).state ≠ RUNNING)
    (h : ∀ p, A p → Graded (s.processes p)) : ∀ p, A p → Graded ((s.ageQueue i).processes p) := by
  unfold ageQueue
  split
  · exact h
  · split
    · exact h
    · dsimp only
      rw [requeue_processes]
      exact fillTemp_graded (s := s.dropBlock.setQueue i []) hrun h

theorem applyAging_graded {A : ℤ → Prop} (hrun : ∀ p, (s.processes p).state ≠ RUNNING)
    (h : ∀ p, A p → Graded (s.processes p)) : ∀ p, A p → Graded (s.applyAging.processes p) := by
  have hall : ∀ (is : List ℤ) {s : Sched}, (∀ p, (s.processes p).state ≠ RUNNING) →
      (∀ p, A p → Graded (s.processes p)) → ∀ p, A p →
        Graded ((is.foldl ageQueue s).processes p) := by
    intro is
    induction is with
    | nil => exact fun _ h => h
    | cons i is ih =>
        intro s hrun h
        apply ih
        · intro p
          rw [ageQueue_aged.state]
          exact hrun p
        · exact ageQueue_graded hrun h
  exact hall _ hrun h

theorem applyAging_ranked (h : s.Ranked) (hrun : ∀ p, (s.processes p).state ≠ RUNNING) :
    s.applyAging.Ranked := by
  have hall := applyAging_graded (s := s) (A := fun p => (s.processes p).state ≠ EXITED ∨
    ∃ i, p ∈ s.priorityQueues i) hrun h
  intro p hp
  apply hall p
  rcases hp with halive | ⟨i, hi⟩
  · left
    rwa [applyAging_aged.state] at halive
  · obtain ⟨j, _, hj⟩ := mem_applyAging hi
    exact .inr ⟨j, hj⟩

theorem park_ranked (h : s.Ranked) : (s.park c).Ranked := by
  unfold park
  split
  · rename_i hrun
    have hgraded := h c (.inl (by rw [hrun]; decide))
    have hlow : (s.processes c).agingCounter.toNat < 15 * 2 ^ 31 := by
      rw [hgraded.running hrun]
      decide
    have hready : Graded { s.processes c with
        state := READY, priority := (s.processes c).originalPriority } :=
      ⟨hgraded.originalPriority, hgraded.originalPriority, .inl hlow,
        fun hrun' => absurd hrun' (by simp)⟩
    apply Ranked.schedule
    · exact h.setProcess fun _ => hready
    · rw [setProcess_self]
      exact hready
  · exact h.congr rfl rfl
  · exact h.congr rfl rfl
  · exact h

theorem dispatch_ranked (h : s.Ranked) (hp : Graded (s.processes p)) : (s.dispatch p).Ranked := by
  have hset : (s.setProcess p { s.processes p with state := RUNNING, agingCounter := 0 }).Ranked :=
    h.setProcess fun _ => ⟨hp.priority, hp.originalPriority, .inl (by simp), fun _ => rfl⟩
  exact hset.congr rfl rfl

/-- **A context switch keeps the priorities in range**, whatever the heap answers. -/
theorem switchContext_ranked (h : s.Ranked) (halone : s.Alone) : s.switchContext.Ranked := by
  unfold switchContext
  split
  · split
    · exact h
    · rename_i first s' hsome
      obtain ⟨i, _, rest, hq, rfl⟩ := unschedule_some hsome
      have hset : (s.setQueue i rest).Ranked :=
        h.of_queues rfl fun j q hj => ⟨j, mem_setQueue_tail hq hj⟩
      apply dispatch_ranked hset
      exact h first (.inr ⟨i, by rw [hq]; exact List.mem_cons_self⟩)
  · rename_i c hc
    split
    · exact h.congr rfl rfl
    · have haged := applyAging_ranked (park_ranked (c := c) h) (park_state_ne halone hc)
      have hnext : (nextProcess ((s.park c).applyAging.queuedCount + 1)
          (s.park c).applyAging).Ranked :=
        haged.of_queues nextProcess_processes fun j q hj => ⟨j, mem_nextProcess hj⟩
      dsimp only
      split
      · exact hnext
      · rename_i first hfirst
        obtain ⟨hmem, _⟩ := nextProcess_some hfirst
        have hgraded : Graded ((nextProcess ((s.park c).applyAging.queuedCount + 1)
            (s.park c).applyAging).processes first) := by
          rw [nextProcess_processes]
          exact haged first (.inr hmem)
        exact (dispatch_ranked hnext hgraded).congr rfl rfl

theorem blockProcess_ranked (h : s.Ranked) (halone : s.Alone) (hvalid : s.isValidPID p) :
    (s.blockProcess p).2.Ranked := by
  have hlive := (isValidPID_iff.mp hvalid).2.2
  have hset : (s.setState p BLOCKED).Ranked :=
    h.setBlock rfl rfl rfl (fun hrun => absurd hrun (by simp)) fun _ => hlive
  rw [blockProcess_of_valid hvalid]
  split
  · have hflag : ({ s.setState p BLOCKED with isYield := true } : Sched).Ranked :=
      hset.congr rfl rfl
    apply switchContext_ranked hflag
    intro q hq
    change ((s.setState p BLOCKED).processes q).state = RUNNING at hq
    by_cases heq : q = p
    · subst heq
      exact absurd hq (by simp)
    · rw [setState, setProcess_of_ne heq] at hq
      exact halone q hq
  · exact hset

/-! ## Who keeps its place -/

/-- The process has an entry in some priority queue. -/
def InQueues (s : Sched) (p : ℤ) : Prop := ∃ i ∈ levels, p ∈ s.priorityQueues i

/-- **Scheduling a process** gives it an entry exactly when the heap has a node. -/
theorem inQueues_schedule (hp : checkPriority (s.processes p).priority) :
    (s.schedule p).InQueues p ↔ s.nodes 0 = true ∨ s.InQueues p := by
  have hcount : ∀ t : Sched, t.InQueues p ↔ 0 < t.entries p := fun t =>
    MultiQueue.entries_pos.symm
  rw [hcount, hcount]
  have heq : s.schedule p = s.enqueue p := if_pos hp
  cases hnode : s.nodes 0 with
  | true =>
      rw [entries_schedule hnode hp, if_pos rfl]
      simp
  | false =>
      rw [heq, entries_enqueue_of_full hnode]
      simp

/-- The nodes that aging one queue asks for: for the temporary queue, and for
what that holds. Each request follows the release of a node. -/
def ageNodes (s : Sched) (i : ℤ) : ℕ :=
  if s.priorityQueues i = [] ∨ ¬s.blocks 0 then 0
  else (s.priorityQueues i).length +
    (fillTemp (s.priorityQueues i) (s.dropBlock.setQueue i []) []).2.length

def agingNodesFrom : List ℤ → Sched → ℕ
  | [], _ => 0
  | i :: is, s => s.ageNodes i + agingNodesFrom is (s.ageQueue i)

/-- The nodes that `applyAging` asks for. -/
def agingNodes (s : Sched) : ℕ := agingNodesFrom levels s

theorem fillTemp_nodes : ∀ {l temp : List ℤ} {s : Sched},
    (fillTemp l s temp).1.nodes = fun n => s.nodes (n + l.length)
  | [], _, _ => rfl
  | first :: rest, temp, s => by
      unfold fillTemp
      dsimp only
      rw [fillTemp_nodes]
      funext n
      have hindex : n + (first :: rest).length = n + rest.length + 1 := by
        rw [List.length_cons]
        omega
      rw [hindex]
      split <;> rfl

/-- With a node for each element all of them reach the temporary queue. -/
theorem fillTemp_served : ∀ {l temp : List ℤ} {s : Sched}, (∀ n < l.length, s.nodes n = true) →
    (fillTemp l s temp).2 = temp ++ l
  | [], temp, _, _ => (List.append_nil temp).symm
  | first :: rest, temp, s, h => by
      unfold fillTemp
      dsimp only
      generalize hs₁ : (if first = 1 ∨ first = 2 then s
        else s.setProcess first (age (s.processes first))) = s₁
      have hnodes : s₁.nodes = s.nodes := by
        rw [← hs₁]
        split <;> rfl
      have htemp : s₁.append temp first = temp ++ [first] := by
        unfold append
        rw [hnodes, if_pos (h 0 (Nat.succ_pos _))]
      rw [fillTemp_served, htemp, List.append_assoc, List.singleton_append]
      intro n hn
      change s₁.nodes (n + 1) = true
      rw [hnodes]
      exact h (n + 1) (Nat.succ_lt_succ hn)

theorem requeue_nodes : ∀ {temp : List ℤ} {s : Sched},
    (requeue temp s).nodes = fun n => s.nodes (n + temp.length)
  | [], _ => rfl
  | first :: rest, s => by
      have hrest : (requeue rest (s.enqueue first)).nodes =
          fun n => (s.enqueue first).nodes (n + rest.length) := requeue_nodes
      change (requeue rest (s.enqueue first)).nodes = _
      rw [hrest]
      funext n
      rw [List.length_cons, ← Nat.add_assoc]
      rfl

/-- With a node for each element the temporary queue goes back, and nobody loses
a place. -/
theorem requeue_served : ∀ {temp : List ℤ} {s : Sched}, (∀ n < temp.length, s.nodes n = true) →
    (∀ q ∈ temp, checkPriority (s.processes q).priority) →
      ∀ p, (requeue temp s).InQueues p ↔ p ∈ temp ∨ s.InQueues p
  | [], s, _, _, p => by simp [requeue]
  | first :: rest, s, hnodes, hcheck, p => by
      have hfirst := hcheck first List.mem_cons_self
      have hrest : (requeue rest (s.enqueue first)).InQueues p ↔
          p ∈ rest ∨ (s.enqueue first).InQueues p :=
        requeue_served (s := s.enqueue first) (fun n hn => hnodes (n + 1) (Nat.succ_lt_succ hn))
          (fun q hq => hcheck q (List.mem_cons_of_mem _ hq)) p
      change (requeue rest (s.enqueue first)).InQueues p ↔ _
      have hcount : ∀ t : Sched, t.InQueues p ↔ 0 < t.entries p := fun t =>
        MultiQueue.entries_pos.symm
      rw [hrest, hcount, hcount, entries_enqueue (hnodes 0 (Nat.succ_pos _)) hfirst,
        List.mem_cons]
      by_cases heq : p = first
      · simp [heq]
      · simp [heq]

/-- One queue is aged, and nobody loses a place. -/
theorem ageQueue_served (h : s.Ranked) (hrun : ∀ p, (s.processes p).state ≠ RUNNING)
    (hi : i ∈ levels) (hnodes : ∀ n < s.ageNodes i, s.nodes n = true) :
    (s.ageQueue i).InQueues p ↔ s.InQueues p := by
  unfold ageNodes at hnodes
  unfold ageQueue
  by_cases hempty : s.priorityQueues i = []
  · rw [if_pos hempty]
  · rw [if_neg hempty]
    by_cases hblock : ¬s.blocks 0
    · rw [if_pos hblock]
      exact Iff.rfl
    · rw [if_neg hblock]
      rw [if_neg (not_or.mpr ⟨hempty, hblock⟩)] at hnodes
      dsimp only
      have hall : (fillTemp (s.priorityQueues i) (s.dropBlock.setQueue i []) []).2 =
          [] ++ s.priorityQueues i := fillTemp_served fun n hn => hnodes n (by omega)
      rw [List.nil_append] at hall
      have hgraded : ∀ q ∈ s.priorityQueues i, checkPriority ((fillTemp (s.priorityQueues i)
          (s.dropBlock.setQueue i []) []).1.processes q).priority := by
        intro q hq
        exact (fillTemp_graded (s := s.dropBlock.setQueue i [])
          (A := fun p => p ∈ s.priorityQueues i) hrun
          (fun p hp => h p (.inr ⟨i, hp⟩)) q hq).priority
      rw [requeue_served, hall]
      · unfold InQueues
        rw [fillTemp_priorityQueues]
        constructor
        · rintro (hmem | ⟨j, hj, hmem⟩)
          · exact ⟨i, hi, hmem⟩
          · by_cases hji : j = i
            · subst hji
              simp [setQueue] at hmem
            · unfold setQueue at hmem
              dsimp only at hmem
              rw [Function.update_of_ne hji] at hmem
              exact ⟨j, hj, hmem⟩
        · rintro ⟨j, hj, hmem⟩
          by_cases hji : j = i
          · subst hji
            exact .inl hmem
          · refine .inr ⟨j, hj, ?_⟩
            unfold setQueue
            dsimp only
            rw [Function.update_of_ne hji]
            exact hmem
      · intro n hn
        rw [fillTemp_nodes]
        change s.nodes (n + (s.priorityQueues i).length) = true
        apply hnodes
        omega
      · rw [hall]
        exact hgraded

theorem ageQueue_ranked (h : s.Ranked) (hrun : ∀ p, (s.processes p).state ≠ RUNNING) :
    (s.ageQueue i).Ranked := by
  have hall := ageQueue_graded (i := i) (A := fun p => (s.processes p).state ≠ EXITED ∨
    ∃ i, p ∈ s.priorityQueues i) hrun h
  intro p hp
  apply hall p
  rcases hp with halive | ⟨j, hj⟩
  · left
    rwa [ageQueue_aged.state] at halive
  · obtain ⟨k, _, hk⟩ := mem_ageQueue hj
    exact .inr ⟨k, hk⟩

theorem ageQueue_nodes : (s.ageQueue i).nodes = fun n => s.nodes (n + s.ageNodes i) := by
  unfold ageQueue ageNodes
  by_cases hempty : s.priorityQueues i = []
  · rw [if_pos hempty, if_pos (.inl hempty)]
    rfl
  · rw [if_neg hempty]
    by_cases hblock : ¬s.blocks 0
    · rw [if_pos hblock, if_pos (.inr hblock)]
      rfl
    · rw [if_neg hblock, if_neg (not_or.mpr ⟨hempty, hblock⟩)]
      dsimp only
      rw [requeue_nodes]
      funext n
      rw [fillTemp_nodes]
      change s.nodes _ = s.nodes _
      congr 1
      omega

/-- **Aging takes nobody's place**, as long as each node it releases can be had again. -/
theorem applyAging_served (h : s.Ranked) (hrun : ∀ p, (s.processes p).state ≠ RUNNING)
    (hnodes : ∀ n < s.agingNodes, s.nodes n = true) : s.applyAging.InQueues p ↔ s.InQueues p := by
  have hall : ∀ (is : List ℤ) {s : Sched}, (∀ i ∈ is, i ∈ levels) → s.Ranked →
      (∀ p, (s.processes p).state ≠ RUNNING) → (∀ n < agingNodesFrom is s, s.nodes n = true) →
        ((is.foldl ageQueue s).InQueues p ↔ s.InQueues p) := by
    intro is
    induction is with
    | nil => exact fun _ _ _ _ => Iff.rfl
    | cons i is ih =>
        intro s hlevels h hrun hnodes
        unfold agingNodesFrom at hnodes
        have hrest := ih (s := s.ageQueue i) (fun j hj => hlevels j (List.mem_cons_of_mem _ hj))
          (ageQueue_ranked h hrun) (fun p => by rw [ageQueue_aged.state]; exact hrun p)
          (fun n hn => by
            rw [ageQueue_nodes]
            exact hnodes _ (by omega))
        exact hrest.trans (ageQueue_served h hrun (hlevels i List.mem_cons_self)
          fun n hn => hnodes n (by omega))
  exact hall levels (fun _ hi => hi) h hrun hnodes

/-- The search takes off the process that is chosen, and such as are blocked or over. -/
theorem nextProcess_keeps : ∀ {fuel : ℕ} {s : Sched}, s.InQueues p →
    (s.processes p).state ≠ BLOCKED → (s.processes p).state ≠ EXITED →
      (nextProcess fuel s).currentProcess ≠ some p → (nextProcess fuel s).InQueues p
  | 0, _, h, _, _, _ => h
  | fuel + 1, s, ⟨i, hi, hmem⟩, hblocked, hexited, hother => by
      unfold nextProcess at hother ⊢
      split at hother
      · exact ⟨i, hi, hmem⟩
      · rename_i first s' hsome
        obtain ⟨j, _, rest, hq, rfl⟩ := unschedule_some hsome
        have hkept : p ≠ first → (s.setQueue j rest).InQueues p := by
          intro hne
          refine ⟨i, hi, ?_⟩
          unfold setQueue
          dsimp only
          by_cases hij : i = j
          · subst hij
            rw [hq] at hmem
            rw [Function.update_self]
            exact (List.mem_cons.mp hmem).resolve_left hne
          · rw [Function.update_of_ne hij]
            exact hmem
        split at hother
        · rename_i hskip
          rw [if_pos hskip]
          have hne : p ≠ first := by
            rintro rfl
            exact hskip.elim hblocked hexited
          exact nextProcess_keeps (hkept hne) hblocked hexited hother
        · rename_i hskip
          rw [if_neg hskip]
          refine hkept ?_
          rintro rfl
          exact hother rfl

theorem park_running (hrun : (s.processes c).state = RUNNING) : s.park c = (s.setProcess c
    { s.processes c with state := READY, priority := (s.processes c).originalPriority }).schedule
      c := by
  unfold park
  rw [hrun]

/-- The process that ran is queued again exactly when the heap has a node. -/
theorem park_inQueues (h : s.Ranked) (hrun : (s.processes c).state = RUNNING) :
    ((s.park c).InQueues c ↔ s.nodes 0 = true ∨ s.InQueues c) ∧
      (s.park c).nodes = fun n => s.nodes (n + 1) := by
  have hcheck : checkPriority ((s.setProcess c { s.processes c with
      state := READY, priority := (s.processes c).originalPriority }).processes c).priority := by
    rw [setProcess_self]
    exact (h c (.inl (by rw [hrun]; decide))).originalPriority
  rw [park_running hrun]
  refine ⟨inQueues_schedule hcheck, ?_⟩
  have heq : ∀ t : Sched, checkPriority (t.processes c).priority → t.schedule c = t.enqueue c :=
    fun _ ht => if_pos ht
  rw [heq _ hcheck]
  rfl

/-- Whoever ran and is ready after a switch was parked, and its time slice was over. -/
theorem switchContext_parks (hc : s.currentProcess = some c)
    (hrun : (s.processes c).state = RUNNING)
    (hready : (s.switchContext.processes c).state = READY) :
    (nextProcess ((s.park c).applyAging.queuedCount + 1) (s.park c).applyAging).currentProcess ≠
        some c ∧
      s.switchContext.priorityQueues = (nextProcess ((s.park c).applyAging.queuedCount + 1)
        (s.park c).applyAging).priorityQueues := by
  unfold switchContext at hready ⊢
  rw [hc] at hready ⊢
  dsimp only at hready ⊢
  split at hready
  · change (s.processes c).state = READY at hready
    rw [hrun] at hready
    exact absurd hready (by decide)
  · rename_i hover
    rw [if_neg hover]
    split at hready
    · rename_i hnone
      rw [hnone]
      exact ⟨by simp, rfl⟩
    · rename_i first hfirst
      rw [hfirst]
      refine ⟨?_, rfl⟩
      intro heq
      obtain rfl := Option.some.inj heq
      simp [dispatch] at hready

/-- **A switch keeps the place of the process that ran** exactly when the heap has
a node for it. -/
theorem inQueues_switchContext (h : s.Ranked) (halone : s.Alone)
    (hc : s.currentProcess = some c) (hrun : (s.processes c).state = RUNNING)
    (hready : (s.switchContext.processes c).state = READY)
    (hserved : ∀ n < (s.park c).agingNodes, s.nodes (n + 1) = true) :
    s.switchContext.InQueues c ↔ s.nodes 0 = true ∨ s.InQueues c := by
  obtain ⟨hpark, hnodes⟩ := park_inQueues h hrun
  obtain ⟨hother, hqueues⟩ := switchContext_parks hc hrun hready
  have haging := applyAging_served (p := c) (park_ranked (c := c) h) (park_state_ne halone hc)
    fun n hn => by
      rw [hnodes]
      exact hserved n hn
  rw [← hpark, ← haging]
  unfold InQueues at *
  rw [hqueues]
  constructor
  · rintro ⟨i, hi, hmem⟩
    exact ⟨i, hi, mem_nextProcess hmem⟩
  · intro hmem
    have hstate : ((s.park c).applyAging.processes c).state = READY := by
      rw [applyAging_aged.state, park_running hrun, schedule_processes, setProcess_self]
    apply nextProcess_keeps hmem
    · rw [hstate]
      decide
    · rw [hstate]
      decide
    · exact hother

/-- Without a node for it, and without an entry from before, it loses its place
whatever the heap answers later. -/
theorem switchContext_loses (h : s.Ranked) (hc : s.currentProcess = some c)
    (hrun : (s.processes c).state = RUNNING)
    (hready : (s.switchContext.processes c).state = READY) (hin : s.switchContext.InQueues c) :
    s.nodes 0 = true ∨ s.InQueues c := by
  obtain ⟨hpark, _⟩ := park_inQueues h hrun
  obtain ⟨_, hqueues⟩ := switchContext_parks hc hrun hready
  rw [← hpark]
  obtain ⟨i, hi, hmem⟩ := hin
  rw [hqueues] at hmem
  obtain ⟨j, hj, hpark⟩ := mem_applyAging (mem_nextProcess hmem)
  rcases hj with rfl | hj
  · exact ⟨j, hi, hpark⟩
  · exact ⟨j, hj, hpark⟩

end Sched

namespace Machine

variable {S S' : Machine} {a : Act} {e : Event} {c p : ℤ} {semId : ℕ}

/-! ## Every run keeps the priorities in range -/

/-- **Every action keeps the priorities in range**, whatever the heap answers. -/
theorem ranked_does (hbase : S.Base) (h : S.sched.Ranked) (hd : S.Does a S') :
    S'.sched.Ranked := by
  cases hd with
  | @switch isYield =>
      have hflag : ({ S.sched with isYield := isYield } : Sched).Ranked := h.congr rfl rfl
      exact Sched.switchContext_ranked hflag hbase.sound.alone
  | blocks => exact h.congr rfl rfl
  | block _ _ hvalid => exact Sched.blockProcess_ranked h hbase.sound.alone hvalid
  | unblock => exact h.unblockProcess
  | @create q b hpid hexited hc hb =>
      have hgraded : Sched.Graded b := by
        refine ⟨hb.priority, ?_, .inl ?_, ?_⟩
        · rw [hb.originalPriority]
          exact hb.priority
        · rw [hb.agingCounter]
          decide
        · intro hrun
          rw [hb.state] at hrun
          exact absurd hrun (by decide)
      have hset : (S.sched.setProcess q b).Ranked := h.setProcess fun _ => hgraded
      apply hset.schedule
      rw [Sched.setProcess_self]
      exact hgraded
  | returned => exact h.setBlock rfl rfl rfl id id
  | @kill c q stage hc hq halive =>
      have hoff : (S.sched.unscheduleProcess q).Ranked :=
        h.of_queues rfl fun i r hr => ⟨i, Sched.mem_unscheduleProcess hr⟩
      exact hoff.setBlock rfl rfl rfl (fun hrun => absurd hrun (by simp))
        fun habs => absurd rfl habs
  | killWake =>
      unfold Machine.killWake
      dsimp only
      split
      · exact h
      · exact h.unblockProcess.setBlock rfl rfl rfl id id
  | @priority c q priority hc hpriority =>
      exact h.setProcess fun _ => ⟨hpriority, hpriority, .inl (by simp), fun _ => rfl⟩
  | @waitBlock q target wstatus hc hf htarget halive =>
      have hset : (S.sched.setProcess target
          { S.sched.processes target with waitPid := q }).Ranked := h.setBlock rfl rfl rfl id id
      have halone : (S.sched.setProcess target
          { S.sched.processes target with waitPid := q }).Alone := by
        refine (hbase.sound.setProcess hc ?_).alone
        exact id
      exact Sched.blockProcess_ranked hset halone (waitFor_valid hbase hc hf target)
  | @sleep q semId k hc hf hvalue hwaiting hin =>
      have hlist : (S.enlist q semId).sched.Ranked ∧ (S.enlist q semId).sched.Alone := by
        rcases enlist_sched S q semId with heq | heq <;> rw [heq]
        · exact ⟨h, hbase.sound.alone⟩
        · exact ⟨h.congr rfl rfl, hbase.sound.alone⟩
      exact Sched.blockProcess_ranked hlist.1 hlist.2 (enlist_valid hbase hc hf semId)
  | wake => exact h.unblockProcess
  | semCreate => exact h.congr rfl rfl
  | _ => exact h

theorem ranked_boot (nodes blocks : ℕ → Bool) : (boot nodes blocks).sched.Ranked := by
  have hoff : (off nodes blocks).sched.Ranked := by
    rintro p (halive | ⟨i, hi⟩)
    · exact absurd rfl halive
    · exact absurd hi List.not_mem_nil
  exact (boot_path.invariant (I := fun M => M.Base ∧ M.sched.Ranked) ⟨base_off, hoff⟩
    fun _ _ _ hM _ hd => ⟨hM.1.does hd, ranked_does hM.1 hM.2 hd⟩).2

theorem ranked_step (hbase : S.Base) (h : S.sched.Ranked) (hstep : S.Step e S') :
    S'.sched.Ranked :=
  ((step_path hbase hstep).invariant (I := fun M => M.Base ∧ M.sched.Ranked) ⟨hbase, h⟩
    fun _ _ _ hM _ hd => ⟨hM.1.does hd, ranked_does hM.1 hM.2 hd⟩).2

/-! ## The operations on any heap -/

/-- No operation loses a process silently: what succeeds leaves the process in a
queue, and what fails leaves its state as it was. -/
structure PlacesKept (S : Machine) : Prop where
  created : ∀ params p S', S.createProcess params = (p, S') → 0 < p → S'.sched.InQueues p
  unblocked : ∀ p s', S.sched.unblockProcess p = (0, s') → s'.InQueues p
  switched : ∀ c, S.sched.currentProcess = some c → (S.sched.processes c).state = RUNNING →
    ∀ isYield, (({ S.sched with isYield } : Sched).switchContext.processes c).state = READY →
      ({ S.sched with isYield } : Sched).switchContext.InQueues c
  slept : ∀ p semId k S', S.semWaitLoop p semId k = some (false, S') → S'.Listed p semId
  notCreated : ∀ params p S', S.createProcess params = (p, S') → ¬0 < p →
    S'.sched.processes = S.sched.processes ∧ S'.sched.priorityQueues = S.sched.priorityQueues
  notUnblocked : ∀ p r s', S.sched.unblockProcess p = (r, s') → r ≠ 0 → s' = S.sched

/-- When the operations keep a process in a queue. The requests for nodes that a
switch makes while it ages the queues each follow the release of a node.
`switched` speaks of heaps that give such a node again, as both managers do
(`node_again`). -/
structure PlacesByNode (S : Machine) : Prop where
  created : ∀ params p S', S.createProcess params = (p, S') → 0 < p →
    (S'.sched.InQueues p ↔ S.sched.nodes 0 = true ∨ S.sched.InQueues p)
  unblocked : ∀ p s', S.sched.unblockProcess p = (0, s') →
    (s'.InQueues p ↔ S.sched.nodes 0 = true ∨ S.sched.InQueues p)
  switched : ∀ c, S.sched.currentProcess = some c → (S.sched.processes c).state = RUNNING →
    ∀ isYield, (({ S.sched with isYield } : Sched).switchContext.processes c).state = READY →
      (∀ n < (({ S.sched with isYield } : Sched).park c).agingNodes,
        S.sched.nodes (n + 1) = true) →
        (({ S.sched with isYield } : Sched).switchContext.InQueues c ↔
          S.sched.nodes 0 = true ∨ S.sched.InQueues c)
  lost : ∀ c, S.sched.currentProcess = some c → (S.sched.processes c).state = RUNNING →
    ∀ isYield, (({ S.sched with isYield } : Sched).switchContext.processes c).state = READY →
      S.sched.nodes 0 = false → ¬S.sched.InQueues c →
        ¬({ S.sched with isYield } : Sched).switchContext.InQueues c
  slept : ∀ p semId k S', S.semWaitLoop p semId k = some (false, S') →
    (S'.Listed p semId ↔ ∃ q, (S.sems.sems semId).waiting = .queue q ∧
      (S.sched.nodes 0 = true ∨ p ∈ q))
  notCreated : ∀ params p S', S.createProcess params = (p, S') → ¬0 < p →
    S'.sched.processes = S.sched.processes ∧ S'.sched.priorityQueues = S.sched.priorityQueues
  notUnblocked : ∀ p r s', S.sched.unblockProcess p = (r, s') → r ≠ 0 → s' = S.sched

theorem created_inQueues {params : Option CreationParameters}
    (h : S.createProcess params = (p, S')) (hpos : 0 < p) :
    S'.sched.InQueues p ↔ S.sched.nodes 0 = true ∨ S.sched.InQueues p := by
  obtain ⟨_, _, outcomes, b, hb, rfl⟩ := createProcess_pos h hpos
  have hcheck :
      checkPriority ((({ S.sched with blocks := outcomes } : Sched).setProcess p b).processes
      p).priority := by
    rw [Sched.setProcess_self]
    exact hb.priority
  exact Sched.inQueues_schedule hcheck

theorem unblocked_inQueues {s' : Sched} (h : S.sched.Ranked)
    (hun : S.sched.unblockProcess p = (0, s')) :
    s'.InQueues p ↔ S.sched.nodes 0 = true ∨ S.sched.InQueues p := by
  unfold Sched.unblockProcess at hun
  split at hun
  · exact absurd (congrArg Prod.fst hun) (by simp)
  · rename_i found hfound
    obtain ⟨rfl, _, _, hlive⟩ := Sched.getProcess_some hfound
    split at hun
    · exact absurd (congrArg Prod.fst hun) (by simp)
    · obtain ⟨_, rfl⟩ := Prod.mk.inj hun
      have hcheck : checkPriority ((S.sched.setState found READY).processes found).priority := by
        rw [Sched.setState, Sched.setProcess_self]
        exact (h found (.inl hlive)).priority
      exact Sched.inQueues_schedule hcheck

theorem slept_listed {k : AfterWait} (h : S.semWaitLoop p semId k = some (false, S')) :
    S'.Listed p semId ↔ ∃ q, (S.sems.sems semId).waiting = .queue q ∧
      (S.sched.nodes 0 = true ∨ p ∈ q) := by
  rcases semWaitLoop_cases h with ⟨_, _, hfreed, rfl⟩ | ⟨habs, _⟩
  · have hsems : (S.fallAsleep p semId k).sems = (S.enlist p semId).sems := rfl
    unfold Listed
    rw [hsems]
    unfold enlist
    split
    · rename_i q hq
      simp only [onSched_sems, setSem_sems, SemTable.setSem_sems_self, WaitQueue.queue.injEq,
        exists_eq_left']
      rw [hq]
      simp only [WaitQueue.queue.injEq, exists_eq_left']
      unfold Sched.append
      cases S.sched.nodes 0 <;> simp
    · rename_i hno
      constructor
      · rintro ⟨q, hq, _⟩
        exact absurd hq (hno q)
      · rintro ⟨q, hq, _⟩
        exact absurd hq (hno q)
  · exact absurd habs (by simp)

theorem notCreated_same {params : Option CreationParameters}
    (h : S.createProcess params = (p, S')) (hneg : ¬0 < p) :
    S'.sched.processes = S.sched.processes ∧ S'.sched.priorityQueues = S.sched.priorityQueues := by
  unfold createProcess at h
  cases params with
  | none =>
      obtain ⟨_, rfl⟩ := Prod.mk.inj h
      exact ⟨rfl, rfl⟩
  | some params =>
      dsimp only at h
      split at h
      · obtain ⟨_, rfl⟩ := Prod.mk.inj h
        exact ⟨rfl, rfl⟩
      · split at h
        · obtain ⟨_, rfl⟩ := Prod.mk.inj h
          exact ⟨rfl, rfl⟩
        · obtain ⟨outcomes, hblocks⟩ := allocBlocks_eq (n := neededBlocks params) (s := S.sched)
          split at h
          · rename_i s hs
            obtain rfl : s = { S.sched with blocks := outcomes } := by rw [← hblocks, hs]
            obtain ⟨_, rfl⟩ := Prod.mk.inj h
            exact ⟨rfl, rfl⟩
          · rename_i s hs
            obtain rfl : s = { S.sched with blocks := outcomes } := by rw [← hblocks, hs]
            split at h
            · obtain ⟨_, rfl⟩ := Prod.mk.inj h
              exact ⟨rfl, rfl⟩
            · rename_i found hfound
              obtain ⟨rfl, _⟩ := Prod.mk.inj h
              exact absurd (getFreeProcess_some hfound).1.1 hneg

theorem notUnblocked_same {s s' : Sched} {r : Int32} (h : s.unblockProcess p = (r, s'))
    (hr : r ≠ 0) : s' = s := by
  unfold Sched.unblockProcess at h
  split at h
  · exact (congrArg Prod.snd h).symm
  · split at h
    · exact (congrArg Prod.snd h).symm
    · exact absurd (congrArg Prod.fst h).symm hr

/-- **A process keeps its place exactly when the heap has a node for it**, or when
it has an entry already, in every state that any run reaches on any heap. -/
theorem places_byNode (nodes blocks : ℕ → Bool) (S : Machine)
    (h : Reaches Step always (boot nodes blocks) S) : S.PlacesByNode := by
  obtain ⟨hbase, hranked⟩ := h.invariant (I := fun S => S.Base ∧ S.sched.Ranked)
    ⟨base_boot, ranked_boot nodes blocks⟩ fun S e S' hS _ hstep =>
      ⟨hS.1.step hstep, ranked_step hS.1 hS.2 hstep⟩
  have hflag : ∀ isYield, ({ S.sched with isYield } : Sched).Ranked :=
    fun _ => hranked.congr rfl rfl
  constructor
  · exact fun params p S' hcreate hpos => created_inQueues hcreate hpos
  · exact fun p s' hun => unblocked_inQueues hranked hun
  · intro c hc hrun isYield hready hserved
    exact Sched.inQueues_switchContext (hflag isYield) hbase.sound.alone hc hrun hready hserved
  · intro c hc hrun isYield hready hnode hout hin
    rcases Sched.switchContext_loses (hflag isYield) hc hrun hready hin with hyes | hbefore
    · have hno : ({ S.sched with isYield } : Sched).nodes 0 = false := hnode
      rw [hyes] at hno
      exact absurd hno (by decide)
    · exact hout hbefore
  · exact fun p semId k S' hsleep => slept_listed hsleep
  · exact fun params p S' hcreate hneg => notCreated_same hcreate hneg
  · exact fun p r s' hun hr => notUnblocked_same hun hr

/-- A heap that has the two nodes that boot needs, and then no more. -/
def scarce : ℕ → Bool := fun n => n < 2

/-- On it the shell creates a process. -/
theorem places_byNode_scarce : ∃ S, exec step (boot scarce fun _ => true)
    [.call (.createProcess (some workerParams))] = some S ∧ S.PlacesByNode := by
  obtain ⟨S, hS⟩ := Option.isSome_iff_exists.mp (by decide +kernel :
    (exec step (boot scarce fun _ => true) [.call (.createProcess (some workerParams))]).isSome)
  exact ⟨S, hS, places_byNode scarce (fun _ => true) S (exec_always hS fun _ _ _ => trivial)⟩

/-- **A process that was created may stand nowhere**: PID 3 is returned, and no
queue has it. -/
theorem places_lost : ¬∀ nodes blocks S,
    Reaches Step always (boot nodes blocks) S → S.PlacesKept := by
  intro hall
  have hkept := hall scarce (fun _ => true) _ (Reaches.refl _)
  have hpid : ((boot scarce fun _ => true).createProcess (some workerParams)).1 = 3 := by
    decide +kernel
  have hnone : ¬∃ i ∈ Sched.levels, 3 ∈ ((boot scarce fun _ => true).createProcess
      (some workerParams)).2.sched.priorityQueues i := by
    decide +kernel
  exact hnone (hkept.created (some workerParams) 3 _ (Prod.ext hpid rfl) (by decide))

end Machine

end BareKernel.Kernel
