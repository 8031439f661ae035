import BareKernel.Kernel.Scheduler

/-!
# What the scheduler leaves alone

The queues, the priorities and the choice of a process change with every
context switch. Which processes are blocked and which are over does not, and
neither does who waits for whom.
-/

namespace BareKernel.Kernel

open ProcessState

namespace Sched

variable {s s' s'' : Sched} {pid c i : ℤ} {p : Process} {q : List ℤ} {st : ProcessState}

/-! ## Fields -/

@[simp] theorem setProcess_self : (s.setProcess pid p).processes pid = p :=
  Function.update_self _ _ _

theorem setProcess_of_ne {other : ℤ} (h : other ≠ pid) :
    (s.setProcess pid p).processes other = s.processes other :=
  Function.update_of_ne h _ _

@[simp] theorem setProcess_priorityQueues :
    (s.setProcess pid p).priorityQueues = s.priorityQueues := rfl

@[simp] theorem setProcess_currentProcess :
    (s.setProcess pid p).currentProcess = s.currentProcess := rfl

@[simp] theorem setProcess_nodes : (s.setProcess pid p).nodes = s.nodes := rfl

@[simp] theorem setProcess_blocks : (s.setProcess pid p).blocks = s.blocks := rfl

@[simp] theorem enqueue_processes : (s.enqueue pid).processes = s.processes := rfl

@[simp] theorem enqueue_currentProcess : (s.enqueue pid).currentProcess = s.currentProcess := rfl

@[simp] theorem schedule_processes : (s.schedule pid).processes = s.processes := by
  unfold schedule
  split <;> rfl

@[simp] theorem schedule_currentProcess :
    (s.schedule pid).currentProcess = s.currentProcess := by
  unfold schedule
  split <;> rfl

@[simp] theorem schedule_blocks : (s.schedule pid).blocks = s.blocks := by
  unfold schedule
  split <;> rfl

@[simp] theorem unscheduleProcess_processes :
    (s.unscheduleProcess pid).processes = s.processes := rfl

@[simp] theorem unscheduleProcess_currentProcess :
    (s.unscheduleProcess pid).currentProcess = s.currentProcess := rfl

@[simp] theorem setState_state : ((s.setState pid st).processes pid).state = st := by
  simp [setState]

/-! ## Who is in the queues -/

/-- The indices of the priority queues. -/
def levels : List ℤ := [0, 1, 2, 3, 4]

theorem mem_append {other : ℤ} (h : other ∈ s.append q pid) : other ∈ q ∨ other = pid := by
  unfold append at h
  split at h
  · simpa using h
  · exact .inl h

/-- Every entry was there, or is that of `pid`. -/
theorem mem_enqueue {other : ℤ} (h : other ∈ (s.enqueue pid).priorityQueues i) :
    other ∈ s.priorityQueues i ∨ other = pid := by
  unfold enqueue at h
  dsimp only [setQueue, dropNode] at h
  by_cases hi : i = queueIndex (s.processes pid)
  · subst hi
    rw [Function.update_self] at h
    exact mem_append h
  · rw [Function.update_of_ne hi] at h
    exact .inl h

theorem mem_schedule {other : ℤ} (h : other ∈ (s.schedule pid).priorityQueues i) :
    other ∈ s.priorityQueues i ∨ other = pid := by
  unfold schedule at h
  split at h
  · exact mem_enqueue h
  · exact .inl h

theorem mem_unscheduleProcess {other : ℤ} (h : other ∈ (s.unscheduleProcess pid).priorityQueues i) :
    other ∈ s.priorityQueues i := by
  unfold unscheduleProcess at h
  dsimp only at h
  split at h
  · exact List.mem_of_mem_erase h
  · exact h

/-- What `unschedule` takes off and leaves. -/
theorem unscheduleFrom_some : ∀ {is : List ℤ}, s.unscheduleFrom is = some (pid, s') →
    ∃ i ∈ is, ∃ rest, s.priorityQueues i = pid :: rest ∧ s' = s.setQueue i rest
  | [], h => by simp [unscheduleFrom] at h
  | i :: is, h => by
      unfold unscheduleFrom at h
      split at h
      · obtain ⟨j, hj, rest, hq, hs⟩ := unscheduleFrom_some h
        exact ⟨j, List.mem_cons_of_mem _ hj, rest, hq, hs⟩
      · rename_i first rest hq
        simp only [Option.some.injEq, Prod.mk.injEq] at h
        obtain ⟨rfl, rfl⟩ := h
        exact ⟨i, List.mem_cons_self, rest, hq, rfl⟩

theorem unscheduleFrom_none : ∀ {is : List ℤ}, s.unscheduleFrom is = none ↔
    ∀ i ∈ is, s.priorityQueues i = []
  | [] => by simp [unscheduleFrom]
  | i :: is => by
      unfold unscheduleFrom
      split
      · rename_i hq
        rw [unscheduleFrom_none]
        simp [hq]
      · rename_i first rest hq
        simp [hq]

theorem unschedule_some (h : s.unschedule = some (pid, s')) :
    ∃ i ∈ [4, 3, 2, 1, 0], ∃ rest, s.priorityQueues i = pid :: rest ∧ s' = s.setQueue i rest :=
  unscheduleFrom_some h

theorem mem_setQueue_tail {other j : ℤ} {rest : List ℤ} (hq : s.priorityQueues i = pid :: rest)
    (h : other ∈ (s.setQueue i rest).priorityQueues j) : other ∈ s.priorityQueues j := by
  unfold setQueue at h
  dsimp only at h
  by_cases hj : j = i
  · subst hj
    rw [Function.update_self] at h
    rw [hq]
    exact List.mem_cons_of_mem _ h
  · rwa [Function.update_of_ne hj] at h

/-! ## Quiet changes -/

/-- The CPU and the queues may change, and what goes with them. -/
structure Quiet (s s' : Sched) : Prop where
  blocked : ∀ p, (s'.processes p).state = BLOCKED ↔ (s.processes p).state = BLOCKED
  exited : ∀ p, (s'.processes p).state = EXITED ↔ (s.processes p).state = EXITED
  waitPid : ∀ p, (s'.processes p).waitPid = (s.processes p).waitPid
  waitReturnValue : ∀ p, (s'.processes p).waitReturnValue = (s.processes p).waitReturnValue

theorem Quiet.refl (s : Sched) : Quiet s s :=
  ⟨fun _ => Iff.rfl, fun _ => Iff.rfl, fun _ => rfl, fun _ => rfl⟩

theorem Quiet.trans (h : Quiet s s') (h' : Quiet s' s'') : Quiet s s'' :=
  ⟨fun p => (h'.blocked p).trans (h.blocked p), fun p => (h'.exited p).trans (h.exited p),
    fun p => (h'.waitPid p).trans (h.waitPid p),
    fun p => (h'.waitReturnValue p).trans (h.waitReturnValue p)⟩

theorem Quiet.of_processes (h : s'.processes = s.processes) : Quiet s s' := by
  refine ⟨?_, ?_, ?_, ?_⟩ <;> intro p <;> rw [h]

theorem quiet_setQueue : Quiet s (s.setQueue i q) := Quiet.of_processes rfl

theorem quiet_schedule : Quiet s (s.schedule pid) := Quiet.of_processes schedule_processes

/-- One block changes, and not in what is watched. -/
theorem Quiet.setProcess (hb : p.state = BLOCKED ↔ (s.processes pid).state = BLOCKED)
    (he : p.state = EXITED ↔ (s.processes pid).state = EXITED)
    (hw : p.waitPid = (s.processes pid).waitPid)
    (hr : p.waitReturnValue = (s.processes pid).waitReturnValue) :
    Quiet s (s.setProcess pid p) := by
  refine ⟨?_, ?_, ?_, ?_⟩ <;> intro other <;> by_cases h : other = pid
  all_goals first
    | (subst h; rw [setProcess_self]; assumption)
    | rw [setProcess_of_ne h]

/-! ## Aging -/

/-- Only priorities and counters of blocks change. -/
def Aged (s s' : Sched) : Prop :=
  ∀ pid, ∃ priority agingCounter, s'.processes pid =
    { s.processes pid with priority := priority, agingCounter := agingCounter }

theorem Aged.of_processes (h : s'.processes = s.processes) : Aged s s' :=
  fun pid => ⟨(s.processes pid).priority, (s.processes pid).agingCounter, by rw [h]⟩

theorem Aged.trans (h : Aged s s') (h' : Aged s' s'') : Aged s s'' := by
  intro pid
  obtain ⟨priority, agingCounter, heq⟩ := h pid
  obtain ⟨priority', agingCounter', heq'⟩ := h' pid
  exact ⟨priority', agingCounter', by rw [heq', heq]⟩

theorem Aged.state (h : Aged s s') (pid : ℤ) :
    (s'.processes pid).state = (s.processes pid).state := by
  obtain ⟨_, _, heq⟩ := h pid
  rw [heq]

theorem Aged.quiet (h : Aged s s') : Quiet s s' := by
  refine ⟨?_, ?_, ?_, ?_⟩ <;> intro p <;> obtain ⟨_, _, heq⟩ := h p <;> rw [heq]

theorem age_eq : ∃ priority agingCounter,
    age p = { p with priority := priority, agingCounter := agingCounter } := by
  unfold age
  dsimp only
  split
  · exact ⟨_, _, rfl⟩
  · exact ⟨_, _, rfl⟩

theorem aged_age : Aged s (s.setProcess pid (age (s.processes pid))) := by
  intro other
  by_cases h : other = pid
  · subst h
    rw [setProcess_self]
    exact age_eq
  · exact ⟨(s.processes other).priority,
      (s.processes other).agingCounter, by rw [setProcess_of_ne h]⟩

theorem aged_dropNode : Aged s s.dropNode := Aged.of_processes rfl

theorem fillTemp_aged : ∀ {q temp : List ℤ} {s : Sched}, Aged s (fillTemp q s temp).1
  | [], _, _ => Aged.of_processes rfl
  | pid :: rest, temp, s => by
      unfold fillTemp
      dsimp only
      split
      · exact aged_dropNode.trans fillTemp_aged
      · exact aged_age.trans (aged_dropNode.trans fillTemp_aged)

theorem mem_fillTemp : ∀ {q temp : List ℤ} {s : Sched} {other : ℤ},
    other ∈ (fillTemp q s temp).2 → other ∈ temp ∨ other ∈ q
  | [], _, _, _, h => .inl h
  | pid :: rest, temp, s, other, h => by
      unfold fillTemp at h
      dsimp only at h
      rcases mem_fillTemp h with htemp | hrest
      · rcases mem_append htemp with h | rfl
        · exact .inl h
        · exact .inr List.mem_cons_self
      · exact .inr (List.mem_cons_of_mem _ hrest)

theorem fillTemp_priorityQueues : ∀ {q temp : List ℤ} {s : Sched},
    (fillTemp q s temp).1.priorityQueues = s.priorityQueues
  | [], _, _ => rfl
  | pid :: rest, temp, s => by
      unfold fillTemp
      dsimp only
      rw [fillTemp_priorityQueues]
      split <;> rfl

theorem requeue_processes : ∀ {temp : List ℤ} {s : Sched},
    (requeue temp s).processes = s.processes
  | [], _ => rfl
  | pid :: _, s => (requeue_processes (s := s.enqueue pid)).trans rfl

theorem mem_requeue : ∀ {temp : List ℤ} {s : Sched} {other : ℤ},
    other ∈ (requeue temp s).priorityQueues i → other ∈ s.priorityQueues i ∨ other ∈ temp
  | [], _, _, h => .inl h
  | pid :: rest, s, other, h => by
      rcases mem_requeue (s := s.enqueue pid) h with h | h
      · rcases mem_enqueue h with h | rfl
        · exact .inl h
        · exact .inr List.mem_cons_self
      · exact .inr (List.mem_cons_of_mem _ h)

theorem ageQueue_aged : Aged s (s.ageQueue i) := by
  unfold ageQueue
  split
  · exact Aged.of_processes rfl
  · split
    · exact Aged.of_processes rfl
    · have hempty : Aged s (s.dropBlock.setQueue i []) := Aged.of_processes rfl
      exact hempty.trans (fillTemp_aged.trans (Aged.of_processes requeue_processes))

/-- Aging moves entries between queues. -/
theorem mem_ageQueue {j other : ℤ} (h : other ∈ (s.ageQueue i).priorityQueues j) :
    ∃ k, (k = j ∨ k = i) ∧ other ∈ s.priorityQueues k := by
  unfold ageQueue at h
  split at h
  · exact ⟨j, .inl rfl, h⟩
  · split at h
    · exact ⟨j, .inl rfl, h⟩
    · rcases mem_requeue h with h | h
      · rw [fillTemp_priorityQueues] at h
        by_cases hj : j = i
        · subst hj
          simp [setQueue] at h
        · unfold setQueue at h
          dsimp only at h
          rw [Function.update_of_ne hj] at h
          exact ⟨j, .inl rfl, h⟩
      · rcases mem_fillTemp h with h | h
        · exact absurd h List.not_mem_nil
        · exact ⟨i, .inr rfl, h⟩

theorem foldl_ageQueue_aged : ∀ {is : List ℤ} {s : Sched}, Aged s (is.foldl ageQueue s)
  | [], _ => Aged.of_processes rfl
  | _ :: _, _ => ageQueue_aged.trans foldl_ageQueue_aged

theorem mem_foldl_ageQueue : ∀ {is : List ℤ} {s : Sched} {j other : ℤ},
    other ∈ (is.foldl ageQueue s).priorityQueues j →
      ∃ k, (k = j ∨ k ∈ is) ∧ other ∈ s.priorityQueues k
  | [], _, j, _, h => ⟨j, .inl rfl, h⟩
  | i :: is, s, j, _, h => by
      obtain ⟨k, hk, hmem⟩ := mem_foldl_ageQueue (s := s.ageQueue i) h
      obtain ⟨m, hm, hmem'⟩ := mem_ageQueue hmem
      refine ⟨m, ?_, hmem'⟩
      rcases hm with rfl | rfl
      · rcases hk with rfl | hk
        · exact .inl rfl
        · exact .inr (List.mem_cons_of_mem _ hk)
      · exact .inr List.mem_cons_self

theorem applyAging_aged : Aged s s.applyAging := foldl_ageQueue_aged

theorem mem_applyAging {j other : ℤ} (h : other ∈ s.applyAging.priorityQueues j) :
    ∃ k, (k = j ∨ k ∈ levels) ∧ other ∈ s.priorityQueues k := mem_foldl_ageQueue h

/-! ## The context switch -/

theorem park_quiet : Quiet s (s.park pid) := by
  unfold park
  split
  · rename_i hstate
    have hset : Quiet s (s.setProcess pid { s.processes pid with
        state := READY, priority := (s.processes pid).originalPriority }) :=
      Quiet.setProcess (by simp [hstate]) (by simp [hstate]) rfl rfl
    exact hset.trans quiet_schedule
  · exact Quiet.of_processes rfl
  · exact Quiet.of_processes rfl
  · exact Quiet.refl s

theorem dispatch_quiet (hb : (s.processes pid).state ≠ BLOCKED)
    (he : (s.processes pid).state ≠ EXITED) : Quiet s (s.dispatch pid) := by
  have hset : Quiet s (s.setProcess pid
      { s.processes pid with state := RUNNING, agingCounter := 0 }) :=
    Quiet.setProcess (by simp [hb]) (by simp [he]) rfl rfl
  exact hset.trans (Quiet.of_processes rfl)

theorem nextProcess_processes : ∀ {fuel : ℕ} {s : Sched},
    (nextProcess fuel s).processes = s.processes
  | 0, _ => rfl
  | fuel + 1, s => by
      unfold nextProcess
      split
      · rfl
      · rename_i pid s' hsome
        obtain ⟨i, _, rest, _, rfl⟩ := unschedule_some hsome
        split
        · exact nextProcess_processes
        · rfl

/-- The process found is one of the queues and neither blocked nor over. -/
theorem nextProcess_some : ∀ {fuel : ℕ} {s : Sched},
    (nextProcess fuel s).currentProcess = some pid →
      (∃ i, pid ∈ s.priorityQueues i) ∧ (s.processes pid).state ≠ BLOCKED ∧
        (s.processes pid).state ≠ EXITED
  | 0, _, h => by simp [nextProcess] at h
  | fuel + 1, s, h => by
      unfold nextProcess at h
      split at h
      · simp at h
      · rename_i first s' hsome
        obtain ⟨i, _, rest, hq, rfl⟩ := unschedule_some hsome
        split at h
        · obtain ⟨⟨j, hj⟩, hstate⟩ := nextProcess_some h
          exact ⟨⟨j, mem_setQueue_tail hq hj⟩, hstate⟩
        · rename_i hstate
          rw [not_or] at hstate
          simp only [Option.some.injEq] at h
          subst h
          exact ⟨⟨i, by rw [hq]; exact List.mem_cons_self⟩, hstate⟩

theorem mem_nextProcess : ∀ {fuel : ℕ} {s : Sched} {other : ℤ},
    other ∈ (nextProcess fuel s).priorityQueues i → other ∈ s.priorityQueues i
  | 0, _, _, h => h
  | fuel + 1, s, other, h => by
      unfold nextProcess at h
      split at h
      · exact h
      · rename_i first s' hsome
        obtain ⟨j, _, rest, hq, rfl⟩ := unschedule_some hsome
        split at h
        · exact mem_setQueue_tail hq (mem_nextProcess h)
        · exact mem_setQueue_tail hq h

theorem queuedCount_tail {rest : List ℤ} (hi : i ∈ [4, 3, 2, 1, 0])
    (hq : s.priorityQueues i = pid :: rest) :
    (s.setQueue i rest).queuedCount < s.queuedCount := by
  simp only [List.mem_cons, List.not_mem_nil, or_false] at hi
  rcases hi with rfl | rfl | rfl | rfl | rfl <;>
    simp [queuedCount, setQueue, Function.update, hq]

/-- If no process was found, the queues were searched to their end. -/
theorem nextProcess_none : ∀ {fuel : ℕ} {s : Sched}, s.queuedCount < fuel →
    (nextProcess fuel s).currentProcess = none →
      ∀ i ∈ [4, 3, 2, 1, 0], (nextProcess fuel s).priorityQueues i = []
  | 0, _, h, _ => absurd h (Nat.not_lt_zero _)
  | fuel + 1, s, hfuel, h => by
      unfold nextProcess at h ⊢
      split at h
      · rename_i hnone
        exact fun i hi => unscheduleFrom_none (s := s).mp hnone i hi
      · rename_i first s' hsome
        obtain ⟨i, hi, rest, hq, rfl⟩ := unschedule_some hsome
        split at h
        · rename_i hstate
          rw [if_pos hstate]
          have := queuedCount_tail hi hq
          exact nextProcess_none (by omega) h
        · simp at h

/-- Without a current process nothing blocked or over is in the queues. -/
def Settled (s : Sched) : Prop :=
  s.currentProcess = none → ∀ i ∈ [4, 3, 2, 1, 0], ∀ pid ∈ s.priorityQueues i,
    (s.processes pid).state ≠ BLOCKED ∧ (s.processes pid).state ≠ EXITED

theorem settled_of_some (h : s.currentProcess = some pid) : s.Settled := by
  intro hnone
  rw [hnone] at h
  exact absurd h (by simp)

/-- **A context switch is quiet.** -/
theorem switchContext_quiet (h : s.Settled) : Quiet s s.switchContext := by
  unfold switchContext
  split
  · rename_i hnone
    split
    · exact Quiet.refl s
    · rename_i pid s' hsome
      obtain ⟨i, hi, rest, hq, rfl⟩ := unschedule_some hsome
      obtain ⟨hb, he⟩ := h hnone i hi pid (by rw [hq]; exact List.mem_cons_self)
      exact quiet_setQueue.trans (dispatch_quiet hb he)
  · rename_i c hc
    split
    · exact Quiet.of_processes rfl
    · dsimp only
      have hquiet : Quiet s (nextProcess ((s.park c).applyAging.queuedCount + 1)
          (s.park c).applyAging) :=
        park_quiet.trans (applyAging_aged.quiet.trans (Quiet.of_processes nextProcess_processes))
      split
      · exact hquiet
      · rename_i pid hpid
        obtain ⟨_, hb, he⟩ := nextProcess_some hpid
        refine hquiet.trans (Quiet.trans (dispatch_quiet ?_ ?_) (Quiet.of_processes rfl))
        · rw [nextProcess_processes]
          exact hb
        · rw [nextProcess_processes]
          exact he

/-! ## Who runs after a switch -/

/-- Only the current process is in state `RUNNING`. -/
def Alone (s : Sched) : Prop := ∀ pid, (s.processes pid).state = RUNNING →
  s.currentProcess = some pid

theorem park_state_ne (h : s.Alone) (hc : s.currentProcess = some pid) (other : ℤ) :
    ((s.park pid).processes other).state ≠ RUNNING := by
  intro hrun
  by_cases hother : other = pid
  · subst hother
    unfold park at hrun
    split at hrun
    · simp at hrun
    all_goals simp_all
  · have hsame : (s.park pid).processes other = s.processes other := by
      unfold park
      split
      · rw [schedule_processes, setProcess_of_ne hother]
      all_goals rfl
    rw [hsame] at hrun
    have := h other hrun
    rw [hc, Option.some.injEq] at this
    exact hother this.symm

theorem dispatch_alone (h : ∀ other, (s.processes other).state ≠ RUNNING) :
    (s.dispatch pid).Alone := by
  intro other hrun
  by_cases hother : other = pid
  · rw [hother]
    rfl
  · have hsame : (s.dispatch pid).processes other = s.processes other :=
      setProcess_of_ne hother
    rw [hsame] at hrun
    exact absurd hrun (h other)

theorem switchContext_alone (h : s.Alone) : s.switchContext.Alone := by
  unfold switchContext
  split
  · rename_i hnone
    split
    · exact h
    · rename_i pid s' hsome
      obtain ⟨i, _, rest, _, rfl⟩ := unschedule_some hsome
      refine dispatch_alone fun other hrun => ?_
      have := h other hrun
      rw [hnone] at this
      exact absurd this (by simp)
  · rename_i c hc
    split
    · exact h
    · dsimp only
      have hne : ∀ other, ((nextProcess ((s.park c).applyAging.queuedCount + 1)
          (s.park c).applyAging).processes other).state ≠ RUNNING := by
        intro other
        rw [nextProcess_processes, applyAging_aged.state]
        exact park_state_ne h hc other
      split
      · exact fun other hrun => absurd hrun (hne other)
      · exact dispatch_alone hne

/-- The process that has the CPU after a switch runs. -/
theorem switchContext_running (h : s.switchContext.currentProcess = some pid) :
    (s.switchContext.processes pid).state = RUNNING := by
  unfold switchContext at h ⊢
  split at h
  · rename_i hnone
    split at h
    · rw [hnone] at h
      exact absurd h (by simp)
    · rename_i first s' hsome
      obtain rfl : first = pid := by simpa [dispatch] using h
      simp [dispatch]
  · rename_i c hc
    split at h
    · rename_i hrun
      obtain rfl : c = pid := by simpa [hc] using h
      rw [if_pos hrun]
      exact hrun.1
    · rename_i hrun
      rw [if_neg hrun]
      dsimp only at h ⊢
      split at h
      · rename_i hnone
        rw [hnone] at h
        exact absurd h (by simp)
      · rename_i first hfirst
        obtain rfl : first = pid := by simpa [dispatch] using h
        simp [dispatch]

theorem mem_park {other : ℤ} (h : other ∈ (s.park pid).priorityQueues i) :
    other ∈ s.priorityQueues i ∨ other = pid ∧ (s.processes pid).state = RUNNING := by
  unfold park at h
  split at h
  · rename_i hrun
    rcases mem_schedule h with h | h
    · exact .inl h
    · exact .inr ⟨h, hrun⟩
  all_goals exact .inl h

/-- A switch only adds the process that ran to the queues. -/
theorem mem_switchContext {other : ℤ} (h : other ∈ s.switchContext.priorityQueues i) :
    (∃ j, (j = i ∨ j ∈ levels) ∧ other ∈ s.priorityQueues j) ∨
      s.currentProcess = some other ∧ (s.processes other).state = RUNNING := by
  unfold switchContext at h
  split at h
  · split at h
    · exact .inl ⟨i, .inl rfl, h⟩
    · rename_i pid s' hsome
      obtain ⟨j, _, rest, hq, rfl⟩ := unschedule_some hsome
      exact .inl ⟨i, .inl rfl, mem_setQueue_tail hq h⟩
  · rename_i c hc
    split at h
    · exact .inl ⟨i, .inl rfl, h⟩
    · dsimp only at h
      have hnext : other ∈ (nextProcess ((s.park c).applyAging.queuedCount + 1)
          (s.park c).applyAging).priorityQueues i := by
        split at h <;> exact h
      obtain ⟨j, hj, hmem⟩ := mem_applyAging (mem_nextProcess hnext)
      rcases mem_park hmem with h | ⟨rfl, hrun⟩
      · exact .inl ⟨j, hj, h⟩
      · exact .inr ⟨hc, hrun⟩

/-- The process that has the CPU after a switch had it, or was in the queues. -/
theorem switchContext_current (h : s.switchContext.currentProcess = some pid) :
    (∃ j, pid ∈ s.priorityQueues j) ∨ s.currentProcess = some pid := by
  unfold switchContext at h
  split at h
  · rename_i hnone
    split at h
    · rw [hnone] at h
      exact absurd h (by simp)
    · rename_i first s' hsome
      obtain ⟨j, _, rest, hq, rfl⟩ := unschedule_some hsome
      obtain rfl : first = pid := by simpa [dispatch] using h
      exact .inl ⟨j, by rw [hq]; exact List.mem_cons_self⟩
  · rename_i c hc
    split at h
    · exact .inr (by simpa using h)
    · dsimp only at h
      split at h
      · rename_i hnone
        rw [hnone] at h
        exact absurd h (by simp)
      · rename_i first hfirst
        obtain rfl : first = pid := by simpa [dispatch] using h
        obtain ⟨⟨j, hj⟩, _⟩ := nextProcess_some hfirst
        obtain ⟨k, _, hk⟩ := mem_applyAging hj
        rcases mem_park hk with h | ⟨rfl, _⟩
        · exact .inl ⟨k, h⟩
        · exact .inr hc

/-- When no process was found, nothing is left in the queues. -/
theorem switchContext_settled (h : s.Settled) : s.switchContext.Settled := by
  unfold switchContext
  split
  · split
    · exact h
    · intro hnone
      exact absurd hnone (by simp [dispatch])
  · rename_i c hc
    split
    · intro hnone
      exact absurd hnone (by simp [hc])
    · dsimp only
      split
      · rename_i hnext
        intro _ i hi pid hpid
        rw [nextProcess_none (Nat.lt_succ_self _) hnext i hi] at hpid
        exact absurd hpid List.not_mem_nil
      · exact settled_of_some rfl

/-! ## Soundness -/

/-- The queues and the CPU hold processes, and at most one runs. -/
structure Sound (s : Sched) : Prop where
  queued : ∀ i, ∀ pid ∈ s.priorityQueues i, 0 < pid ∧ pid ≤ maxPid
  current : ∀ pid, s.currentProcess = some pid → 0 < pid ∧ pid ≤ maxPid
  settled : s.Settled
  alone : s.Alone

theorem Sound.switchContext (h : s.Sound) : s.switchContext.Sound := by
  refine ⟨fun i pid hpid => ?_, fun pid hpid => ?_, switchContext_settled h.settled,
    switchContext_alone h.alone⟩
  · rcases mem_switchContext hpid with ⟨j, _, hj⟩ | ⟨hc, _⟩
    · exact h.queued j pid hj
    · exact h.current pid hc
  · rcases switchContext_current hpid with ⟨j, hj⟩ | hc
    · exact h.queued j pid hj
    · exact h.current pid hc

/-- The block of one process changes while another one, or none, has the CPU. -/
theorem Sound.setProcess (h : s.Sound) (hc : s.currentProcess = some c)
    (hrun : p.state = RUNNING → (s.processes pid).state = RUNNING) :
    (s.setProcess pid p).Sound := by
  refine ⟨h.queued, h.current, settled_of_some hc, fun other hother => ?_⟩
  by_cases heq : other = pid
  · subst heq
    rw [setProcess_self] at hother
    exact h.alone other (hrun hother)
  · rw [setProcess_of_ne heq] at hother
    exact h.alone other hother

theorem Sound.setState (h : s.Sound) (pid : ℤ) (st : ProcessState)
    (hc : s.currentProcess = some c) (hne : st ≠ RUNNING) :
    (s.setState pid st).Sound :=
  h.setProcess hc fun hrun => absurd hrun hne

theorem Sound.schedule (h : s.Sound) (hpid : 0 < pid ∧ pid ≤ maxPid)
    (hc : s.currentProcess = some c) : (s.schedule pid).Sound := by
  refine ⟨fun i other hother => ?_, fun other hother => ?_, ?_, fun other hother => ?_⟩
  · rcases mem_schedule hother with hother | rfl
    · exact h.queued i other hother
    · exact hpid
  · rw [schedule_currentProcess] at hother
    exact h.current other hother
  · exact settled_of_some (schedule_currentProcess.trans hc)
  · rw [schedule_processes] at hother
    rw [schedule_currentProcess]
    exact h.alone other hother

/-! ## Blocking and unblocking -/

theorem getProcess_some {found : ℤ} (h : s.getProcess pid = some found) :
    found = pid ∧ 0 < pid ∧ pid ≤ maxPid ∧ (s.processes pid).state ≠ EXITED := by
  unfold getProcess at h
  split at h
  · rename_i hvalid
    exact ⟨(Option.some.inj h).symm, hvalid⟩
  · exact absurd h (by simp)

theorem isValidPID_iff : s.isValidPID pid = true ↔
    0 < pid ∧ pid ≤ maxPid ∧ (s.processes pid).state ≠ EXITED := by
  simp [isValidPID]

theorem getProcess_of_valid (h : s.isValidPID pid) : s.getProcess pid = some pid :=
  if_pos (isValidPID_iff.mp h)

/-- `unblockProcess` does nothing, or it makes a blocked process ready. -/
theorem unblockProcess_cases : (s.unblockProcess pid).2 = s ∨
    (0 < pid ∧ pid ≤ maxPid ∧ (s.processes pid).state = BLOCKED ∧
      (s.unblockProcess pid).2 = (s.setState pid READY).schedule pid) := by
  unfold unblockProcess
  split
  · exact .inl rfl
  · rename_i found hfound
    obtain ⟨rfl, hpos, hle, _⟩ := getProcess_some hfound
    split
    · exact .inl rfl
    · rename_i hstate
      exact .inr ⟨hpos, hle, not_not.mp hstate, rfl⟩

/-- `blockProcess` of the current process gives up the CPU. -/
theorem blockProcess_of_valid (h : s.isValidPID pid) : (s.blockProcess pid).2 =
    if s.currentProcess = some pid then (s.setState pid BLOCKED).yield
    else s.setState pid BLOCKED := by
  unfold blockProcess
  rw [getProcess_of_valid h]
  dsimp only
  split
  · rename_i hc
    exact (if_pos hc).symm
  · rename_i hc
    exact (if_neg hc).symm

@[simp] theorem unblockProcess_currentProcess :
    (s.unblockProcess pid).2.currentProcess = s.currentProcess := by
  rcases unblockProcess_cases (s := s) with h | ⟨_, _, _, h⟩ <;> rw [h]
  rw [schedule_currentProcess]
  rfl

theorem unblockProcess_of_ne {other : ℤ} (h : other ≠ pid) :
    (s.unblockProcess pid).2.processes other = s.processes other := by
  rcases unblockProcess_cases (s := s) with h' | ⟨_, _, _, h'⟩ <;> rw [h']
  rw [schedule_processes, setState, setProcess_of_ne h]

/-- Blocks change in nothing but `BLOCKED` to `READY`, and only that of `pid`. -/
theorem unblockProcess_state (s : Sched) (pid other : ℤ) :
    (s.unblockProcess pid).2.processes other = s.processes other ∨
      (other = pid ∧ (s.processes pid).state = BLOCKED ∧
        (s.unblockProcess pid).2.processes other = { s.processes pid with state := READY }) := by
  rcases unblockProcess_cases (s := s) with h | ⟨_, _, hstate, h⟩ <;> rw [h]
  · exact .inl rfl
  · by_cases hother : other = pid
    · subst hother
      exact .inr ⟨rfl, hstate, by rw [schedule_processes, setState, setProcess_self]⟩
    · exact .inl (by rw [schedule_processes, setState, setProcess_of_ne hother])

theorem unblockProcess_blocked {other : ℤ}
    (h : ((s.unblockProcess pid).2.processes other).state = BLOCKED) :
    (s.processes other).state = BLOCKED := by
  rcases unblockProcess_state s pid other with heq | ⟨_, _, heq⟩ <;> rw [heq] at h
  · exact h
  · exact absurd h (by simp)

theorem unblockProcess_exited {other : ℤ} :
    ((s.unblockProcess pid).2.processes other).state = EXITED ↔
      (s.processes other).state = EXITED := by
  rcases unblockProcess_state s pid other with heq | ⟨rfl, hb, heq⟩ <;> rw [heq]
  rw [hb]
  simp

theorem unblockProcess_running {other : ℤ} :
    ((s.unblockProcess pid).2.processes other).state = RUNNING ↔
      (s.processes other).state = RUNNING := by
  rcases unblockProcess_state s pid other with heq | ⟨rfl, hb, heq⟩ <;> rw [heq]
  rw [hb]
  simp

theorem unblockProcess_waitPid {other : ℤ} :
    ((s.unblockProcess pid).2.processes other).waitPid = (s.processes other).waitPid := by
  rcases unblockProcess_state s pid other with heq | ⟨rfl, _, heq⟩ <;> rw [heq]

theorem unblockProcess_waitReturnValue {other : ℤ} :
    ((s.unblockProcess pid).2.processes other).waitReturnValue =
      (s.processes other).waitReturnValue := by
  rcases unblockProcess_state s pid other with heq | ⟨rfl, _, heq⟩ <;> rw [heq]

theorem Sound.unblockProcess (h : s.Sound) (hc : s.currentProcess = some c) :
    (s.unblockProcess pid).2.Sound := by
  rcases unblockProcess_cases (s := s) with heq | ⟨hpos, hle, _, heq⟩ <;> rw [heq]
  · exact h
  · exact (h.setState pid READY hc (by decide)).schedule ⟨hpos, hle⟩ hc

theorem Sound.yield (h : s.Sound) : s.yield.Sound :=
  Sound.switchContext ⟨h.queued, h.current, h.settled, h.alone⟩

theorem Sound.blockProcess (h : s.Sound) (hc : s.currentProcess = some c)
    (hvalid : s.isValidPID pid) : (s.blockProcess pid).2.Sound := by
  rw [blockProcess_of_valid hvalid]
  have hset := h.setState pid BLOCKED hc (by decide)
  split
  · exact hset.yield
  · exact hset

theorem yield_quiet (h : s.Settled) : Quiet s s.yield := by
  have hflag : Quiet s { s with isYield := true } := Quiet.of_processes rfl
  exact hflag.trans (switchContext_quiet (s := { s with isYield := true }) h)

/-- Blocking a process is quiet but for that process. -/
theorem blockProcess_quiet (hc : s.currentProcess = some c) (hvalid : s.isValidPID pid) :
    Quiet (s.setState pid BLOCKED) (s.blockProcess pid).2 := by
  rw [blockProcess_of_valid hvalid]
  split
  · exact yield_quiet (settled_of_some hc)
  · exact Quiet.refl _

end Sched

end BareKernel.Kernel
