import BareKernel.Kernel.Starvation

/-!
# Waits without a bound

Two families of runs in which a process waits as long as one likes. In the first the shell,
which has the highest priority, yields and is chosen every time, while a worker that the boost
does not lift so far waits below. In the second a worker has one entry for each time it was
blocked while it was ready, and every entry counts.
-/

namespace BareKernel.Kernel

open ProcessState Runs

namespace Sched

variable {s : Sched} {p q c i : ℤ} {b : Process} {m : ℕ}

/-- From priority 2 the boost does not lift to the highest priority. -/
theorem iterate_age_low : ∀ {m : ℕ} {b : Process}, Graded b → b.state ≠ RUNNING →
    b.originalPriority.toNat ≤ 2 → b.priority.toNat ≤ 4 → b.agingCounter.toNat + m < 15 * 2 ^ 31 →
      (age^[m] b).priority.toNat ≤ 4 ∧
        (age^[m] b).agingCounter.toNat = b.agingCounter.toNat + m
  | 0, _, _, _, _, hlow, _ => ⟨hlow, rfl⟩
  | m + 1, b, hgraded, hrun, horiginal, hlow, hroom => by
      have hnext : (age b).agingCounter.toNat = b.agingCounter.toNat + 1 := by
        rw [age_agingCounter, counter_succ (by omega)]
      have hlow' : (age b).priority.toNat ≤ 4 := by
        by_cases hboost : b.agingCounter + 1 ≥ agingThreshold ∧ b.priority < maxPriority
        · rcases age_high hgraded hboost with hfive | ⟨-, -, hvalue⟩
          · -- only a counter at the bound of `int` lifts so far
            have hsmall : (b.agingCounter + 1).toNat < 15 * 2 ^ 31 := by
              rw [counter_succ] <;> omega
            have hlevel := boostLevel_le hsmall
            have hcapped := capped_toNat (n := b.originalPriority) (by omega) hlevel
            unfold age at hfive
            rw [if_pos hboost, hcapped] at hfive
            omega
          · rw [hvalue, age_originalPriority]
            omega
        · rw [age_low hboost]
          exact hlow
      have hrest :=
        iterate_age_low (m := m) (age_graded hgraded hrun) (by rw [age_state]; exact hrun)
        (by rw [age_originalPriority]; exact horiginal) hlow' (by omega)
      rw [Function.iterate_succ_apply]
      exact ⟨hrest.1, by omega⟩

theorem iterate_age_originalPriority (b : Process) (m : ℕ) :
    (age^[m] b).originalPriority = b.originalPriority := by
  induction m with
  | zero => rfl
  | succ m ih => rw [Function.iterate_succ_apply', age_originalPriority, ih]

theorem ageQueue_heap (hnodes : ∀ n, s.nodes n = true) (hblocks : ∀ n, s.blocks n = true) :
    (∀ n, (s.ageQueue i).nodes n = true) ∧ ∀ n, (s.ageQueue i).blocks n = true := by
  constructor
  · intro n
    rw [ageQueue_nodes]
    exact hnodes _
  · intro n
    rcases ageQueue_blocks (s := s) (i := i) with heq | heq <;> rw [heq]
    · exact hblocks n
    · exact hblocks (n + 1)

/-- On a heap that does not run out, aging leaves it so. -/
theorem applyAging_heap_served (hnodes : ∀ n, s.nodes n = true) (hblocks : ∀ n, s.blocks n = true) :
    (∀ n, s.applyAging.nodes n = true) ∧ ∀ n, s.applyAging.blocks n = true := by
  have hall : ∀ (is : List ℤ) {s : Sched}, (∀ n, s.nodes n = true) → (∀ n, s.blocks n = true) →
      (∀ n, (is.foldl ageQueue s).nodes n = true) ∧ ∀ n, (is.foldl ageQueue s).blocks n = true := by
    intro is
    induction is with
    | nil => exact fun hnodes hblocks => ⟨hnodes, hblocks⟩
    | cons i is ih =>
        intro s hnodes hblocks
        obtain ⟨hnodes', hblocks'⟩ := ageQueue_heap (i := i) hnodes hblocks
        exact ih hnodes' hblocks'
  exact hall levels hnodes hblocks

theorem nextProcess_blocks : ∀ {fuel : ℕ} {s : Sched}, (nextProcess fuel s).blocks = s.blocks
  | 0, _ => rfl
  | fuel + 1, s => by
      unfold nextProcess
      split
      · rfl
      · rename_i first s' hsome
        obtain ⟨i, _, rest, _, rfl⟩ := unschedule_some hsome
        split
        · exact nextProcess_blocks
        · rfl

theorem dispatch_self : (s.dispatch p).processes p = { s.processes p with
    state := RUNNING, agingCounter := 0 } := setProcess_self

theorem dispatch_of_ne (h : p ≠ q) : (s.dispatch q).processes p = s.processes p :=
  setProcess_of_ne h

/-- PID 1 and PID 2 are left out of the aging. -/
theorem ageQueue_spared (hp : p = 1 ∨ p = 2) : (s.ageQueue i).processes p = s.processes p := by
  by_cases hproc : s.Processed i
  · rw [ageQueue_processes hproc]
    exact if_pos hp
  · rw [ageQueue_skipped hproc]
    rfl

theorem applyAging_spared (hp : p = 1 ∨ p = 2) : s.applyAging.processes p = s.processes p := by
  have hall : ∀ (is : List ℤ) {s : Sched}, (is.foldl ageQueue s).processes p = s.processes p := by
    intro is
    induction is with
    | nil => exact rfl
    | cons i is ih =>
        intro s
        rw [List.foldl_cons, ih, ageQueue_spared hp]
  exact hall levels

/-- The others are aged, one to five times. -/
theorem applyAging_counts (hsingle : s.Single) (hnodes : ∀ n, s.nodes n = true)
    (hblocks : ∀ n, s.blocks n = true) (hp : ¬(p = 1 ∨ p = 2)) (hentry : 0 < s.entries p) :
    ∃ m, 1 ≤ m ∧ m ≤ 5 ∧ s.applyAging.processes p = age^[m] (s.processes p) := by
  obtain ⟨k, hk, hmem⟩ := MultiQueue.entries_pos.mp hentry
  obtain ⟨m, hm, hage, -, hyes⟩ := pass_visits hp (show levels.Pairwise (· < ·) by decide)
    (fun _ hi => hi) hsingle (fun n _ => hnodes n) hk hmem
  exact ⟨m, (hyes (newQueueIn_true hk fun n _ => hblocks n)).1, hm, hage⟩

/-- The search finds whoever is the only one in the highest queue that can run. -/
theorem nextProcess_top {fuel : ℕ} (hfuel : s.queuedCount < fuel) (hmem : p ∈ s.priorityQueues 4)
    (hable : ¬s.Stale p) (honly : ∀ q ∈ s.priorityQueues 4, ¬s.Stale q → q = p) :
    (nextProcess fuel s).currentProcess = some p := by
  have hfour : (4 : ℤ) ∈ levels := by decide
  cases hnext : (nextProcess fuel s).currentProcess with
  | none => exact absurd (nextProcess_stale hfuel hnext 4 hfour p hmem) hable
  | some q =>
      obtain ⟨k, pre, rest, hfound⟩ := nextProcess_found hnext
      have hk : k = 4 := by
        by_contra hne
        have hlow : k < 4 := by
          have hlevel := hfound.level
          simp only [levels, List.mem_cons, List.not_mem_nil, or_false] at hlevel
          omega
        exact hable ((hfound.above 4 hfour hlow).1 p hmem)
      subst hk
      have hq : q ∈ s.priorityQueues 4 := by
        rw [hfound.queue]
        exact List.mem_append_right _ List.mem_cons_self
      rw [honly q hq hfound.able]

/-! ## Many entries -/

/-- Whoever is the first in the highest queue is found at once. -/
theorem nextProcess_head {fuel : ℕ} {rest : List ℤ} (hqueue : s.priorityQueues 4 = p :: rest)
    (hable : ¬s.Stale p) : nextProcess (fuel + 1) s =
      { s.setQueue 4 rest with currentProcess := some p } := by
  have hsome : s.unschedule = some (p, s.setQueue 4 rest) := by
    unfold unschedule unscheduleFrom
    rw [hqueue]
  unfold nextProcess
  rw [hsome]
  exact if_neg hable

/-- The first of the highest queue stays there when it is not aged. -/
theorem ageQueue_head (hnodes : ∀ n, s.nodes n = true) (hblocks : ∀ n, s.blocks n = true)
    (hp : p = 1 ∨ p = 2) (hindex : queueIndex (s.processes p) = 4) {rest : List ℤ}
    (hqueue : s.priorityQueues 4 = p :: rest) :
    ∃ rest', (s.ageQueue i).priorityQueues 4 = p :: rest' := by
  rw [ageQueue_queues (.inr (hblocks 0)) fun n _ => hnodes n]
  by_cases hi : 4 = i
  · subst hi
    have hvisited : queueIndex (s.visited 4 p) = 4 := by
      unfold visited
      rw [if_pos hp, hindex]
    rw [if_pos rfl, hqueue, List.filter_cons_of_pos (by simpa using hvisited)]
    exact ⟨_, rfl⟩
  · rw [if_neg hi, hqueue]
    exact ⟨_, rfl⟩

theorem applyAging_head (hnodes : ∀ n, s.nodes n = true) (hblocks : ∀ n, s.blocks n = true)
    (hp : p = 1 ∨ p = 2) (hindex : queueIndex (s.processes p) = 4) {rest : List ℤ}
    (hqueue : s.priorityQueues 4 = p :: rest) :
    ∃ rest', s.applyAging.priorityQueues 4 = p :: rest' := by
  have hall : ∀ (is : List ℤ) {s : Sched} {rest : List ℤ}, (∀ n, s.nodes n = true) →
      (∀ n, s.blocks n = true) → queueIndex (s.processes p) = 4 →
        s.priorityQueues 4 = p :: rest →
          ∃ rest', (is.foldl ageQueue s).priorityQueues 4 = p :: rest' := by
    intro is
    induction is with
    | nil => exact fun _ _ _ hqueue => ⟨_, hqueue⟩
    | cons i is ih =>
        intro s rest hnodes hblocks hindex hqueue
        obtain ⟨hnodes', hblocks'⟩ := ageQueue_heap (i := i) hnodes hblocks
        obtain ⟨rest', hqueue'⟩ := ageQueue_head (i := i) hnodes hblocks hp hindex hqueue
        apply ih hnodes' hblocks' _ hqueue'
        rw [ageQueue_spared hp]
        exact hindex
  exact hall levels hnodes hblocks hindex hqueue

/-- A pass counts every entry that a process has in a queue. -/
theorem applyAging_every (hnodes : ∀ n, s.nodes n = true) (hblocks : ∀ n, s.blocks n = true)
    (hp : ¬(p = 1 ∨ p = 2)) (hi : i ∈ levels) : ∃ m, (s.priorityQueues i).count p ≤ m ∧
      m ≤ 5 * s.entries p ∧ s.applyAging.processes p = age^[m] (s.processes p) := by
  have hall : ∀ (is : List ℤ) {s : Sched}, (∀ j ∈ is, j ∈ levels) → (∀ n, s.nodes n = true) →
      (∀ n, s.blocks n = true) → ∃ m, (i ∈ is → (s.priorityQueues i).count p ≤ m) ∧
        m ≤ is.length * s.entries p ∧
          (is.foldl ageQueue s).processes p = age^[m] (s.processes p) := by
    intro is
    induction is with
    | nil => exact fun _ _ _ => ⟨0, fun hi => absurd hi List.not_mem_nil, Nat.zero_le _, rfl⟩
    | cons j is ih =>
        intro s hlevels hnodes hblocks
        have hj := hlevels j List.mem_cons_self
        obtain ⟨hnodes', hblocks'⟩ := ageQueue_heap (i := j) hnodes hblocks
        obtain ⟨m, hcount, hm, hage⟩ := ih (s := s.ageQueue j)
          (fun k hk => hlevels k (List.mem_cons_of_mem _ hk)) hnodes' hblocks'
        have hfirst : (s.ageQueue j).processes p =
            age^[(s.priorityQueues j).count p] (s.processes p) := by
          rw [ageQueue_processes (.inr (hblocks 0))]
          exact if_neg hp
        refine ⟨m + (s.priorityQueues j).count p, fun hmem => ?_, ?_, ?_⟩
        · by_cases hij : i = j
          · rw [hij]
            exact Nat.le_add_left _ _
          · -- the queue is still to come, and has lost nobody until then
            have hlater := hcount ((List.mem_cons.mp hmem).resolve_left hij)
            rw [ageQueue_queues (.inr (hblocks 0)) fun n _ => hnodes n, if_neg hij,
              List.count_append] at hlater
            omega
        · have hone := MultiQueue.count_le_entries (q := s.priorityQueues) (a := p) hj
          have hless := Nat.mul_le_mul_left is.length (ageQueue_entries_le (s := s) hj p)
          change (s.priorityQueues j).count p ≤ s.entries p at hone
          rw [List.length_cons, Nat.succ_mul]
          omega
        · rw [List.foldl_cons, hage, hfirst, Function.iterate_add_apply]
  obtain ⟨m, hcount, hm, hage⟩ := hall levels (fun _ hj => hj) hnodes hblocks
  exact ⟨m, hcount hi, hm, hage⟩

/-- A process of priority 5 that gives up the CPU goes to the end of the highest queue. -/
theorem park_top (hrun : (s.processes c).state = RUNNING)
    (horiginal : (s.processes c).originalPriority = 5) (hnode : s.nodes 0 = true) :
    (s.park c).priorityQueues =
      Function.update s.priorityQueues 4 (s.priorityQueues 4 ++ [c]) := by
  rw [park_running hrun]
  generalize hb : ({ s.processes c with
    state := READY, priority := (s.processes c).originalPriority } : Process) = b
  have hfive : b.priority = 5 := by
    rw [← hb]
    exact horiginal
  have hindex : queueIndex b = 4 := by
    unfold queueIndex
    rw [hfive]
    rfl
  unfold schedule enqueue
  dsimp only [append]
  rw [setProcess_self, hfive, if_pos (by decide), hindex]
  change Function.update s.priorityQueues 4 (if s.nodes 0 = true then _ else _) = _
  rw [if_pos hnode]
  rfl

/-- Blocked and unblocked, a process that is ready is as before, but for one more entry. -/
theorem unblock_block (hc : s.currentProcess ≠ some p) (hp : 0 < p ∧ p ≤ maxPid)
    (hready : (s.processes p).state = READY) :
    ((s.blockProcess p).2.unblockProcess p).2 = s.schedule p := by
  have hvalid : s.isValidPID p = true := by
    rw [isValidPID_iff, hready]
    exact ⟨hp.1, hp.2, by decide⟩
  rw [blockProcess_of_valid hvalid, if_neg hc]
  have hblocked : (s.setState p BLOCKED).isValidPID p = true := by
    rw [isValidPID_iff, setState_state]
    exact ⟨hp.1, hp.2, by decide⟩
  unfold unblockProcess
  rw [getProcess_of_valid hblocked]
  dsimp only
  rw [setState_state, if_neg (by decide)]
  have hsame : (s.setState p BLOCKED).setState p READY = s := by
    unfold setState setProcess
    dsimp only
    rw [Function.update_self, Function.update_idem]
    have hback : ({ s.processes p with state := READY } : Process) = s.processes p := by
      rw [← hready]
    dsimp only at hback ⊢
    rw [hback, Function.update_eq_self]
  rw [hsame]

end Sched

namespace Machine

open Sched

variable {S S' : Machine} {p : ℤ}

/-! ## The shell yields -/

/-- The state in which the queues are aged. -/
abbrev parked (S : Machine) : Sched := ({ S.sched with isYield := true } : Sched).park 2

theorem parked_self (hrun : (S.sched.processes 2).state = RUNNING) :
    S.parked.processes 2 = { S.sched.processes 2 with
      state := READY, priority := (S.sched.processes 2).originalPriority } := by
  have hpark := park_running (s := { S.sched with isYield := true }) hrun
  change Sched.processes (Sched.park _ 2) 2 = _
  rw [hpark, schedule_processes, setProcess_self]

theorem parked_of_ne (hp : p ≠ 2) : S.parked.processes p = S.sched.processes p :=
  park_of_ne hp

theorem yield_step (hshell : S.sched.currentProcess = some 2) (huser : S.frames 2 = .user) :
    S.Step (.call .yield) (S.onSched Sched.yield) := by
  unfold Step step
  rw [hshell]
  dsimp only
  rw [if_pos huser]
  rfl

/-- The shell is found again, and it goes on. -/
theorem yield_sched (hshell : S.sched.currentProcess = some 2)
    (hnext : (nextProcess (S.parked.applyAging.queuedCount + 1)
      S.parked.applyAging).currentProcess = some 2) : (S.onSched Sched.yield).sched =
      { (nextProcess (S.parked.applyAging.queuedCount + 1) S.parked.applyAging).dispatch 2 with
        isYield := false } := by
  have hleaves : ({ S.sched with isYield := true } : Sched).Leaves 2 :=
    ⟨hshell, fun hstays => hstays.2.2 rfl⟩
  change Sched.switchContext _ = _
  rw [switchContext_leaves hleaves]
  split
  · rename_i hnone
    rw [hnext] at hnone
    exact absurd hnone (by simp)
  · rename_i q hq
    rw [hnext, Option.some.injEq] at hq
    subst hq
    rfl

theorem yield_self (hshell : S.sched.currentProcess = some 2)
    (hnext : (nextProcess (S.parked.applyAging.queuedCount + 1)
      S.parked.applyAging).currentProcess = some 2) : (S.onSched Sched.yield).sched.processes 2 =
      { S.parked.applyAging.processes 2 with state := RUNNING, agingCounter := 0 } := by
  rw [yield_sched hshell hnext]
  change (Sched.dispatch (nextProcess (S.parked.applyAging.queuedCount + 1)
    S.parked.applyAging) 2).processes 2 = _
  rw [dispatch_self, nextProcess_processes]

theorem yield_of_ne (hshell : S.sched.currentProcess = some 2)
    (hnext : (nextProcess (S.parked.applyAging.queuedCount + 1)
      S.parked.applyAging).currentProcess = some 2) (hp : p ≠ 2) :
    (S.onSched Sched.yield).sched.processes p = S.parked.applyAging.processes p := by
  rw [yield_sched hshell hnext]
  change (Sched.dispatch (nextProcess (S.parked.applyAging.queuedCount + 1)
    S.parked.applyAging) 2).processes p = _
  rw [dispatch_of_ne hp, nextProcess_processes]

/-! ## A worker below the shell -/

/-- The shell has the CPU, and PID 1 and a worker of priority 2 are ready. -/
structure Starving (S : Machine) : Prop where
  base : S.Base
  ranked : S.sched.Ranked
  queued : S.sched.Queued
  blocks : ∀ n, S.sched.blocks n = true
  shell : S.sched.currentProcess = some 2
  user : S.frames 2 = .user
  top : (S.sched.processes 2).originalPriority.toNat = 5
  ready : ∀ p, (S.sched.processes p).state = READY → p = 1 ∨ p = 3
  idle : (S.sched.processes 1).priority.toNat = 1
  waits : (S.sched.processes 3).state = READY
  original : (S.sched.processes 3).originalPriority.toNat = 2
  below : (S.sched.processes 3).priority.toNat ≤ 4

theorem Starving.running (h : Starving S) : (S.sched.processes 2).state = RUNNING :=
  h.base.running h.shell fun stage => by rw [h.user]; simp

theorem Starving.parked_ready (h : Starving S) (hready : (S.parked.processes p).state = READY) :
    p = 1 ∨ p = 2 ∨ p = 3 := by
  by_cases hp : p = 2
  · exact .inr (.inl hp)
  · rw [parked_of_ne hp] at hready
    rcases h.ready p hready with hp | hp
    · exact .inl hp
    · exact .inr (.inr hp)

theorem Starving.parked_queued (h : Starving S) : S.parked.Queued :=
  park_queued (h.queued.flag true)

theorem Starving.parked_ranked (h : Starving S) : S.parked.Ranked :=
  park_ranked (h.ranked.congr rfl rfl)

theorem Starving.parked_still (h : Starving S) : (S.parked.processes p).state ≠ RUNNING :=
  park_state_ne (s := { S.sched with isYield := true }) h.base.sound.alone h.shell p

theorem Starving.parked_single (h : Starving S) : S.parked.Single := by
  intro p
  rw [h.parked_queued.entries]
  split <;> omega

theorem Starving.parked_blocks (h : Starving S) (n : ℕ) : S.parked.blocks n = true := by
  change Sched.blocks (Sched.park _ 2) n = true
  rw [park_blocks]
  exact h.blocks n

/-- What the pass makes of the worker. -/
theorem Starving.worker (h : Starving S)
    (hroom : (S.sched.processes 3).agingCounter.toNat + 5 < 15 * 2 ^ 31) :
    ∃ m, 1 ≤ m ∧ m ≤ 5 ∧ S.parked.applyAging.processes 3 = age^[m] (S.sched.processes 3) ∧
      (S.parked.applyAging.processes 3).priority.toNat ≤ 4 ∧
      (S.parked.applyAging.processes 3).agingCounter.toNat =
        (S.sched.processes 3).agingCounter.toNat + m := by
  have hsame : S.parked.processes 3 = S.sched.processes 3 := parked_of_ne (by decide)
  have hentry : 0 < S.parked.entries 3 := by
    rw [h.parked_queued.entries, hsame, h.waits]
    decide
  obtain ⟨m, hpos, hm, hage⟩ := applyAging_counts h.parked_single h.parked_queued.nodes
    h.parked_blocks (by decide) hentry
  rw [hsame] at hage
  have hgraded : Graded (S.sched.processes 3) := h.ranked 3 (.inl (by rw [h.waits]; decide))
  obtain ⟨hlow, hcounter⟩ := iterate_age_low hgraded (by rw [h.waits]; decide)
    (le_of_eq h.original) h.below (show _ + m < _ by omega)
  rw [hage]
  exact ⟨m, hpos, hm, rfl, hlow, hcounter⟩

/-- Nobody but the shell is ready in the highest queue. -/
theorem Starving.shell_next (h : Starving S)
    (hroom : (S.sched.processes 3).agingCounter.toNat + 5 < 15 * 2 ^ 31) :
    (nextProcess (S.parked.applyAging.queuedCount + 1) S.parked.applyAging).currentProcess =
      some 2 := by
  have hstate : ∀ p, (S.parked.applyAging.processes p).state = (S.parked.processes p).state :=
    fun p => applyAging_aged.state p
  have hshell : S.parked.applyAging.processes 2 = S.parked.processes 2 :=
    applyAging_spared (.inr rfl)
  have horder : S.parked.applyAging.InOrder levels := applyAging_inOrder h.parked_single
    (fun n _ => h.parked_blocks n) fun n _ => h.parked_queued.nodes n
  have hready : (S.parked.processes 2).state = READY := by rw [parked_self h.running]
  apply nextProcess_top (Nat.lt_succ_self _)
  · have hentry : 0 < S.parked.applyAging.entries 2 := by
      rw [applyAging_entries h.parked_ranked (fun _ => h.parked_still)
        (fun n _ => h.parked_queued.nodes n), h.parked_queued.entries, hready]
      decide
    obtain ⟨k, hk, hmem⟩ := MultiQueue.entries_pos.mp hentry
    have hindex := horder k hk 2 hmem
    rw [hshell, parked_self h.running] at hindex
    unfold queueIndex at hindex
    have htop := h.top
    dsimp only at hindex
    rw [htop] at hindex
    rw [← hindex] at hmem
    exact hmem
  · unfold Stale
    rw [hstate, hready]
    decide
  · intro q hmem hable
    have hindex := horder 4 (by decide) q hmem
    have hq : (S.parked.processes q).state = READY := by
      have hstill := h.parked_still (p := q)
      unfold Stale at hable
      rw [hstate] at hable
      cases hst : (S.parked.processes q).state <;> simp_all
    rcases h.parked_ready hq with rfl | rfl | rfl
    · have hidle := h.idle
      rw [applyAging_spared (.inl rfl), parked_of_ne (by decide)] at hindex
      unfold queueIndex at hindex
      omega
    · rfl
    · obtain ⟨m, -, -, -, hlow, -⟩ := h.worker hroom
      unfold queueIndex at hindex
      omega

/-- **The shell yields and gets the CPU again**, and the counter of the worker grows. -/
theorem Starving.yield (h : Starving S)
    (hroom : (S.sched.processes 3).agingCounter.toNat + 5 < 15 * 2 ^ 31) :
    ∃ S', S.Step (.call .yield) S' ∧ Starving S' ∧
      (S.sched.processes 3).agingCounter.toNat < (S'.sched.processes 3).agingCounter.toNat ∧
      (S'.sched.processes 3).agingCounter.toNat ≤ (S.sched.processes 3).agingCounter.toNat + 5 := by
  have hstep := yield_step h.shell h.user
  have hnext := h.shell_next hroom
  have hself := yield_self h.shell hnext
  have hother := fun {p : ℤ} => yield_of_ne (p := p) h.shell hnext
  have hstate : ∀ p, (S.parked.applyAging.processes p).state = (S.parked.processes p).state :=
    fun p => applyAging_aged.state p
  obtain ⟨m, hpos, hm, hage, hlow, hcounter⟩ := h.worker hroom
  refine ⟨_, hstep, ?_, ?_, ?_⟩
  · constructor
    · exact h.base.step hstep
    · exact ranked_step h.base h.ranked hstep
    · exact queued_step (e := .call .yield) h.base h.queued trivial hstep
    · intro n
      rw [yield_sched h.shell hnext]
      change Sched.blocks (nextProcess _ _) n = true
      rw [nextProcess_blocks]
      exact (applyAging_heap_served h.parked_queued.nodes h.parked_blocks).2 n
    · rw [yield_sched h.shell hnext]
      rfl
    · exact h.user
    · rw [hself, applyAging_spared (.inr rfl), parked_self h.running]
      exact h.top
    · intro p hp
      by_cases hp2 : p = 2
      · subst hp2
        rw [hself] at hp
        exact absurd hp (by simp)
      · rw [hother hp2, hstate] at hp
        rcases h.parked_ready hp with hp | hp | hp
        · exact .inl hp
        · exact absurd hp hp2
        · exact .inr hp
    · rw [hother (by decide), applyAging_spared (.inl rfl), parked_of_ne (by decide)]
      exact h.idle
    · rw [hother (by decide), hstate, parked_of_ne (by decide)]
      exact h.waits
    · rw [hother (by decide), hage, iterate_age_originalPriority]
      exact h.original
    · rw [hother (by decide)]
      exact hlow
  · rw [hother (by decide)]
    omega
  · rw [hother (by decide)]
    omega

/-- A worker of priority 2. -/
def lowWorker : CreationParameters := { workerParams with priority := 2 }

/-- The shell has created a process right after boot. -/
def started (params : CreationParameters) : Machine := (booted.createProcess (some params)).2

theorem started_step (params : CreationParameters) :
    booted.Step (.call (.createProcess (some params))) (started params) := rfl

theorem started_reaches {ok : Machine → Event → Prop} (params : CreationParameters)
    (hok : ok booted (.call (.createProcess (some params)))) :
    Reaches Step ok booted (started params) :=
  (Reaches.refl booted).tail hok (started_step params)

theorem starving_started : Starving (started lowWorker) := by
  have hqueued : (started lowWorker).sched.Queued := queued_step base_boot (queued_boot _)
    (e := .call (.createProcess (some lowWorker))) trivial (started_step lowWorker)
  refine ⟨base_boot.step (started_step lowWorker),
    ranked_step base_boot (ranked_boot _ _) (started_step lowWorker), hqueued, fun _ => rfl,
    by decide +kernel, by decide +kernel, by decide +kernel, fun p hp => ?_, by decide +kernel,
    by decide +kernel, by decide +kernel, by decide +kernel⟩
  -- who is ready has an entry, and these are the entries
  have hentry : 0 < (started lowWorker).sched.entries p := by
    rw [hqueued.entries, hp]
    decide
  obtain ⟨i, hi, hmem⟩ := MultiQueue.entries_pos.mp hentry
  have hall : levels.all fun i => ((started lowWorker).sched.priorityQueues i).all fun p =>
      decide (p = 1 ∨ p = 3) := by decide +kernel
  exact of_decide_eq_true (List.all_eq_true.mp (List.all_eq_true.mp hall i hi) p hmem)

/-- As long as the counter does not overflow the boost, it gets as high as one likes. -/
theorem Starving.long : ∀ {B : ℕ}, B + 5 < 15 * 2 ^ 31 → ∃ S, Reaches Step leavesReady booted S ∧
    Starving S ∧ B ≤ (S.sched.processes 3).agingCounter.toNat ∧
      (S.sched.processes 3).agingCounter.toNat ≤ B + 5
  | 0, _ => ⟨_, started_reaches lowWorker trivial, starving_started, by decide +kernel,
      by decide +kernel⟩
  | B + 1, hB => by
      obtain ⟨S, hreach, hS, hlow, hhigh⟩ := Starving.long (B := B) (by omega)
      by_cases hdone : B + 1 ≤ (S.sched.processes 3).agingCounter.toNat
      · exact ⟨S, hreach, hS, hdone, by omega⟩
      · obtain ⟨S', hstep, hS', hgrows, hslow⟩ := hS.yield (by omega)
        exact ⟨S', hreach.tail (e := .call .yield) trivial hstep, hS', by omega, by omega⟩

/-- The worker is one of those that wait. -/
theorem Starving.counter_le {B : ℕ} (h : Starving S)
    (hall : ∀ S, Reaches Step leavesReady booted S →
    ∀ p, ∀ i ∈ levels, p ∈ S.sched.priorityQueues i → (S.sched.processes p).state = READY →
      p > 2 → (S.sched.processes p).agingCounter.toNat ≤ B)
    (hreach : Reaches Step leavesReady booted S) :
    (S.sched.processes 3).agingCounter.toNat ≤ B := by
  have hentry : 0 < S.sched.entries 3 := by
    rw [h.queued.entries, h.waits]
    decide
  obtain ⟨i, hi, hmem⟩ := MultiQueue.entries_pos.mp hentry
  exact hall S hreach 3 i hi hmem h.waits (by decide)

/-! ## A worker with many entries -/

/-- The shell has the CPU, and a worker of priority 3 has `n + 1` entries in its queue. -/
structure Doubled (n : ℕ) (S : Machine) : Prop where
  base : S.Base
  ranked : S.sched.Ranked
  nodes : ∀ n, S.sched.nodes n = true
  blocks : ∀ n, S.sched.blocks n = true
  shell : S.sched.currentProcess = some 2
  user : S.frames 2 = .user
  top : (S.sched.processes 2).originalPriority = 5
  empty : S.sched.priorityQueues 4 = []
  count : (S.sched.priorityQueues 2).count 3 = n + 1
  entries : S.sched.entries 3 = n + 1
  waits : (S.sched.processes 3).state = READY
  priority : (S.sched.processes 3).priority = 3
  original : (S.sched.processes 3).originalPriority = 3
  counter : (S.sched.processes 3).agingCounter = 0

theorem doubled_started : Doubled 0 (started workerParams) :=
  ⟨base_boot.step (started_step workerParams),
    ranked_step base_boot (ranked_boot _ _) (started_step workerParams), fun _ => rfl, fun _ => rfl,
    by decide +kernel, by decide +kernel, by decide +kernel, by decide +kernel, by decide +kernel,
    by decide +kernel, by decide +kernel, by decide +kernel, by decide +kernel, by decide +kernel⟩

/-- **Blocked and unblocked while it is ready, the worker gets one more entry.** -/
theorem Doubled.again {n : ℕ} (h : Doubled n S) : ∃ S', Reaches Step always S S' ∧
    Doubled (n + 1) S' := by
  let S₁ : Machine := S.onSched fun s => (s.blockProcess 3).2
  let S₂ : Machine := S₁.onSched fun s => (s.unblockProcess 3).2
  have hne : S.sched.currentProcess ≠ some 3 := by
    rw [h.shell]
    decide
  have hready : S.sched.isValidPID 3 = true := by
    rw [isValidPID_iff, h.waits]
    decide
  have hblock : S.Step (.call (.block 3)) S₁ := by
    unfold Step step
    rw [h.shell]
    dsimp only
    rw [if_pos h.user]
    change some (S.sysBlock 3) = _
    unfold sysBlock
    rw [hready]
    rfl
  have hshell : S₁.sched.currentProcess = some 2 := by
    change (S.sched.blockProcess 3).2.currentProcess = _
    rw [blockProcess_of_valid hready, if_neg hne]
    exact h.shell
  have hunblock : S₁.Step (.call (.unblock 3)) S₂ := by
    unfold Step step
    rw [hshell]
    dsimp only
    rw [if_pos (show S₁.frames 2 = .user from h.user)]
    rfl
  have hbase := h.base.step hblock
  have hsched : S₂.sched = S.sched.enqueue 3 := by
    change ((S.sched.blockProcess 3).2.unblockProcess 3).2 = _
    rw [unblock_block hne (by decide) h.waits]
    unfold schedule
    rw [h.priority]
    rfl
  have hindex : queueIndex (S.sched.processes 3) = 2 := by
    unfold queueIndex
    rw [h.priority]
    rfl
  have hqueues : S₂.sched.priorityQueues = Function.update S.sched.priorityQueues 2
      (S.sched.priorityQueues 2 ++ [3]) := by
    rw [hsched]
    unfold enqueue
    dsimp only [append]
    rw [hindex, if_pos (h.nodes 0)]
    rfl
  refine ⟨S₂, ((Reaches.refl S).tail (e := .call (.block 3)) trivial hblock).tail
    (e := .call (.unblock 3)) trivial hunblock, ?_⟩
  have hprocesses : S₂.sched.processes = S.sched.processes := by
    rw [hsched]
    rfl
  refine ⟨hbase.step hunblock, ranked_step hbase (ranked_step h.base h.ranked hblock) hunblock,
    fun n => ?_, fun n => ?_, ?_, h.user, ?_, ?_, ?_, ?_, ?_, ?_, ?_, ?_⟩
  · rw [hsched]
    exact h.nodes (n + 1)
  · rw [hsched]
    exact h.blocks n
  · rw [hsched]
    exact h.shell
  · rw [hprocesses]
    exact h.top
  · rw [hqueues]
    exact h.empty
  · rw [hqueues, Function.update_self, List.count_append, h.count]
    rfl
  · rw [hsched, entries_enqueue (h.nodes 0) (by rw [h.priority]; decide), h.entries]
    rfl
  · rw [hprocesses]
    exact h.waits
  · rw [hprocesses]
    exact h.priority
  · rw [hprocesses]
    exact h.original
  · rw [hprocesses]
    exact h.counter

theorem Doubled.many : ∀ n : ℕ, ∃ S, Reaches Step always booted S ∧ Doubled n S
  | 0 => ⟨_, started_reaches workerParams trivial, doubled_started⟩
  | n + 1 => by
      obtain ⟨S, hreach, hS⟩ := Doubled.many n
      obtain ⟨S', hreach', hS'⟩ := hS.again
      exact ⟨S', hreach.trans hreach', hS'⟩

theorem Doubled.running {n : ℕ} (h : Doubled n S) : (S.sched.processes 2).state = RUNNING :=
  h.base.running h.shell fun stage => by rw [h.user]; simp

theorem Doubled.parked_index {n : ℕ} (h : Doubled n S) :
    queueIndex (S.parked.processes 2) = 4 := by
  rw [parked_self h.running]
  unfold queueIndex
  dsimp only
  rw [h.top]
  rfl

/-- The shell goes to the highest queue, which was empty. -/
theorem Doubled.parked_queues {n : ℕ} (h : Doubled n S) :
    S.parked.priorityQueues = Function.update S.sched.priorityQueues 4 [2] := by
  have hqueues := park_top (s := { S.sched with isYield := true }) h.running h.top (h.nodes 0)
  rw [show ({ S.sched with isYield := true } : Sched).priorityQueues 4 = [] from h.empty] at hqueues
  exact hqueues

/-- **The shell yields and is chosen again**, and every entry of the worker has counted. -/
theorem Doubled.yield {n : ℕ} (h : Doubled n S) (hroom : n < 15 * 2 ^ 31) : ∃ S',
    S.Step (.call .yield) S' ∧ (∃ i ∈ levels, (3 : ℤ) ∈ S'.sched.priorityQueues i) ∧
      (S'.sched.processes 3).state = READY ∧
      (S'.sched.processes 3).originalPriority = 3 ∧
        n < (S'.sched.processes 3).agingCounter.toNat := by
  have hother : S.parked.processes 3 = S.sched.processes 3 := parked_of_ne (by decide)
  have hnodes : ∀ n, S.parked.nodes n = true := by
    intro n
    rcases park_nodes (s := { S.sched with isYield := true }) (c := 2) with heq | heq
    · exact (congrFun heq n).trans (h.nodes n)
    · exact (congrFun heq n).trans (h.nodes (n + 1))
  have hblocks : ∀ n, S.parked.blocks n = true :=
    fun n => (congrFun park_blocks n).trans (h.blocks n)
  have hcount : (S.parked.priorityQueues 2).count 3 = n + 1 := by
    rw [h.parked_queues, Function.update_of_ne (by decide)]
    exact h.count
  have hfew : S.parked.entries 3 ≤ n + 2 :=
    (park_entries_le { S.sched with isYield := true } 2 3).trans (by
      change S.sched.entries 3 + 1 ≤ n + 2
      rw [h.entries])
  obtain ⟨m, hlow, hhigh, hage⟩ := applyAging_every hnodes hblocks
    (show ¬((3 : ℤ) = 1 ∨ (3 : ℤ) = 2) by decide) (show (2 : ℤ) ∈ levels by decide)
  rw [hcount] at hlow
  rw [hother] at hage
  obtain ⟨rest, haged⟩ := applyAging_head hnodes hblocks (.inr rfl) h.parked_index
    (show S.parked.priorityQueues 4 = [2] by rw [h.parked_queues, Function.update_self])
  have hable : ¬S.parked.applyAging.Stale 2 := by
    unfold Stale
    rw [applyAging_spared (.inr rfl), parked_self h.running]
    simp
  have hfound : nextProcess (S.parked.applyAging.queuedCount + 1) S.parked.applyAging =
      { S.parked.applyAging.setQueue 4 rest with currentProcess := some 2 } :=
    nextProcess_head haged hable
  have hnext : (nextProcess (S.parked.applyAging.queuedCount + 1)
      S.parked.applyAging).currentProcess = some 2 := by
    rw [hfound]
  have hworker : (S.onSched Sched.yield).sched.processes 3 = age^[m] (S.sched.processes 3) :=
    (yield_of_ne h.shell hnext (by decide)).trans hage
  refine ⟨_, yield_step h.shell h.user, ?_, ?_, ?_, ?_⟩
  · -- its entries are those that the pass has left, but for the one of the shell
    have hstill := park_state_ne (s := { S.sched with isYield := true }) h.base.sound.alone h.shell
    have hranked : S.parked.Ranked := park_ranked (h.ranked.congr rfl rfl)
    have hqueued : S.parked.InQueues 3 :=
      ⟨2, by decide, List.count_pos_iff.mp (by rw [hcount]; exact Nat.succ_pos n)⟩
    obtain ⟨i, hi, hmem⟩ := (applyAging_served hranked hstill fun n _ => hnodes n).mpr hqueued
    refine ⟨i, hi, ?_⟩
    rw [yield_sched h.shell hnext, hfound]
    change (3 : ℤ) ∈ Function.update S.parked.applyAging.priorityQueues 4 rest i
    by_cases hi4 : i = 4
    · subst hi4
      rw [haged] at hmem
      rw [Function.update_self]
      exact (List.mem_cons.mp hmem).resolve_left (by decide)
    · rw [Function.update_of_ne hi4]
      exact hmem
  · rw [hworker, iterate_age_state]
    exact h.waits
  · rw [hworker, iterate_age_originalPriority]
    exact h.original
  · rw [hworker, iterate_age_agingCounter, h.counter, UInt64.zero_add, UInt64.toNat_ofNat']
    omega

/-- **No bound below the one at which the boost overflows holds for every wait**: not for a
process that aging cannot lift to the highest priority, and not for one that it can, if ready
processes are blocked. -/
theorem aging_unbounded :
    (¬∃ B, B + 5 < 15 * 2 ^ 31 ∧ ∀ S, Reaches Step leavesReady booted S → ∀ p, ∀ i ∈ levels,
      p ∈ S.sched.priorityQueues i → (S.sched.processes p).state = READY → p > 2 →
        (S.sched.processes p).agingCounter.toNat ≤ B) ∧
    ¬∃ B, B + 5 < 15 * 2 ^ 31 ∧ ∀ S, Reaches Step always booted S → ∀ p, ∀ i ∈ levels,
      p ∈ S.sched.priorityQueues i → (S.sched.processes p).state = READY → p > 2 →
        (S.sched.processes p).originalPriority.toNat + maxAgingBoost.toInt.toNat ≥
          maxPriority.toNat → (S.sched.processes p).agingCounter.toNat ≤ B := by
  constructor
  · rintro ⟨B, hB, hall⟩
    obtain ⟨S, hreach, hS, hlow, -⟩ := Starving.long hB
    have hbefore := hS.counter_le hall hreach
    -- one more round, and the counter is above the bound
    obtain ⟨S', hstep, hS', hgrows, -⟩ := hS.yield (by omega)
    have hafter := hS'.counter_le hall (hreach.tail (e := .call .yield) trivial hstep)
    omega
  · rintro ⟨B, hB, hall⟩
    obtain ⟨S, hreach, hS⟩ := Doubled.many B
    obtain ⟨S', hstep, ⟨i, hi, hmem⟩, hready, horiginal, hcounter⟩ := hS.yield (by omega)
    have hle := hall S' (hreach.tail (e := .call .yield) trivial hstep) 3 i hi hmem hready
      (by decide) (by rw [horiginal]; decide)
    omega

end Machine

end BareKernel.Kernel
