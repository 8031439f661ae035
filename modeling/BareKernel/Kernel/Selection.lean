import BareKernel.Kernel.AgingPasses

/-!
# The process that is selected

Only aging moves a process to the queue of its priority, and `nice` and aging change
priorities without moving anybody. A pass that gets every temporary queue puts all of
them right, so the first entry that `unschedule` finds has the highest priority. An
entry that is blocked or over is thrown away on the way.
-/

namespace BareKernel.Kernel

open ProcessState

namespace Sched

variable {s s' : Sched} {p c i j k : ℤ} {is done : List ℤ}

/-! ## Queues in order -/

/-- In these queues everybody stands in the queue of its priority. -/
def InOrder (s : Sched) (is : List ℤ) : Prop :=
  ∀ i ∈ is, ∀ p ∈ s.priorityQueues i, queueIndex (s.processes p) = i

theorem fillTemp_blocks : ∀ {l temp : List ℤ} {s : Sched},
    (fillTemp l s temp).1.blocks = s.blocks
  | [], _, _ => rfl
  | first :: rest, temp, s => by
      unfold fillTemp
      dsimp only
      rw [fillTemp_blocks]
      split <;> rfl

theorem requeue_blocks : ∀ {temp : List ℤ} {s : Sched}, (requeue temp s).blocks = s.blocks
  | [], _ => rfl
  | first :: _, s => (requeue_blocks (s := s.enqueue first)).trans rfl

theorem ageQueue_blocks : (s.ageQueue i).blocks = s.blocks ∨
    (s.ageQueue i).blocks = fun n => s.blocks (n + 1) := by
  unfold ageQueue
  split
  · exact .inl rfl
  · split
    · exact .inr rfl
    · dsimp only
      rw [requeue_blocks, fillTemp_blocks]
      exact .inr rfl

/-- The temporary queues that a pass over some queues may ask for are there. -/
theorem ageQueue_blocks_served {n : ℕ} (h : ∀ m < n + 1, s.blocks m = true) :
    ∀ m < n, (s.ageQueue i).blocks m = true := by
  intro m hm
  rcases ageQueue_blocks (s := s) (i := i) with heq | heq <;> rw [heq]
  · exact h m (by omega)
  · exact h (m + 1) (by omega)

/-- Aging a queue puts it in order, and leaves those in order that are. -/
theorem ageQueue_inOrder (hsingle : s.Single) (hi : i ∈ levels) (hproc : s.Processed i)
    (hnodes : ∀ n < s.ageNodes i, s.nodes n = true) (hdone : ∀ j ∈ done, j ∈ levels)
    (h : s.InOrder done) : (s.ageQueue i).InOrder (i :: done) := by
  intro j hj p hp
  rw [ageQueue_queues hproc hnodes, List.mem_append] at hp
  rw [ageQueue_processes hproc]
  rcases hp with hold | hnew
  · by_cases hji : j = i
    · rw [if_pos hji] at hold
      exact absurd hold List.not_mem_nil
    · rw [if_neg hji] at hold
      have hj' := (List.mem_cons.mp hj).resolve_left hji
      rw [visited_of_notMem]
      · exact h j hj' p hold
      · exact fun hother => hji (hsingle.unique (hdone j hj') hi hold hother)
  · exact of_decide_eq_true (List.mem_filter.mp hnew).2

/-- **A pass puts the queues in order** when it gets every temporary queue. -/
theorem applyAging_inOrder (hsingle : s.Single) (hblocks : ∀ n < 5, s.blocks n = true)
    (hnodes : ∀ n < s.agingNodes, s.nodes n = true) : s.applyAging.InOrder levels := by
  have hall : ∀ (is done : List ℤ) (s : Sched), (∀ i ∈ is, i ∈ levels) →
      (∀ j ∈ done, j ∈ levels) → s.Single → (∀ n < is.length, s.blocks n = true) →
        (∀ n < agingNodesFrom is s, s.nodes n = true) → s.InOrder done →
          (is.foldl ageQueue s).InOrder (is ++ done) := by
    intro is
    induction is with
    | nil => exact fun _ _ _ _ _ _ _ h => h
    | cons i is ih =>
        intro done s hlevels hdone hsingle hblocks hnodes h
        obtain ⟨hfirst, hnodes'⟩ := agingNodes_cons hnodes
        have hi := hlevels i List.mem_cons_self
        have hproc : s.Processed i := .inr (hblocks 0 (Nat.succ_pos _))
        have hnext := ih (i :: done) (s.ageQueue i)
          (fun j hj => hlevels j (List.mem_cons_of_mem _ hj)) (by simpa [hi] using hdone)
          (hsingle.ageQueue hi) (ageQueue_blocks_served hblocks) hnodes'
          (ageQueue_inOrder hsingle hi hproc hfirst hdone h)
        intro j hj
        apply hnext j
        simp only [List.mem_append, List.mem_cons] at hj ⊢
        tauto
  have hpass := hall levels [] s (fun _ hi => hi) (by simp) hsingle hblocks hnodes (by
    intro j hj
    exact absurd hj List.not_mem_nil)
  rwa [List.append_nil] at hpass

/-! ## The order in a queue -/

/-- Aging other queues only adds behind. -/
theorem pass_grows : ∀ {is : List ℤ} {s : Sched}, k ∉ is →
    (∀ n < agingNodesFrom is s, s.nodes n = true) →
      ∃ arrived, (is.foldl ageQueue s).priorityQueues k = s.priorityQueues k ++ arrived
  | [], s, _, _ => ⟨[], (List.append_nil _).symm⟩
  | i :: is, s, hk, hnodes => by
      rw [List.mem_cons, not_or] at hk
      obtain ⟨hfirst, hnodes'⟩ := agingNodes_cons hnodes
      obtain ⟨arrived, hrest⟩ := pass_grows hk.2 hnodes'
      rw [List.foldl_cons, hrest]
      by_cases hproc : s.Processed i
      · rw [ageQueue_queues hproc hfirst, if_neg hk.1, List.append_assoc]
        exact ⟨_, rfl⟩
      · rw [ageQueue_skipped hproc]
        exact ⟨arrived, rfl⟩

theorem pass_blocks_served {n : ℕ} : ∀ {is : List ℤ} {s : Sched},
    (∀ m < is.length + n, s.blocks m = true) →
      ∀ m < n, (is.foldl ageQueue s).blocks m = true
  | [], _, h => fun m hm => h m (by rwa [List.length_nil, Nat.zero_add])
  | i :: is, s, h => by
      rw [List.foldl_cons]
      apply pass_blocks_served
      apply ageQueue_blocks_served
      intro m hm
      apply h m
      rw [List.length_cons]
      omega

theorem agingNodes_append : ∀ {is js : List ℤ} {s : Sched},
    (∀ n < agingNodesFrom (is ++ js) s, s.nodes n = true) →
      (∀ n < agingNodesFrom is s, s.nodes n = true) ∧
        ∀ n < agingNodesFrom js (is.foldl ageQueue s), (is.foldl ageQueue s).nodes n = true
  | [], _, _, h => ⟨fun n hn => absurd hn (Nat.not_lt_zero n), h⟩
  | i :: is, js, s, h => by
      obtain ⟨hfirst, hrest⟩ := agingNodes_cons h
      obtain ⟨hleft, hright⟩ := agingNodes_append hrest
      refine ⟨fun n hn => ?_, hright⟩
      unfold agingNodesFrom at hn
      by_cases hlt : n < s.ageNodes i
      · exact hfirst n hlt
      · have hlater := hleft (n - s.ageNodes i) (by omega)
        rw [ageQueue_nodes] at hlater
        dsimp only at hlater
        rwa [Nat.sub_add_cancel (by omega)] at hlater

theorem newQueueIn_true : ∀ {is : List ℤ} {s : Sched}, k ∈ is →
    (∀ n < is.length, s.blocks n = true) → newQueueIn is s k = true
  | [], _, hk, _ => absurd hk List.not_mem_nil
  | i :: is, s, hk, hblocks => by
      unfold newQueueIn
      by_cases hik : i = k
      · rw [if_pos hik]
        exact hblocks 0 (Nat.succ_pos _)
      · rw [if_neg hik]
        exact newQueueIn_true ((List.mem_cons.mp hk).resolve_left (Ne.symm hik))
          (ageQueue_blocks_served hblocks)

theorem pass_single : ∀ {is : List ℤ} {s : Sched}, (∀ i ∈ is, i ∈ levels) → s.Single →
    (is.foldl ageQueue s).Single
  | [], _, _, h => h
  | i :: is, s, hlevels, h => by
      rw [List.foldl_cons]
      exact pass_single (fun j hj => hlevels j (List.mem_cons_of_mem _ hj))
        (h.ageQueue (hlevels i List.mem_cons_self))

/-- A process that has its priority still at the end of a pass has it when its queue is
aged: a boost does not fall. -/
theorem keeps_priority (hsingle : s.Single) (hblocks : ∀ n < 5, s.blocks n = true)
    (hnodes : ∀ n < s.agingNodes, s.nodes n = true) (hgraded : Graded (s.processes p))
    (hrun : (s.processes p).state ≠ RUNNING) (hk : k ∈ levels) (hp : p ∈ s.priorityQueues k)
    (hnot : ¬(p = 1 ∨ p = 2)) (hbefore : queueIndex (s.processes p) = k)
    (hafter : queueIndex (s.applyAging.processes p) = k) :
    queueIndex (age (s.processes p)) = k := by
  obtain ⟨m, -, hage, -, hyes⟩ :=
    pass_visits hnot (by decide) (fun _ hi => hi) hsingle hnodes hk hp
  obtain ⟨hpos, hiff⟩ := hyes (newQueueIn_true hk hblocks)
  change queueIndex ((levels.foldl ageQueue s).processes p) = k at hafter
  rw [hage] at hafter
  by_cases hone : m = 1
  · rw [hone] at hafter
    exact hafter
  · by_contra hmoved
    have hrises := not_not.mp (mt hiff.mpr hone)
    have hboosted : Boosted (age (s.processes p)) := by
      apply age_high hgraded
      by_contra hlow
      rw [age_low hlow] at hmoved
      exact hmoved hbefore
    have hstate : (age (s.processes p)).state ≠ RUNNING := by
      rw [age_state]
      exact hrun
    have hle := iterate_boosted (m := m - 1) hboosted (age_graded hgraded hrun) hstate
    rw [← Function.iterate_succ_apply, Nat.succ_eq_add_one, Nat.sub_add_cancel hpos] at hle
    have hlt := hrises.1
    unfold queueIndex at hafter hlt
    omega

/-- What a pass makes of queue `k`: it holds those with its priority, first the ones that
kept it, in the order they had, and behind them whoever came from elsewhere. -/
structure Aligned (s s' : Sched) (k : ℤ) (stay arrived : List ℤ) : Prop where
  queue : s'.priorityQueues k = stay ++ arrived
  sorted : ∀ p ∈ s'.priorityQueues k, queueIndex (s'.processes p) = k
  order : stay.Sublist (s.priorityQueues k)
  kept : ∀ p ∈ s.priorityQueues k, queueIndex (s.processes p) = k →
    queueIndex (s'.processes p) = k → p ∈ stay
  behind : ∀ p ∈ arrived, ¬(p ∈ s.priorityQueues k ∧ queueIndex (s.processes p) = k ∧
    queueIndex (s'.processes p) = k)

/-- **A pass puts the queues in order**, keeping the order inside them, when it gets every
temporary queue. -/
theorem applyAging_aligned (hsingle : s.Single) (hblocks : ∀ n < 5, s.blocks n = true)
    (hnodes : ∀ n < s.agingNodes, s.nodes n = true) (hranked : s.Ranked)
    (hrun : ∀ p, (s.processes p).state ≠ RUNNING) (hk : k ∈ levels) :
    ∃ stay arrived, Aligned s s.applyAging k stay arrived := by
  obtain ⟨before, after, hsplit⟩ := List.append_of_mem hk
  have hnodup : (before ++ k :: after).Nodup := hsplit ▸ levels_nodup
  obtain ⟨hbefore, hafter⟩ : k ∉ before ∧ k ∉ after := by
    rw [List.nodup_append, List.nodup_cons] at hnodup
    exact ⟨fun hmem => hnodup.2.2 k hmem k List.mem_cons_self rfl, hnodup.2.1.1⟩
  have hlevels : ∀ i ∈ before, i ∈ levels := by
    intro i hi
    rw [hsplit]
    exact List.mem_append_left _ hi
  have hfold : s.applyAging = after.foldl ageQueue ((before.foldl ageQueue s).ageQueue k) := by
    change levels.foldl ageQueue s = _
    rw [hsplit, List.foldl_append, List.foldl_cons]
  have hpasses : ∀ n < agingNodesFrom (before ++ k :: after) s, s.nodes n = true := by
    rw [← hsplit]
    exact hnodes
  obtain ⟨hnodes₁, hnodes₂⟩ := agingNodes_append hpasses
  obtain ⟨hnodesk, hnodes₃⟩ := agingNodes_cons hnodes₂
  have hblocksk : (before.foldl ageQueue s).blocks 0 = true := by
    have hlength : before.length + (after.length + 1) = 5 := by
      have := congrArg List.length hsplit
      rw [List.length_append, List.length_cons] at this
      exact this.symm
    exact pass_blocks_served (n := 1) (fun m hm => hblocks m (by omega)) 0 Nat.one_pos
  obtain ⟨came, hcame⟩ := pass_grows hbefore hnodes₁
  obtain ⟨later, hlater⟩ := pass_grows hafter hnodes₃
  have hqueue := hlater
  rw [ageQueue_queues (.inr hblocksk) hnodesk, if_pos rfl, List.nil_append, hcame,
    List.filter_append, List.append_assoc, ← hfold] at hqueue
  -- whoever keeps its priority was not yet touched, and is aged here with this result
  have hkept : ∀ p ∈ s.priorityQueues k, queueIndex (s.processes p) = k →
      queueIndex (s.applyAging.processes p) = k →
        p ∈ (s.priorityQueues k).filter fun p =>
          queueIndex ((before.foldl ageQueue s).visited k p) = k := by
    intro p hp hbeforep hafterp
    rw [List.mem_filter, decide_eq_true_eq]
    refine ⟨hp, ?_⟩
    have huntouched : (before.foldl ageQueue s).processes p = s.processes p := by
      apply pass_absent
      intro i hi hother
      have heq := hsingle.unique (hlevels i hi) hk hother hp
      exact hbefore (heq ▸ hi)
    unfold visited
    rw [huntouched]
    by_cases hshell : p = 1 ∨ p = 2
    · rw [if_pos hshell]
      exact hbeforep
    · have hmem : p ∈ (before.foldl ageQueue s).priorityQueues k := by
        rw [hcame]
        exact List.mem_append_left _ hp
      rw [if_neg hshell, (pass_single hlevels hsingle).count hk hmem]
      exact keeps_priority hsingle hblocks hnodes (hranked p (.inr ⟨k, hp⟩)) (hrun p) hk hp
        hshell hbeforep hafterp
  refine ⟨_, _, hqueue, ?_, List.filter_sublist, hkept, ?_⟩
  · exact applyAging_inOrder hsingle hblocks hnodes k hk
  · rintro p hp ⟨hmem, hbeforep, hafterp⟩
    have hstay := List.count_pos_iff.mpr (hkept p hmem hbeforep hafterp)
    have harrived := List.count_pos_iff.mpr hp
    have hsingle' : s.applyAging.Single := pass_single (fun _ hi => hi) hsingle
    have hone := hsingle' p
    have hle : (s.applyAging.priorityQueues k).count p ≤ s.applyAging.entries p :=
      MultiQueue.count_le_entries hk
    rw [hqueue, List.count_append] at hle
    omega

/-! ## The first entry that can run -/

/-- An entry that the search throws away. -/
def Stale (s : Sched) (p : ℤ) : Prop :=
  (s.processes p).state = BLOCKED ∨ (s.processes p).state = EXITED

/-- `unschedule` takes the first entry of the highest queue that has one. -/
theorem unschedule_top (h : s.unschedule = some (p, s')) : ∃ i ∈ levels, ∃ rest,
    s.priorityQueues i = p :: rest ∧ s' = s.setQueue i rest ∧
      ∀ j ∈ levels, i < j → s.priorityQueues j = [] := by
  have hall : ∀ is : List ℤ, is.Pairwise (· > ·) → s.unscheduleFrom is = some (p, s') →
      ∃ i ∈ is, ∃ rest, s.priorityQueues i = p :: rest ∧ s' = s.setQueue i rest ∧
        ∀ j ∈ is, i < j → s.priorityQueues j = [] := by
    intro is
    induction is with
    | nil =>
        intro _ h
        exact absurd h (by simp [unscheduleFrom])
    | cons i is ih =>
        intro hsorted h
        obtain ⟨hlow, hsorted'⟩ := List.pairwise_cons.mp hsorted
        unfold unscheduleFrom at h
        split at h
        · rename_i hempty
          obtain ⟨k, hk, rest, hq, hs, habove⟩ := ih hsorted' h
          refine ⟨k, List.mem_cons_of_mem _ hk, rest, hq, hs, fun j hj hlt => ?_⟩
          rcases List.mem_cons.mp hj with rfl | hj
          · exact hempty
          · exact habove j hj hlt
        · rename_i first rest hq
          simp only [Option.some.injEq, Prod.mk.injEq] at h
          obtain ⟨rfl, rfl⟩ := h
          refine ⟨i, List.mem_cons_self, rest, hq, rfl, fun j hj hlt => ?_⟩
          rcases List.mem_cons.mp hj with rfl | hj
          · exact absurd hlt (lt_irrefl _)
          · exact absurd (hlow j hj) (by omega)
  obtain ⟨i, hi, rest, hq, hs, habove⟩ := hall [4, 3, 2, 1, 0] (by decide) h
  have hmem : ∀ j, j ∈ levels ↔ j ∈ [4, 3, 2, 1, 0] := by
    intro j
    simp only [levels, List.mem_cons, List.not_mem_nil, or_false]
    omega
  exact ⟨i, (hmem i).mpr hi, rest, hq, hs, fun j hj => habove j ((hmem j).mp hj)⟩

/-- What the search finds: the entries before it and above it are stale and are thrown
away, those behind it and below it stay. -/
structure Found (s s' : Sched) (p k : ℤ) (pre rest : List ℤ) : Prop where
  level : k ∈ levels
  queue : s.priorityQueues k = pre ++ p :: rest
  able : ¬s.Stale p
  skipped : ∀ q ∈ pre, s.Stale q
  above : ∀ j ∈ levels, k < j → (∀ q ∈ s.priorityQueues j, s.Stale q) ∧ s'.priorityQueues j = []
  left : s'.priorityQueues k = rest
  below : ∀ j, j < k → s'.priorityQueues j = s.priorityQueues j

theorem nextProcess_found : ∀ {fuel : ℕ} {s : Sched},
    (nextProcess fuel s).currentProcess = some p →
      ∃ k pre rest, Found s (nextProcess fuel s) p k pre rest
  | 0, _, h => by simp [nextProcess] at h
  | fuel + 1, s, h => by
      unfold nextProcess at h ⊢
      split at h
      · exact absurd h (by simp)
      · rename_i first s₁ hsome
        obtain ⟨i, hi, tail, hq, rfl, habove⟩ := unschedule_top hsome
        have hqueues : ∀ j, (s.setQueue i tail).priorityQueues j =
            if j = i then tail else s.priorityQueues j := by
          intro j
          change Function.update s.priorityQueues i tail j = _
          by_cases hj : j = i
          · rw [hj, Function.update_self, if_pos rfl]
          · rw [Function.update_of_ne hj, if_neg hj]
        split at h
        · rename_i hstale
          rw [if_pos hstale]
          obtain ⟨k, pre, rest, hfound⟩ := nextProcess_found h
          have hki : k ≤ i := by
            by_contra hlt
            have hempty := habove k hfound.level (by omega)
            have hqueue := hfound.queue
            rw [hqueues, if_neg (by omega), hempty] at hqueue
            exact absurd hqueue.symm (List.append_ne_nil_of_right_ne_nil _ (List.cons_ne_nil _ _))
          by_cases heq : k = i
          · subst heq
            have hqueue := hfound.queue
            rw [hqueues, if_pos rfl] at hqueue
            refine ⟨k, first :: pre, rest, hfound.level, ?_, hfound.able, ?_, ?_, hfound.left, ?_⟩
            · rw [hq, hqueue, List.cons_append]
            · intro q hmem
              rcases List.mem_cons.mp hmem with rfl | hmem
              · exact hstale
              · exact hfound.skipped q hmem
            · intro j hj hlt
              refine ⟨?_, (hfound.above j hj hlt).2⟩
              rw [habove j hj hlt]
              exact fun q hmem => absurd hmem List.not_mem_nil
            · intro j hlt
              rw [hfound.below j hlt, hqueues, if_neg (by omega)]
          · refine ⟨k, pre, rest, hfound.level, ?_, hfound.able, hfound.skipped, ?_,
              hfound.left, ?_⟩
            · have hqueue := hfound.queue
              rwa [hqueues, if_neg heq] at hqueue
            · intro j hj hlt
              obtain ⟨hall, hempty⟩ := hfound.above j hj hlt
              refine ⟨?_, hempty⟩
              rw [hqueues] at hall
              by_cases hji : j = i
              · subst hji
                rw [if_pos rfl] at hall
                rw [hq]
                intro q hmem
                rcases List.mem_cons.mp hmem with rfl | hmem
                · exact hstale
                · exact hall q hmem
              · rwa [if_neg hji] at hall
            · intro j hlt
              rw [hfound.below j hlt, hqueues, if_neg (by omega)]
        · rename_i hable
          rw [if_neg hable]
          obtain rfl : first = p := Option.some.inj h
          refine ⟨i, [], tail, hi, by rw [hq, List.nil_append], hable, by simp, ?_, ?_, ?_⟩
          · intro j hj hlt
            rw [habove j hj hlt]
            refine ⟨fun q hmem => absurd hmem List.not_mem_nil, ?_⟩
            change (s.setQueue i tail).priorityQueues j = []
            rw [hqueues, if_neg (by omega), habove j hj hlt]
          · change (s.setQueue i tail).priorityQueues i = tail
            rw [hqueues, if_pos rfl]
          · intro j hlt
            change (s.setQueue i tail).priorityQueues j = _
            rw [hqueues, if_neg (by omega)]

/-- If the search finds nobody, every entry was stale. -/
theorem nextProcess_stale : ∀ {fuel : ℕ} {s : Sched}, s.queuedCount < fuel →
    (nextProcess fuel s).currentProcess = none →
      ∀ j ∈ levels, ∀ q ∈ s.priorityQueues j, s.Stale q
  | 0, _, hfuel, _ => absurd hfuel (Nat.not_lt_zero _)
  | fuel + 1, s, hfuel, h => by
      intro j hj q hmem
      unfold nextProcess at h
      split at h
      · rename_i hnone
        have hempty := unscheduleFrom_none.mp hnone j (by
          simp only [levels, List.mem_cons, List.not_mem_nil, or_false] at hj ⊢
          omega)
        rw [hempty] at hmem
        exact absurd hmem List.not_mem_nil
      · rename_i first s₁ hsome
        obtain ⟨i, hi, tail, hq, rfl⟩ := unschedule_some hsome
        split at h
        · rename_i hstale
          have hcount := queuedCount_tail hi hq
          have hrest := nextProcess_stale (by omega) h
          by_cases hji : j = i
          · subst hji
            rw [hq] at hmem
            rcases List.mem_cons.mp hmem with rfl | hmem
            · exact hstale
            · apply hrest j hj q
              change q ∈ Function.update s.priorityQueues j tail j
              rwa [Function.update_self]
          · apply hrest j hj q
            change q ∈ Function.update s.priorityQueues i tail j
            rwa [Function.update_of_ne hji]
        · exact absurd h (by simp)

/-! ## Nobody gets lost -/

/-- With a node for each element, and priorities in range, every element gets an entry. -/
theorem requeue_entries : ∀ {temp : List ℤ} {s : Sched}, (∀ n < temp.length, s.nodes n = true) →
    (∀ q ∈ temp, checkPriority (s.processes q).priority) →
      (requeue temp s).entries p = s.entries p + temp.count p
  | [], _, _, _ => rfl
  | first :: rest, s, hnodes, hcheck => by
      have hrest : (requeue rest (s.enqueue first)).entries p =
          (s.enqueue first).entries p + rest.count p :=
        requeue_entries (fun n hn => hnodes (n + 1) (Nat.succ_lt_succ hn))
          fun q hq => hcheck q (List.mem_cons_of_mem _ hq)
      change (requeue rest (s.enqueue first)).entries p = _
      rw [hrest, entries_enqueue (hnodes 0 (Nat.succ_pos _)) (hcheck first List.mem_cons_self),
        List.count_cons]
      simp only [beq_iff_eq, eq_comm (a := first)]
      omega

theorem ageQueue_entries (h : s.Ranked) (hrun : ∀ p, (s.processes p).state ≠ RUNNING)
    (hi : i ∈ levels) (hnodes : ∀ n < s.ageNodes i, s.nodes n = true) :
    (s.ageQueue i).entries p = s.entries p := by
  unfold ageQueue
  unfold ageNodes at hnodes
  split
  · rfl
  · rename_i hne
    split
    · rfl
    · rename_i hblock
      rw [if_neg (not_or.mpr ⟨hne, hblock⟩)] at hnodes
      dsimp only
      have hall : (fillTemp (s.priorityQueues i) (s.dropBlock.setQueue i []) []).2 =
          [] ++ s.priorityQueues i := fillTemp_served fun n hn => hnodes n (by omega)
      rw [List.nil_append] at hall
      have hclear := MultiQueue.entries_update (q := s.priorityQueues) (l := []) (a := p)
        levels_nodup hi
      rw [List.count_nil, Nat.add_zero] at hclear
      rw [requeue_entries]
      · unfold entries
        rw [fillTemp_priorityQueues, hall]
        exact hclear
      · intro n hn
        rw [fillTemp_nodes]
        change s.nodes (n + (s.priorityQueues i).length) = true
        apply hnodes
        omega
      · rw [hall]
        intro q hq
        exact (fillTemp_graded (s := s.dropBlock.setQueue i [])
          (A := fun p => p ∈ s.priorityQueues i) hrun
          (fun p hp => h p (.inr ⟨i, hp⟩)) q hq).priority

/-- **A pass loses nobody**: everybody has as many entries as before. -/
theorem applyAging_entries (h : s.Ranked) (hrun : ∀ p, (s.processes p).state ≠ RUNNING)
    (hnodes : ∀ n < s.agingNodes, s.nodes n = true) : s.applyAging.entries p = s.entries p := by
  have hall : ∀ (is : List ℤ) (s : Sched), (∀ i ∈ is, i ∈ levels) → s.Ranked →
      (∀ p, (s.processes p).state ≠ RUNNING) → (∀ n < agingNodesFrom is s, s.nodes n = true) →
        (is.foldl ageQueue s).entries p = s.entries p := by
    intro is
    induction is with
    | nil => exact fun _ _ _ _ _ => rfl
    | cons i is ih =>
        intro s hlevels h hrun hnodes
        obtain ⟨hfirst, hnodes'⟩ := agingNodes_cons hnodes
        have hi := hlevels i List.mem_cons_self
        rw [List.foldl_cons, ih (s.ageQueue i) (fun j hj => hlevels j (List.mem_cons_of_mem _ hj))
          (ageQueue_ranked h hrun) _ hnodes']
        · exact ageQueue_entries h hrun hi hfirst
        · intro q
          rw [ageQueue_aged.state]
          exact hrun q
  exact hall levels s (fun _ hi => hi) h hrun hnodes

/-! ## Strict priority -/

/-- A state of the scheduler: priorities in range, only the current process runs, nobody
is queued twice, and who runs is not queued. -/
structure Regular (s : Sched) : Prop where
  ranked : s.Ranked
  alone : s.Alone
  once : s.Single
  running : ∀ p, (s.processes p).state = RUNNING → s.entries p = 0

/-- The current process leaves the CPU: its time slice is over, or it yielded, or it does
not run any more. -/
def Leaves (s : Sched) (c : ℤ) : Prop :=
  s.currentProcess = some c ∧
    ¬((s.processes c).state = RUNNING ∧ s.quantumsLeft > 0 ∧ ¬s.isYield)

/-- The process `p` gets the CPU, `aged` being the state after the aging pass: it was ready
and queued, no ready process in the queues has a higher priority, and those of the same
priority are behind it. Only stale entries are thrown away, and the entry of `p`. -/
structure Chosen (aged s' : Sched) (p k : ℤ) (pre rest : List ℤ) : Prop extends
    Found aged s' p k pre rest where
  ready : (aged.processes p).state = READY
  runs : s'.currentProcess = some p ∧ (s'.processes p).state = RUNNING
  highest : ∀ j ∈ levels, ∀ q ∈ aged.priorityQueues j, (aged.processes q).state = READY →
    (aged.processes q).priority ≤ (aged.processes p).priority
  first : ∀ j ∈ levels, ∀ q ∈ aged.priorityQueues j, (aged.processes q).state = READY →
    (aged.processes q).priority = (aged.processes p).priority → j = k ∧ q ∈ p :: rest

theorem park_nodes : (s.park c).nodes = s.nodes ∨ (s.park c).nodes = fun n => s.nodes (n + 1) := by
  unfold park
  split
  · dsimp only
    unfold schedule
    split
    · exact .inr rfl
    · exact .inl rfl
  all_goals exact .inl rfl

theorem park_blocks : (s.park c).blocks = s.blocks := by
  unfold park
  split
  · exact schedule_blocks
  all_goals rfl

theorem park_single (h : s.Regular) : (s.park c).Single := by
  intro p
  unfold park
  split
  · rename_i hrun
    dsimp only
    unfold schedule
    split
    · refine le_trans (enqueue_entries_le _ p c) ?_
      rw [entries_setProcess]
      by_cases hp : p = c
      · subst hp
        rw [h.running p hrun, if_pos rfl]
      · rw [if_neg hp]
        exact h.once p
    · exact h.once p
  all_goals exact h.once p

/-- What the switch returns, when the current process leaves. -/
theorem switchContext_leaves (h : s.Leaves c) : s.switchContext =
    match (nextProcess ((s.park c).applyAging.queuedCount + 1) (s.park c).applyAging).currentProcess
      with
    | none => nextProcess ((s.park c).applyAging.queuedCount + 1) (s.park c).applyAging
    | some p => { (nextProcess ((s.park c).applyAging.queuedCount + 1)
        (s.park c).applyAging).dispatch p with isYield := false } := by
  unfold switchContext
  rw [h.1]
  exact if_neg h.2

/-- A queue in order: its index says the priority of whoever stands in it. -/
theorem InOrder.priority_le {q : ℤ} (h : s.InOrder levels) (hj : j ∈ levels) (hk : k ∈ levels)
    (hq : q ∈ s.priorityQueues j) (hp : p ∈ s.priorityQueues k) :
    (s.processes q).priority ≤ (s.processes p).priority ↔ j ≤ k := by
  have hjq := h j hj q hq
  have hkp := h k hk p hp
  unfold queueIndex at hjq hkp
  rw [UInt32.le_iff_toNat_le]
  omega

/-- **Strict priority selection.** When every allocation succeeds, whoever gets the CPU was
ready and queued with the highest priority, first among its equals; without such a process
nobody gets it. -/
theorem strict_selection (s : Sched) (c : ℤ) (h : s.Regular) (hnodes : ∀ n, s.nodes n = true)
    (hblocks : ∀ n, s.blocks n = true) (hleaves : s.Leaves c) :
    (∀ p, (s.park c).applyAging.entries p = (s.park c).entries p) ∧
      (∀ p, s.switchContext.currentProcess = some p →
        ∃ k pre rest, Chosen (s.park c).applyAging s.switchContext p k pre rest) ∧
      (s.switchContext.currentProcess = none →
        ∀ j ∈ levels, ∀ q ∈ (s.park c).applyAging.priorityQueues j,
          (s.park c).applyAging.Stale q) := by
  have hrun := park_state_ne h.alone hleaves.1
  have hnodes' : ∀ n, (s.park c).nodes n = true := by
    intro n
    rcases park_nodes (s := s) (c := c) with heq | heq <;> rw [heq]
    · exact hnodes n
    · exact hnodes (n + 1)
  have horder : (s.park c).applyAging.InOrder levels := by
    refine applyAging_inOrder (park_single h) (fun n _ => ?_) fun n _ => hnodes' n
    rw [park_blocks]
    exact hblocks n
  have hstate : ∀ q, ((s.park c).applyAging.processes q).state ≠ RUNNING := by
    intro q
    rw [applyAging_aged.state]
    exact hrun q
  refine ⟨fun p => applyAging_entries (park_ranked h.ranked) hrun fun n _ => hnodes' n, ?_, ?_⟩
  · intro p hp
    rw [switchContext_leaves hleaves] at hp ⊢
    generalize (s.park c).applyAging = aged at *
    split at hp
    · rename_i hnone
      rw [hnone] at hp
      exact absurd hp (by simp)
    · rename_i q hq
      obtain rfl : q = p := Option.some.inj hp
      obtain ⟨k, pre, rest, hfound⟩ := nextProcess_found hq
      have hmem : q ∈ aged.priorityQueues k := by
        rw [hfound.queue]
        exact List.mem_append_right _ List.mem_cons_self
      have hbelow : ∀ j ∈ levels, ∀ r ∈ aged.priorityQueues j,
          (aged.processes r).state = READY → j ≤ k := by
        intro j hj r hr hready
        by_contra hlt
        have hstale := (hfound.above j hj (not_le.mp hlt)).1 r hr
        unfold Stale at hstale
        rw [hready] at hstale
        exact absurd hstale (by decide)
      refine ⟨k, pre, rest, ⟨hfound.level, hfound.queue, hfound.able, hfound.skipped, hfound.above,
        hfound.left, hfound.below⟩, ?_, ⟨rfl, ?_⟩, ?_, ?_⟩
      · have hable := hfound.able
        have hnot := hstate q
        unfold Stale at hable
        cases hst : (aged.processes q).state <;> simp_all
      · simp [dispatch]
      · intro j hj r hr hready
        exact (horder.priority_le hj hfound.level hr hmem).mpr (hbelow j hj r hr hready)
      · intro j hj r hr hready heq
        have hjk : j = k := by
          have hge := (horder.priority_le hfound.level hj hmem hr).mp
              (by rw [heq]; exact UInt32.le_refl _)
          have hle := hbelow j hj r hr hready
          omega
        subst hjk
        refine ⟨rfl, ?_⟩
        rw [hfound.queue] at hr
        rcases List.mem_append.mp hr with hpre | hr
        · have hstale := hfound.skipped r hpre
          unfold Stale at hstale
          rw [hready] at hstale
          exact absurd hstale (by decide)
        · exact hr
  · intro hnone
    rw [switchContext_leaves hleaves] at hnone
    split at hnone
    · rename_i hnext
      exact nextProcess_stale (Nat.lt_succ_self _) hnext
    · exact absurd hnone (by simp [dispatch])

/-! ## The states of the kernel -/

theorem Queued.regular (h : s.Queued) (hranked : s.Ranked) (halone : s.Alone) : s.Regular := by
  refine ⟨hranked, halone, fun p => ?_, fun p hrun => ?_⟩
  · rw [h.entries]
    split <;> omega
  · rw [h.entries, hrun]
    rfl

/-- The shell yields right after boot. -/
def shellYields : Sched := { Machine.booted.sched with isYield := true }

theorem shellYields_blocks (n : ℕ) : shellYields.blocks n = true := rfl

theorem shellYields_regular : shellYields.Regular := by
  have hqueued : Machine.booted.sched.Queued := Machine.queued_boot _
  have hranked : Machine.booted.sched.Ranked := Machine.ranked_boot _ _
  have hregular := hqueued.regular hranked Machine.base_boot.sound.alone
  exact ⟨hregular.ranked, hregular.alone, hregular.once, hregular.running⟩

/-- It is the first of the highest queue again. -/
theorem strict_selection_yield : ∃ k pre rest,
    Chosen (shellYields.park 2).applyAging shellYields.switchContext 2 k pre rest := by
  refine (strict_selection shellYields 2 shellYields_regular (fun n => congrFun booted_nodes n)
    shellYields_blocks ⟨by decide +kernel, by decide +kernel⟩).2.1 2 ?_
  decide +kernel

/-- Everybody but three processes is over. PID 3 is queued twice, in the queues of
priority 4 and 5, its priority being boosted to 4 and its counter two below the
threshold; PID 4 stands behind it, and PID 5 has just blocked. -/
def queuedTwice : Sched :=
  { Machine.booted.sched with
    processes := fun p =>
      if p = 3 then { Machine.emptyProcess with
        priority := 4, originalPriority := 2, state := READY, agingCounter := 13 }
      else if p = 4 then { Machine.emptyProcess with
        priority := 4, originalPriority := 4, state := READY }
      else if p = 5 then { Machine.emptyProcess with
        priority := 3, originalPriority := 3, state := BLOCKED }
      else Machine.emptyProcess
    priorityQueues := fun i => if i = 3 then [3, 4] else if i = 4 then [3] else []
    currentProcess := some 5 }

theorem queuedTwice_blocks (n : ℕ) : queuedTwice.blocks n = true := rfl

theorem queuedTwice_regular : queuedTwice.Ranked ∧ queuedTwice.Alone := by
  constructor
  · intro p hp
    unfold queuedTwice at hp ⊢
    dsimp only at hp ⊢
    by_cases h3 : p = 3
    · rw [if_pos h3]
      exact ⟨by decide, by decide, .inl (by decide), fun hrun => absurd hrun (by decide)⟩
    · rw [if_neg h3] at hp ⊢
      by_cases h4 : p = 4
      · rw [if_pos h4]
        exact ⟨by decide, by decide, .inl (by decide), fun hrun => absurd hrun (by decide)⟩
      · rw [if_neg h4] at hp ⊢
        by_cases h5 : p = 5
        · rw [if_pos h5]
          exact ⟨by decide, by decide, .inl (by decide), fun hrun => absurd hrun (by decide)⟩
        · rw [if_neg h5] at hp
          rcases hp with halive | ⟨i, hi⟩
          · exact absurd rfl halive
          · split at hi
            · simp [h3, h4] at hi
            · split at hi
              · simp [h3] at hi
              · exact absurd hi List.not_mem_nil
  · intro p hrun
    unfold queuedTwice at hrun
    dsimp only at hrun
    split at hrun
    · exact absurd hrun (by decide)
    · split at hrun
      · exact absurd hrun (by decide)
      · split at hrun <;> exact absurd hrun (by decide)

/-- **A process queued twice can get the CPU before a better one**: the second entry of
PID 3 is aged after the first has been put back, and brings its priority down to 3. -/
theorem selection_misled : ¬∀ s c, Ranked s → s.Alone → (∀ n, s.nodes n = true) →
    (∀ n, s.blocks n = true) → s.Leaves c → ∀ p, s.switchContext.currentProcess = some p →
      ∀ j ∈ levels, ∀ q ∈ (s.park c).applyAging.priorityQueues j,
        ((s.park c).applyAging.processes q).state = READY →
          ((s.park c).applyAging.processes q).priority ≤
            ((s.park c).applyAging.processes p).priority := by
  intro hall
  have hle := hall queuedTwice 5 queuedTwice_regular.1 queuedTwice_regular.2
    (fun n => congrFun booted_nodes n) queuedTwice_blocks ⟨rfl, by decide +kernel⟩ 3
    (by decide +kernel) 3 (by decide) 4 (by decide +kernel) (by decide +kernel)
  exact absurd hle (by decide +kernel)

end Sched

namespace Machine

/-- Every state that the kernel reaches while nobody blocks a ready process is one. -/
theorem regular_reachable (blocks : ℕ → Bool) (S : Machine)
    (h : Runs.Reaches Step leavesReady (boot (fun _ => true) blocks) S) : S.sched.Regular := by
  obtain ⟨hbase, hqueued, hranked⟩ := h.invariant
    (I := fun S => S.Base ∧ S.sched.Queued ∧ S.sched.Ranked)
    ⟨base_boot, queued_boot blocks, ranked_boot _ blocks⟩ fun S e S' hS hok hstep =>
      ⟨hS.1.step hstep, queued_step hS.1 hS.2.1 hok hstep, ranked_step hS.1 hS.2.2 hstep⟩
  exact hqueued.regular hranked hbase.sound.alone

end Machine

end BareKernel.Kernel
