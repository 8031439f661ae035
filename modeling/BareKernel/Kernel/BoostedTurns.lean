import BareKernel.Kernel.IdleProcess

/-!
# How long a boost lasts

The aging pass raises the priority of a process that waits, and `switchContext` sets it back
when the process was preempted or yielded. The branch for a process that blocked itself does
not, and `unblockProcess` then queues it by the priority it still has.
-/

namespace BareKernel.Kernel

open ProcessState Runs

namespace Sched

variable {s s' : Sched} {p q c i : ℤ} {b : Process} {m : ℕ}

/-! ## What a pass does to a block -/

/-- Whoever stands in a queue is aged at most once for each of its entries. -/
theorem ageQueue_block (hi : i ∈ levels) (p : ℤ) : ∃ m ≤ s.entries p,
    (s.ageQueue i).processes p = age^[m] (s.processes p) := by
  by_cases hproc : s.Processed i
  · rw [ageQueue_processes hproc]
    unfold visited
    split
    · exact ⟨0, Nat.zero_le _, rfl⟩
    · exact ⟨_, MultiQueue.count_le_entries hi, rfl⟩
  · rw [ageQueue_skipped hproc]
    exact ⟨0, Nat.zero_le _, rfl⟩

theorem applyAging_block (s : Sched) (p : ℤ) : ∃ m ≤ 5 * s.entries p,
    s.applyAging.processes p = age^[m] (s.processes p) := by
  have hall : ∀ (is : List ℤ) {s : Sched}, (∀ i ∈ is, i ∈ levels) →
      ∃ m ≤ is.length * s.entries p,
        (is.foldl ageQueue s).processes p = age^[m] (s.processes p) := by
    intro is
    induction is with
    | nil => exact fun _ => ⟨0, Nat.zero_le _, rfl⟩
    | cons i is ih =>
        intro s hlevels
        have hi := hlevels i List.mem_cons_self
        obtain ⟨m, hm, hfirst⟩ := ageQueue_block (s := s) hi p
        obtain ⟨n, hn, hrest⟩ := ih (s := s.ageQueue i) fun j hj =>
          hlevels j (List.mem_cons_of_mem _ hj)
        refine ⟨n + m, ?_, ?_⟩
        · have hentries := Nat.mul_le_mul_left is.length (ageQueue_entries_le (s := s) hi p)
          rw [List.length_cons, Nat.succ_mul]
          omega
        · rw [Function.iterate_add_apply, ← hfirst]
          exact hrest
  exact hall levels fun _ hi => hi

/-- As long as the counter ends below the threshold, aging has left the priority alone. -/
theorem iterate_age_below (hm : m < 2 ^ 60) (hbefore : b.agingCounter < agingThreshold)
    (hafter : (age^[m] b).agingCounter < agingThreshold) :
    (age^[m] b).priority = b.priority ∧ (age^[m] b).originalPriority = b.originalPriority := by
  have hbelow : b.agingCounter.toNat < 15 := UInt64.lt_iff_toNat_lt.mp hbefore
  have hsum : ∀ n ≤ m, (b.agingCounter + UInt64.ofNat n).toNat = b.agingCounter.toNat + n := by
    intro n hn
    rw [UInt64.toNat_add, UInt64.toNat_ofNat']
    omega
  rw [iterate_age_agingCounter] at hafter
  have hend : (b.agingCounter + UInt64.ofNat m).toNat < 15 := UInt64.lt_iff_toNat_lt.mp hafter
  rw [hsum m le_rfl] at hend
  have hall : ∀ n ≤ m, (age^[n] b).priority = b.priority ∧
      (age^[n] b).originalPriority = b.originalPriority := by
    intro n
    induction n with
    | zero => exact fun _ => ⟨rfl, rfl⟩
    | succ n ih =>
        intro hn
        obtain ⟨hpriority, horiginal⟩ := ih (Nat.le_of_succ_le hn)
        rw [Function.iterate_succ_apply']
        have hlow : ¬((age^[n] b).agingCounter + 1 ≥ agingThreshold ∧
            (age^[n] b).priority < maxPriority) := by
          rintro ⟨hreached, -⟩
          have hnext : (age^[n + 1] b).agingCounter ≥ agingThreshold := by
            rw [Function.iterate_succ_apply', age_agingCounter]
            exact hreached
          rw [iterate_age_agingCounter, ge_iff_le, UInt64.le_iff_toNat_le, hsum (n + 1) hn] at hnext
          change 15 ≤ _ at hnext
          omega
        rw [age_low hlow]
        exact ⟨hpriority, horiginal⟩
  exact hall m le_rfl

theorem iterate_age_state (b : Process) (m : ℕ) : (age^[m] b).state = b.state := by
  induction m with
  | zero => rfl
  | succ m ih => rw [Function.iterate_succ_apply', age_state, ih]

/-! ## What a switch does to a block -/

theorem park_entries_le (s : Sched) (c p : ℤ) : (s.park c).entries p ≤ s.entries p + 1 := by
  unfold park
  split
  · dsimp only
    unfold schedule
    split
    · refine le_trans (enqueue_entries_le _ p c) ?_
      rw [entries_setProcess]
      split <;> omega
    · exact Nat.le_succ _
  all_goals exact Nat.le_succ _

theorem park_of_ne (h : p ≠ c) : (s.park c).processes p = s.processes p := by
  unfold park
  split
  · rw [schedule_processes, setProcess_of_ne h]
  all_goals rfl

/-- A process that has not got the CPU after a switch was aged some times: as it was, or, if
it had the CPU and ran, with its original priority. -/
theorem switchContext_block (hout : s.switchContext.currentProcess ≠ some p) :
    ∃ m ≤ 5 * (s.entries p + 1), ∃ b, s.switchContext.processes p = age^[m] b ∧
      (b = s.processes p ∧ (s.currentProcess = some p → (s.processes p).state ≠ RUNNING) ∨
        (s.processes p).state = RUNNING ∧ b = { s.processes p with
          state := READY, priority := (s.processes p).originalPriority }) := by
  cases hc : s.currentProcess with
  | none =>
      refine ⟨0, Nat.zero_le _, s.processes p, ?_, .inl ⟨rfl, fun h => absurd h (by simp)⟩⟩
      unfold switchContext at hout ⊢
      rw [hc] at hout ⊢
      dsimp only at hout ⊢
      split at hout
      · rfl
      · rename_i first s' hsome
        obtain ⟨i, _, rest, _, rfl⟩ := unschedule_some hsome
        have hne : p ≠ first := by
          rintro rfl
          exact hout rfl
        change ((s.setQueue i rest).setProcess first _).processes p = _
        rw [setProcess_of_ne hne]
        rfl
  | some c =>
      by_cases hstays : (s.processes c).state = RUNNING ∧ s.quantumsLeft > 0 ∧ ¬s.isYield
      · have hsame : s.switchContext = { s with quantumsLeft := s.quantumsLeft - 1 } := by
          unfold switchContext
          rw [hc]
          exact if_pos hstays
        rw [hsame] at hout ⊢
        refine ⟨0, Nat.zero_le _, s.processes p, rfl, .inl ⟨rfl, fun h => ?_⟩⟩
        exact absurd (hc.trans h) hout
      · obtain ⟨m, hm, haged⟩ := applyAging_block (s.park c) p
        have hentries := park_entries_le s c p
        have hblock : s.switchContext.processes p = age^[m] ((s.park c).processes p) := by
          rw [← haged]
          rw [switchContext_leaves ⟨hc, hstays⟩] at hout ⊢
          split at hout
          · rw [nextProcess_processes]
          · rename_i first hfirst
            have hne : p ≠ first := by
              rintro rfl
              exact hout rfl
            change ((nextProcess _ (s.park c).applyAging).setProcess first _).processes p = _
            rw [setProcess_of_ne hne, nextProcess_processes]
        refine ⟨m, by omega, (s.park c).processes p, hblock, ?_⟩
        by_cases hpc : p = c
        · subst hpc
          by_cases hrun : (s.processes p).state = RUNNING
          · right
            rw [park_running hrun, schedule_processes, setProcess_self]
            exact ⟨hrun, rfl⟩
          · left
            refine ⟨?_, fun _ => hrun⟩
            unfold park
            split
            · rename_i hrun'
              exact absurd hrun' hrun
            all_goals rfl
        · left
          rw [park_of_ne hpc]
          exact ⟨rfl, fun h => absurd (Option.some.inj h).symm hpc⟩

/-- The counter, and what it makes of the priority. -/
structure SameRank (b b' : Process) : Prop where
  priority : b'.priority = b.priority
  originalPriority : b'.originalPriority = b.originalPriority
  agingCounter : b'.agingCounter = b.agingCounter

theorem SameRank.refl (b : Process) : SameRank b b := ⟨rfl, rfl, rfl⟩

theorem SameRank.trans {b' b'' : Process} (h : SameRank b b') (h' : SameRank b' b'') :
    SameRank b b'' :=
  ⟨h'.priority.trans h.priority, h'.originalPriority.trans h.originalPriority,
    h'.agingCounter.trans h.agingCounter⟩

theorem setProcess_sameRank (hpriority : b.priority = (s.processes q).priority)
    (horiginal : b.originalPriority = (s.processes q).originalPriority)
    (hcounter : b.agingCounter = (s.processes q).agingCounter) :
    SameRank (s.processes p) ((s.setProcess q b).processes p) := by
  by_cases heq : p = q
  · subst heq
    rw [setProcess_self]
    exact ⟨hpriority, horiginal, hcounter⟩
  · rw [setProcess_of_ne heq]
    exact SameRank.refl _

theorem unblockProcess_sameRank :
    SameRank (s.processes p) ((s.unblockProcess q).2.processes p) := by
  rcases unblockProcess_state s q p with heq | ⟨rfl, -, heq⟩ <;> rw [heq]
  · exact SameRank.refl _
  · exact ⟨rfl, rfl, rfl⟩

/-! ## Entries -/

theorem schedule_entries (s : Sched) (p q : ℤ) :
    (s.schedule q).entries p ≤ s.entries p + if p = q then 1 else 0 := by
  unfold schedule
  split
  · exact enqueue_entries_le s p q
  · exact Nat.le_add_right _ _

/-- The entries of a process, and the one it gets when it is woken. -/
def places (s : Sched) (p : ℤ) : ℕ :=
  s.entries p + if (s.processes p).state = BLOCKED then 1 else 0

theorem setProcess_places (hstate : b.state = (s.processes q).state) :
    (s.setProcess q b).places p = s.places p := by
  unfold places
  rw [entries_setProcess]
  by_cases heq : p = q
  · subst heq
    rw [setProcess_self, hstate]
  · rw [setProcess_of_ne heq]

theorem unblockProcess_places : (s.unblockProcess q).2.places p ≤ s.places p := by
  rcases unblockProcess_cases (s := s) with heq | ⟨_, _, hblocked, heq⟩ <;> rw [heq]
  · have hle := schedule_entries (s.setState q READY) p q
    unfold places
    rw [schedule_processes]
    rw [entries_setState] at hle
    by_cases hpq : p = q
    · subst hpq
      rw [setState_state, hblocked, if_pos rfl, if_neg (by decide)]
      rwa [if_pos rfl] at hle
    · rw [setState, setProcess_of_ne hpq]
      rw [if_neg hpq] at hle
      exact Nat.add_le_add_right hle _

theorem entries_le_queuedCount (s : Sched) (p : ℤ) : s.entries p ≤ s.queuedCount := by
  have hall : ∀ is : List ℤ, MultiQueue.entries is s.priorityQueues p ≤
      (is.map fun i => (s.priorityQueues i).length).sum := by
    intro is
    induction is with
    | nil => exact le_rfl
    | cons i is ih => exact Nat.add_le_add List.count_le_length ih
  exact hall levels

/-! ## Blocking -/

/-- A process blocks itself, and `switchContext` is called in the state that this leaves; or
another one is blocked, and nothing else happens. -/
theorem blockProcess_switches (hvalid : s.isValidPID q) (p : ℤ) :
    ((s.blockProcess q).2.currentProcess = s.currentProcess ∧
      SameRank (s.processes p) ((s.blockProcess q).2.processes p)) ∨
    ∃ t : Sched, (s.blockProcess q).2 = t.switchContext ∧ t.currentProcess = s.currentProcess ∧
      t.entries p = s.entries p ∧ SameRank (s.processes p) (t.processes p) ∧
      ((t.processes p).state = (s.processes p).state ∨ (t.processes p).state = BLOCKED) := by
  rw [blockProcess_of_valid hvalid]
  split
  · rename_i hself
    right
    refine ⟨{ s.setState q BLOCKED with isYield := true }, rfl, rfl, rfl,
      setProcess_sameRank rfl rfl rfl, ?_⟩
    by_cases heq : p = q
    · subst heq
      exact .inr setState_state
    · left
      change ((s.setState q BLOCKED).processes p).state = _
      rw [setState, setProcess_of_ne heq]
  · exact .inl ⟨rfl, setProcess_sameRank rfl rfl rfl⟩

end Sched

namespace Machine

open Sched (SameRank)

variable {S S' : Machine} {a : Act} {e : Event} {c p : ℤ} {nodes blocks : ℕ → Bool}

/-! ## What the other actions do to a block -/

/-- Actions that do not switch leave counter and priority alone, or set them anew. -/
theorem Does.quiet_block (hd : S.Does a S') (hquiet : a.quiet) (p : ℤ) :
    SameRank (S.sched.processes p) (S'.sched.processes p) ∨
      ((S'.sched.processes p).priority = (S'.sched.processes p).originalPriority ∧
        (S'.sched.processes p).agingCounter = 0) := by
  cases hd with
  | switch => exact hquiet.elim
  | block => exact hquiet.elim
  | waitBlock => exact hquiet.elim
  | sleep => exact hquiet.elim
  | unblock => exact .inl Sched.unblockProcess_sameRank
  | @create q b hpid hexited hc hb =>
      change SameRank _ (((S.sched.setProcess q b).schedule q).processes p) ∨ _
      simp only [note_sched, setFrame_sched, onSched_sched, Sched.schedule_processes]
      by_cases heq : p = q
      · subst heq
        rw [Sched.setProcess_self]
        exact .inr ⟨hb.originalPriority.symm, hb.agingCounter⟩
      · rw [Sched.setProcess_of_ne heq]
        exact .inl (SameRank.refl _)
  | returned => exact .inl (Sched.setProcess_sameRank rfl rfl rfl)
  | kill => exact .inl (Sched.setProcess_sameRank (s := S.sched.unscheduleProcess _) rfl rfl rfl)
  | @killWake c q hc hexited =>
      left
      unfold Machine.killWake
      dsimp only
      split
      · exact SameRank.refl _
      · have hwake := Sched.unblockProcess_sameRank (s := S.sched) (p := p)
          (q := (S.sched.processes q).waitPid)
        have hset : SameRank ((S.sched.unblockProcess (S.sched.processes q).waitPid).2.processes p)
            (((S.sched.unblockProcess (S.sched.processes q).waitPid).2.setProcess q
              { (S.sched.unblockProcess (S.sched.processes q).waitPid).2.processes q with
                waitPid := nonPid }).processes p) := Sched.setProcess_sameRank rfl rfl rfl
        exact hwake.trans hset
  | @priority c q priority hc hpriority =>
      by_cases heq : p = q
      · subst heq
        right
        simp [Sched.setProcess_self]
      · left
        change SameRank _ ((S.sched.setProcess q _).processes p)
        rw [Sched.setProcess_of_ne heq]
        exact SameRank.refl _
  | wake => exact .inl Sched.unblockProcess_sameRank
  | _ => exact .inl (SameRank.refl _)

/-- Actions that do not switch give nobody more entries than places, but for the creation of
a process. -/
theorem Does.quiet_places (hd : S.Does a S') (hquiet : a.quiet) (hcreate : ∀ q, a ≠ .create q)
    (halive : (S'.sched.processes p).state ≠ EXITED) : S'.sched.places p ≤ S.sched.places p := by
  cases hd with
  | switch => exact hquiet.elim
  | block => exact hquiet.elim
  | waitBlock => exact hquiet.elim
  | sleep => exact hquiet.elim
  | create => exact absurd rfl (hcreate _)
  | unblock => exact Sched.unblockProcess_places
  | returned => exact le_of_eq (Sched.setProcess_places rfl)
  | @kill c q stage hc hq hlive =>
      have hne : p ≠ q := by
        rintro rfl
        exact halive (killStart_state S p stage)
      unfold Sched.places
      change MultiQueue.entries _ (S.sched.unscheduleProcess q).priorityQueues p +
        (if (((S.sched.unscheduleProcess q).setProcess q _).processes p).state = BLOCKED then 1
          else 0) ≤ _
      rw [Sched.setProcess_of_ne hne]
      exact Nat.add_le_add_right (MultiQueue.entries_erase_of_ne hne).le _
  | @killWake c q hc hexited =>
      unfold Machine.killWake
      dsimp only
      split
      · exact le_rfl
      · refine le_trans (le_of_eq ?_) (Sched.unblockProcess_places
          (q := (S.sched.processes q).waitPid))
        exact Sched.setProcess_places (s := (S.sched.unblockProcess _).2) rfl
  | priority => exact le_of_eq (Sched.setProcess_places rfl)
  | wake => exact Sched.unblockProcess_places
  | _ => exact le_rfl

/-- An action that may switch, seen from one process. -/
theorem Does.switches (hbase : S.Base) (hd : S.Does a S') (hswitches : ¬a.quiet) (p : ℤ) :
    (S'.sched.currentProcess = S.sched.currentProcess ∧
      SameRank (S.sched.processes p) (S'.sched.processes p)) ∨
    ∃ t : Sched, S'.sched = t.switchContext ∧ t.currentProcess = S.sched.currentProcess ∧
      t.entries p = S.sched.entries p ∧ SameRank (S.sched.processes p) (t.processes p) ∧
      ((t.processes p).state = (S.sched.processes p).state ∨ (t.processes p).state = BLOCKED) := by
  cases hd with
  | @switch isYield =>
      exact .inr ⟨{ S.sched with isYield := isYield }, rfl, rfl, rfl, SameRank.refl _, .inl rfl⟩
  | block hc _ hvalid => exact Sched.blockProcess_switches hvalid p
  | @waitBlock q target wstatus hc hf htarget halive =>
      have hset : SameRank (S.sched.processes p) ((S.sched.setProcess target
          { S.sched.processes target with waitPid := q }).processes p) :=
        Sched.setProcess_sameRank rfl rfl rfl
      have hstate : ((S.sched.setProcess target { S.sched.processes target with
          waitPid := q }).processes p).state = (S.sched.processes p).state := by
        by_cases heq : p = target
        · subst heq
          rw [Sched.setProcess_self]
        · rw [Sched.setProcess_of_ne heq]
      rcases Sched.blockProcess_switches (waitFor_valid hbase hc hf target) p with
        ⟨hcur, hsame⟩ | ⟨t, ht, hcur, hentries, hsame, hstate'⟩
      · exact .inl ⟨hcur, hset.trans hsame⟩
      · rw [hstate] at hstate'
        exact .inr ⟨t, ht, hcur, hentries, hset.trans hsame, hstate'⟩
  | @sleep q semId k hc hf hvalue hwaiting hin =>
      have hblock := Sched.blockProcess_switches (enlist_valid hbase hc hf semId) p
      have hlist : (S.enlist q semId).sched.processes = S.sched.processes ∧
          (S.enlist q semId).sched.currentProcess = S.sched.currentProcess ∧
            (S.enlist q semId).sched.entries p = S.sched.entries p := by
        rcases enlist_sched S q semId with heq | heq <;> rw [heq] <;> exact ⟨rfl, rfl, rfl⟩
      rw [hlist.1, hlist.2.1, hlist.2.2] at hblock
      exact hblock
  | _ => exact absurd trivial hswitches

/-! ## The rest between two turns -/

/-- The process is alive and off the CPU, and no pass has found its counter at the threshold
since it was reset. -/
structure Rests (S : Machine) (p : ℤ) : Prop where
  off : S.sched.currentProcess ≠ some p
  alive : (S.sched.processes p).state ≠ EXITED
  counter : (S.sched.processes p).agingCounter < agingThreshold

/-- The event blocks the process that has the CPU while its priority is a boosted one. -/
def blocksBoosted (S : Machine) (e : Event) : Bool :=
  match S.sched.currentProcess, S.step e with
  | some c, some S' => (S.sched.processes c).priority ≠ (S.sched.processes c).originalPriority ∧
      (S'.sched.processes c).state = BLOCKED
  | _, _ => false

/-- The ready queues have a bounded number of entries, each being a node on the heap, and
nobody is blocked with a boost. -/
def endsBoost (S : Machine) (e : Event) : Prop :=
  S.sched.queuedCount < 2 ^ 32 ∧ ¬S.blocksBoosted e

instance : Decidable (S.endsBoost e) := inferInstanceAs (Decidable (_ ∧ _))

/-- The actions before the last one, seen from one process. -/
theorem quiet_middle {M : Machine} (hbase : S.Base)
    (hpath : Path (fun a => Allowed S e a ∧ a.quiet) S M)
    (hcreate : ¬∃ params, e = .call (.createProcess params)) (p : ℤ) :
    M.Base ∧ M.sched.currentProcess = S.sched.currentProcess ∧
      (SameRank (S.sched.processes p) (M.sched.processes p) ∨
        ((M.sched.processes p).priority = (M.sched.processes p).originalPriority ∧
          (M.sched.processes p).agingCounter = 0)) ∧
      ((M.sched.processes p).state ≠ EXITED → (S.sched.processes p).state ≠ EXITED ∧
        M.sched.places p ≤ S.sched.places p) := by
  refine hpath.invariant (I := fun M => M.Base ∧
    M.sched.currentProcess = S.sched.currentProcess ∧
      (SameRank (S.sched.processes p) (M.sched.processes p) ∨
        ((M.sched.processes p).priority = (M.sched.processes p).originalPriority ∧
          (M.sched.processes p).agingCounter = 0)) ∧
      ((M.sched.processes p).state ≠ EXITED → (S.sched.processes p).state ≠ EXITED ∧
        M.sched.places p ≤ S.sched.places p))
    ⟨hbase, rfl, .inl (SameRank.refl _), fun halive => ⟨halive, le_rfl⟩⟩ ?_
  rintro M a M' ⟨hM, hcur, hrank, hplaces⟩ ⟨hallowed, hquiet⟩ hd
  have hnew : ∀ q, a ≠ .create q := by
    rintro q rfl
    exact hcreate hallowed
  refine ⟨hM.does hd, (hd.quiet_current hquiet).trans hcur, ?_, fun halive => ?_⟩
  · rcases hd.quiet_block hquiet p with hsame | hreset
    · rcases hrank with hrank | ⟨hpriority, hcounter⟩
      · exact .inl (hrank.trans hsame)
      · exact .inr ⟨by rw [hsame.priority, hsame.originalPriority, hpriority],
          hsame.agingCounter.trans hcounter⟩
    · exact .inr hreset
  · have hkill : a ≠ .kill p := by
      rintro rfl
      cases hd with
      | kill => exact halive (killStart_state M p _)
    have hbefore : (M.sched.processes p).state ≠ EXITED :=
      fun hexited => halive ((hd.exited hM (hnew p) hkill).mpr hexited)
    obtain ⟨hfirst, hle⟩ := hplaces hbefore
    exact ⟨hfirst, (hd.quiet_places hquiet hnew halive).trans hle⟩

/-- The priority of the process is the original one. -/
def AtOriginal (S : Machine) (p : ℤ) : Prop :=
  (S.sched.processes p).priority = (S.sched.processes p).originalPriority

/-- Who has the CPU has not waited since it got it. -/
theorem running_counter (hranked : S.sched.Ranked) (hrun : (S.sched.processes p).state = RUNNING) :
    (S.sched.processes p).agingCounter = 0 :=
  (hranked p (.inl (by rw [hrun]; decide))).running hrun

/-- A step at whose end the process is at rest. It rested before, or it had the CPU and is not
blocked with a boost. -/
theorem AtOriginal.step (hbase : S.Base) (hranked : S.sched.Ranked) (hok : S.endsBoost e)
    (hstep : S.Step e S')
    (hbefore : S.sched.currentProcess = some p ∨ S.Rests p ∧ S.AtOriginal p)
    (hafter : S'.Rests p) : S'.AtOriginal p := by
  have hbound : S.sched.entries p < 2 ^ 32 :=
    lt_of_le_of_lt (Sched.entries_le_queuedCount S.sched p) hok.1
  by_cases hcreate : ∃ params, e = .call (.createProcess params)
  · -- nobody is aged while a process is created
    obtain ⟨params, rfl⟩ := hcreate
    obtain ⟨c, -, -, hcall⟩ := step_call hstep
    obtain rfl := Option.some.inj hcall
    have hcur := createProcess_currentProcess S params
    have hrest : S.AtOriginal p := by
      rcases hbefore with hc | ⟨-, hrest⟩
      · exact absurd (hcur.trans hc) hafter.off
      · exact hrest
    unfold AtOriginal
    rcases createProcess_cases S params with
      ⟨outcomes, heq⟩ | ⟨given, name, pid, outcomes, -, -, -, heq⟩ <;> rw [heq]
    · exact hrest
    · simp only [note_sched, setFrame_sched, onSched_sched, Sched.schedule_processes]
      by_cases hp : p = pid
      · subst hp
        rw [Sched.setProcess_self]
        rfl
      · rw [Sched.setProcess_of_ne hp]
        exact hrest
  obtain ⟨M, hpath, hlast⟩ := step_ends hbase hstep
  obtain ⟨hM, hcur, hrank, hplaces⟩ := quiet_middle hbase hpath hcreate p
  have halive : (M.sched.processes p).state ≠ EXITED := by
    rcases hlast with rfl | ⟨a, -, hswitches, hd⟩
    · exact hafter.alive
    · refine fun hexited => hafter.alive ((hd.exited hM ?_ ?_).mpr hexited) <;> rintro rfl <;>
        exact hswitches trivial
  obtain ⟨hlive, hle⟩ := hplaces halive
  have hcounter : (M.sched.processes p).agingCounter < agingThreshold := by
    rcases hrank with hsame | ⟨-, hzero⟩
    · rw [hsame.agingCounter]
      rcases hbefore with hc | ⟨hrests, -⟩
      · have hrun := (hbase.busy p hc).resolve_right fun hover => hlive hover.1
        rw [running_counter hranked hrun]
        decide
      · exact hrests.counter
    · rw [hzero]
      decide
  have hkept : S.AtOriginal p → M.AtOriginal p := by
    intro hrest
    rcases hrank with hsame | ⟨hreset, -⟩
    · exact (hsame.priority.trans hrest).trans hsame.originalPriority.symm
    · exact hreset
  have hoff : M.sched.currentProcess ≠ some p → M.AtOriginal p := by
    intro hne
    rcases hbefore with hc | ⟨-, hrest⟩
    · exact absurd (hcur.trans hc) hne
    · exact hkept hrest
  rcases hlast with rfl | ⟨a, -, hswitches, hd⟩
  · exact hoff hafter.off
  rcases hd.switches hM hswitches p with ⟨hsame, hrank'⟩ | ⟨t, ht, hcur', hentries, hrank', hstate⟩
  · have hrest := hoff fun hc => hafter.off (hsame.trans hc)
    exact (hrank'.priority.trans hrest).trans hrank'.originalPriority.symm
  · have hout := hafter.off
    have hbelow := hafter.counter
    have hlive' := hafter.alive
    unfold AtOriginal
    rw [ht] at hout hbelow hlive' ⊢
    obtain ⟨m, hm, b, hblock, hcases⟩ := Sched.switchContext_block hout
    have hshort : m < 2 ^ 60 := by
      unfold Sched.places at hle
      rw [hentries] at hm
      split at hle <;> split at hle <;> omega
    rw [hblock] at hbelow hlive' ⊢
    have hstart : b.agingCounter < agingThreshold := by
      rw [← hrank'.agingCounter] at hcounter
      rcases hcases with ⟨rfl, -⟩ | ⟨-, rfl⟩ <;> exact hcounter
    obtain ⟨hpriority, horiginal⟩ := Sched.iterate_age_below hshort hstart hbelow
    rw [hpriority, horiginal]
    rcases hcases with ⟨rfl, hnot⟩ | ⟨-, rfl⟩
    · rw [hrank'.priority, hrank'.originalPriority]
      by_cases hc : M.sched.currentProcess = some p
      · -- the process blocked itself, so it had no boost
        have hblocked : (t.processes p).state = BLOCKED := by
          refine hstate.resolve_left fun heq => ?_
          rcases hM.busy p hc with hrun | ⟨hexited, -⟩
          · exact hnot (hcur'.trans hc) (heq.trans hrun)
          · exact halive hexited
        apply hkept
        by_contra hboosted
        apply hok.2
        unfold blocksBoosted
        rw [← hcur, hc, hstep]
        refine decide_eq_true ⟨hboosted, ?_⟩
        rw [ht, hblock, Sched.iterate_age_state, hblocked]
      · exact hoff hc
    · rfl

/-- A blocked process is woken: it goes behind the queue of the priority that it has. -/
theorem unblocked_queue {s : Sched} (hranked : s.Ranked) (hpid : 0 < p ∧ p ≤ maxPid)
    (hblocked : (s.processes p).state = BLOCKED) :
    (s.unblockProcess p).2.priorityQueues (Sched.queueIndex (s.processes p)) =
      s.append (s.priorityQueues (Sched.queueIndex (s.processes p))) p := by
  have hlive : (s.processes p).state ≠ EXITED := by
    rw [hblocked]
    decide
  have hvalid : s.isValidPID p := Sched.isValidPID_iff.mpr ⟨hpid.1, hpid.2, hlive⟩
  have hwoken : (s.unblockProcess p).2 = (s.setState p READY).schedule p := by
    unfold Sched.unblockProcess
    rw [Sched.getProcess_of_valid hvalid]
    dsimp only
    rw [if_neg (not_not.mpr hblocked)]
  have hindex : Sched.queueIndex ((s.setState p READY).processes p) =
      Sched.queueIndex (s.processes p) := by
    rw [Sched.setState, Sched.setProcess_self]
    rfl
  have hcheck : checkPriority ((s.setState p READY).processes p).priority := by
    rw [Sched.setState, Sched.setProcess_self]
    exact (hranked p (.inl hlive)).priority
  have hqueue : (s.setState p READY).schedule p = (s.setState p READY).enqueue p := if_pos hcheck
  rw [hwoken, hqueue, ← hindex]
  exact Function.update_self _ _ _

/-- As long as the process rests, its priority is the original one, and if it is blocked,
`unblockProcess` puts it in the queue of its original priority. -/
def BoostOver (ok : Machine → Event → Prop) (S : Machine) (p : ℤ) : Prop :=
  ∀ M, Reaches Step (fun N e => ok N e ∧ N.Rests p) S M → M.Rests p →
    M.AtOriginal p ∧ ((M.sched.processes p).state = BLOCKED →
      (M.sched.unblockProcess p).2.priorityQueues
        (((M.sched.processes p).originalPriority.toNat : ℤ) - 1) =
      M.sched.append (M.sched.priorityQueues
        (((M.sched.processes p).originalPriority.toNat : ℤ) - 1)) p)

/-- **A boost lasts one turn**, in every run in which no process is blocked while it has one. -/
theorem boost_oneTurn (nodes blocks : ℕ → Bool) (S : Machine)
    (hreach : Reaches Step endsBoost (boot nodes blocks) S) (e : Event) (S' : Machine)
    (hok : S.endsBoost e) (hstep : S.Step e S') (p : ℤ) (hc : S.sched.currentProcess = some p) :
    S'.BoostOver endsBoost p := by
  obtain ⟨hbase, hranked⟩ := hreach.invariant (I := fun M => M.Base ∧ M.sched.Ranked)
    ⟨base_boot, ranked_boot nodes blocks⟩ fun M e M' hM _ hstep =>
      ⟨hM.1.step hstep, ranked_step hM.1 hM.2 hstep⟩
  intro M hrun hrests
  have hrun' := hrun.invariant (I := fun N => N.Base ∧ N.sched.Ranked ∧
    (N.Rests p → N.AtOriginal p))
    ⟨hbase.step hstep, ranked_step hbase hranked hstep,
      AtOriginal.step hbase hranked hok hstep (.inl hc)⟩ fun N e N' hN hok hstep =>
        ⟨hN.1.step hstep, ranked_step hN.1 hN.2.1 hstep,
          AtOriginal.step hN.1 hN.2.1 hok.1 hstep (.inr ⟨hok.2, hN.2.2 hok.2⟩)⟩
  obtain ⟨-, hranked', horiginal⟩ := hrun'
  have hrest := horiginal hrests
  refine ⟨hrest, fun hblocked => ?_⟩
  have hindex : Sched.queueIndex (M.sched.processes p) =
      ((M.sched.processes p).originalPriority.toNat : ℤ) - 1 := by
    unfold Sched.queueIndex
    rw [show (M.sched.processes p).priority = _ from hrest]
  rw [← hindex]
  exact unblocked_queue hranked' (hbase.sound.current p hc) hblocked

/-- The shell yields so often that two workers are boosted, and waits for the first. -/
def workersBoosted : List Event :=
  [.call (.createProcess (some workerParams)), .call (.createProcess (some workerParams))] ++
    List.replicate 15 (.call .yield) ++ [.call (.wait 3 true)]

/-- The first worker yields with its boost. -/
theorem boost_oneTurn_yield : ∃ S S', Reaches Step endsBoost booted S ∧
    S.Step (.call .yield) S' ∧ ¬S.AtOriginal 3 ∧ S'.Rests 3 ∧ S'.BoostOver endsBoost 3 := by
  have hguard : ((exec (fun S e => if endsBoost S e then step S e else none) booted
      workersBoosted).bind fun S => (S.step (.call .yield)).map fun S' =>
        decide (S.endsBoost (.call .yield) ∧ S.sched.currentProcess = some 3 ∧
          (S.sched.processes 3).priority ≠ (S.sched.processes 3).originalPriority ∧
          S'.sched.currentProcess ≠ some 3 ∧ (S'.sched.processes 3).state ≠ EXITED ∧
          (S'.sched.processes 3).agingCounter < agingThreshold)) = some true := by
    decide +kernel
  simp only [Option.bind_eq_some_iff, Option.map_eq_some_iff, decide_eq_true_eq] at hguard
  obtain ⟨S, hS, S', hstep, hok, hc, hboosted, hoff, halive, hcounter⟩ := hguard
  have hreach := exec_guarded hS
  exact ⟨S, S', hreach, hstep, hboosted, ⟨hoff, halive, hcounter⟩,
    boost_oneTurn _ _ S hreach _ S' hok hstep 3 hc⟩

/-- **A process that blocks itself with its boost keeps it.** -/
theorem boost_kept : ¬∀ nodes blocks S, Reaches Step always (boot nodes blocks) S →
    ∀ e S', S.Step e S' → ∀ p, S.sched.currentProcess = some p → S'.BoostOver always p := by
  intro hall
  have hrun : ((exec step booted workersBoosted).bind fun S =>
      (S.step (.call (.block 3))).map fun S' => decide (S.sched.currentProcess = some 3 ∧
        S'.sched.currentProcess ≠ some 3 ∧ (S'.sched.processes 3).state = BLOCKED ∧
          (S'.sched.processes 3).agingCounter < agingThreshold ∧
          (S'.sched.processes 3).priority ≠ (S'.sched.processes 3).originalPriority)) =
            some true := by
    decide +kernel
  simp only [Option.bind_eq_some_iff, Option.map_eq_some_iff, decide_eq_true_eq] at hrun
  obtain ⟨S, hS, S', hstep, hc, hoff, hblocked, hcounter, hboosted⟩ := hrun
  have hreach : Reaches Step always booted S := exec_always hS fun _ _ _ => trivial
  have hover := hall _ _ S hreach _ S' hstep 3 hc S' (Reaches.refl S')
    ⟨hoff, by rw [hblocked]; decide, hcounter⟩
  exact hboosted hover.1

end Machine

end BareKernel.Kernel
