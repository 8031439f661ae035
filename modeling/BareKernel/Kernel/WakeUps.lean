import BareKernel.Kernel.Descriptors
import Mathlib.Data.Finset.Card

/-!
# Wake-ups of semaphores

`semPost` takes everybody off the queue of a semaphore, `semSetValue` only as many as the value
grows by. A process that was taken off looks at the value again when it runs. Who is still listed
when the value is positive depends on those who were woken.
-/

namespace BareKernel.Kernel

open ProcessState Runs

/-- The elements of a queue that can be looked into. -/
def WaitQueue.list : WaitQueue → List ℤ
  | queue elements => elements
  | _ => []

/-- The semaphore in whose `semWait` a frame stands. -/
def Frame.semaphore : Frame → Option ℕ
  | .semWait semId _ => some semId
  | _ => none

namespace Machine

variable {S S' : Machine} {c p pid : ℤ} {semId : ℕ}

def Live (S : Machine) (p : ℤ) : Prop := (S.sched.processes p).state ≠ EXITED

instance (S : Machine) (p : ℤ) : Decidable (S.Live p) :=
  inferInstanceAs (Decidable ((S.sched.processes p).state ≠ EXITED))

def waiters (S : Machine) (semId : ℕ) : List ℤ := (S.sems.sems semId).waiting.list

def value (S : Machine) (semId : ℕ) : ℤ := (S.sems.sems semId).value.toInt

/-- The process was taken off the queue of the semaphore, and has not looked at the value since. -/
def Woken (S : Machine) (semId : ℕ) (p : ℤ) : Prop :=
  (S.frames p).semaphore = some semId ∧ p ∉ S.waiters semId ∧
    ((S.sched.processes p).state = READY ∨ (S.sched.processes p).state = RUNNING)

instance (S : Machine) (semId : ℕ) (p : ℤ) : Decidable (S.Woken semId p) :=
  inferInstanceAs (Decidable (_ ∧ _ ∧ _))

def woken (S : Machine) (semId : ℕ) : Finset ℤ := pids.toFinset.filter (S.Woken semId)

/-- Nobody who is alive stands in a queue while the value is positive, unless somebody who was woken
is going to look at it. -/
def NoLostWakeUp (S : Machine) : Prop :=
  ∀ semId, 0 < S.value semId → (∃ p ∈ S.waiters semId, S.Live p) → (S.woken semId).Nonempty

/-! ## The rules -/

/-- Nobody waits: every process that is alive is in user mode. -/
structure AllAwake (S : Machine) : Prop where
  frames : ∀ p, S.Live p → S.frames p = .user
  waiters : ∀ semId, S.waiters semId = []
  waitPid : ∀ p, (S.sched.processes p).waitPid = nonPid

/-- The calls of the users of semaphores, and of those who stop others. -/
def ofWaiters : Event → Prop
  | .tick | .resume | .exit _ => True
  | .call (.semWait _) | .call (.semPost _) | .call (.semSetValue _ _) | .call (.kill _)
  | .call (.block _) | .call .yield => True
  | _ => False

/-- There are tokens for fewer processes than were woken, or nobody is left to take what a process
that was woken would have taken. -/
def CanSpare (S : Machine) (pid : ℤ) : Prop :=
  pid ≠ initPid → ∀ semId ∈ (S.frames pid).semaphore, S.Woken semId pid →
    S.value semId < (S.woken semId).card ∨ ∀ p ∈ S.waiters semId, ¬S.Live p

/-- Those who are woken by a greater value are alive, or nobody who is alive is left. -/
def WakesLive (S : Machine) (semId : ℕ) (newValue : Int32) : Prop :=
  let available := (newValue - (S.sems.sems semId).value).toInt.toNat
  (S.sems.sems semId).value < newValue →
    (∀ p ∈ (S.waiters semId).take available, S.Live p) ∨
      ∀ p ∈ (S.waiters semId).drop available, ¬S.Live p

def keepsTokens (S : Machine) : Event → Prop
  | .call (.kill pid) | .call (.block pid) => S.CanSpare pid
  | .call (.semSetValue semId newValue) =>
      0 ≤ semId → semId < maxSems → S.WakesLive semId.toNat newValue
  | _ => True

/-! ## The invariant -/

/-- As long as somebody who is alive is listed, there are no more tokens than processes that were
woken to take them. -/
def Enough (S : Machine) (semId : ℕ) : Prop :=
  (∃ p ∈ S.waiters semId, S.Live p) → 0 ≤ S.value semId ∧ S.value semId ≤ (S.woken semId).card

structure Sleepers (S : Machine) : Prop where
  frames : ∀ p, S.Live p → S.frames p = .user ∨ ∃ semId, S.frames p = .semWait semId .done
  range : ∀ semId, ∀ p ∈ S.waiters semId, 0 < p ∧ p ≤ maxPid
  asleep : ∀ semId, ∀ p ∈ S.waiters semId, S.Live p →
    (S.sched.processes p).state = BLOCKED ∧ S.frames p = .semWait semId .done
  once : ∀ semId, (S.waiters semId).Nodup
  waitPid : ∀ p, (S.sched.processes p).waitPid = nonPid
  enough : ∀ semId, S.Enough semId

theorem mem_woken : p ∈ S.woken semId ↔ (0 < p ∧ p ≤ maxPid) ∧ S.Woken semId p := by
  unfold woken
  rw [Finset.mem_filter, List.mem_toFinset, mem_pids]

theorem Sleepers.covers (h : S.Sleepers) : S.NoLostWakeUp := by
  intro semId hpos hlisted
  obtain ⟨-, hle⟩ := h.enough semId hlisted
  have hcard : 0 < (S.woken semId).card := by omega
  exact Finset.card_pos.mp hcard

theorem AllAwake.sleepers (h : S.AllAwake) : S.Sleepers := by
  have hnone : ∀ {semId p}, p ∉ S.waiters semId := fun {semId p} hp => by
    rw [h.waiters semId] at hp
    exact absurd hp List.not_mem_nil
  exact {
    frames := fun p hp => .inl (h.frames p hp)
    range := fun _ _ hp => absurd hp hnone
    asleep := fun _ _ hp => absurd hp hnone
    once := fun semId => by rw [h.waiters semId]; exact List.nodup_nil
    waitPid := h.waitPid
    enough := fun _ ⟨_, hp, _⟩ => absurd hp hnone }

/-- A process that is neither listed nor blocked and is inside `semWait` was woken. -/
theorem Sleepers.woken_of (h : S.Sleepers) (hpid : 0 < p ∧ p ≤ maxPid)
    (hframe : (S.frames p).semaphore = some semId) (hlive : S.Live p)
    (hstate : (S.sched.processes p).state ≠ BLOCKED) : p ∈ S.woken semId := by
  refine mem_woken.mpr ⟨hpid, hframe, fun hlisted => ?_, ?_⟩
  · exact hstate (h.asleep semId p hlisted hlive).1
  · unfold Live at hlive
    cases hs : (S.sched.processes p).state with
    | READY => exact .inl rfl
    | RUNNING => exact .inr rfl
    | BLOCKED => exact absurd hs hstate
    | EXITED => exact absurd hs hlive

theorem woken_live (h : S.Woken semId p) : S.Live p ∧ (S.sched.processes p).state ≠ BLOCKED := by
  unfold Live
  rcases h.2.2 with hs | hs <;> rw [hs] <;> exact ⟨by decide, by decide⟩

/-- Who was woken, in terms of who is blocked. -/
theorem Sleepers.mem_woken_iff (h : S.Sleepers) : p ∈ S.woken semId ↔ (0 < p ∧ p ≤ maxPid) ∧
    (S.frames p).semaphore = some semId ∧ S.Live p ∧ (S.sched.processes p).state ≠ BLOCKED := by
  constructor
  · intro hp
    obtain ⟨hpid, hwoken⟩ := mem_woken.mp hp
    exact ⟨hpid, hwoken.1, woken_live hwoken⟩
  · rintro ⟨hpid, hframe, hlive, hstate⟩
    exact h.woken_of hpid hframe hlive hstate

/-- Nobody gets onto a queue. -/
structure Fewer (S S' : Machine) : Prop where
  live : ∀ p, S'.Live p → S.Live p
  waitPid : ∀ p, (S'.sched.processes p).waitPid = (S.sched.processes p).waitPid
  frames : ∀ p, S'.Live p → S'.frames p = S.frames p ∨ S'.frames p = .user
  waiters : ∀ semId, (S'.waiters semId).Sublist (S.waiters semId)
  asleep : ∀ semId, ∀ p ∈ S'.waiters semId, S'.Live p →
    (S'.sched.processes p).state = BLOCKED ∧ S'.frames p = S.frames p

/-- All but the numbers of tokens. -/
theorem Sleepers.fewer (h : S.Sleepers) (hfewer : Fewer S S') (henough : ∀ semId, S'.Enough semId) :
    S'.Sleepers where
  frames := fun p hp => by
    rcases hfewer.frames p hp with heq | huser
    · rw [heq]
      exact h.frames p (hfewer.live p hp)
    · exact .inl huser
  range := fun semId p hp => h.range semId p ((hfewer.waiters semId).subset hp)
  asleep := fun semId p hp hlive => by
    obtain ⟨hstate, heq⟩ := hfewer.asleep semId p hp hlive
    have hwas := h.asleep semId p ((hfewer.waiters semId).subset hp) (hfewer.live p hlive)
    exact ⟨hstate, heq.trans hwas.2⟩
  once := fun semId => (h.once semId).sublist (hfewer.waiters semId)
  waitPid := fun p => (hfewer.waitPid p).trans (h.waitPid p)
  enough := henough

/-- Tokens are not made, and those who were woken are still there. -/
theorem Sleepers.enough_of (h : S.Sleepers) (hfewer : Fewer S S')
    (hvalue : S'.value semId = S.value semId)
    (hwoken : S.woken semId ⊆ S'.woken semId) : S'.Enough semId := by
  rintro ⟨p, hp, hlive⟩
  obtain ⟨hnonneg, hle⟩ := h.enough semId
    ⟨p, (hfewer.waiters semId).subset hp, hfewer.live p hlive⟩
  have hcard := Finset.card_le_card hwoken
  rw [hvalue]
  exact ⟨hnonneg, by omega⟩

theorem Fewer.woken (h : Fewer S S') (hp : p ∈ S.woken semId)
    (hframe : (S'.frames p).semaphore = some semId) (hlive : S'.Live p)
    (hstate : (S'.sched.processes p).state ≠ BLOCKED) : p ∈ S'.woken semId := by
  obtain ⟨hpid, -, hout, -⟩ := mem_woken.mp hp
  refine mem_woken.mpr ⟨hpid, hframe, fun hlisted => hout ((h.waiters semId).subset hlisted), ?_⟩
  unfold Live at hlive
  cases hs : (S'.sched.processes p).state with
  | READY => exact .inl rfl
  | RUNNING => exact .inr rfl
  | BLOCKED => exact absurd hs hstate
  | EXITED => exact absurd hs hlive

/-! ## What the scheduler does -/

/-- Who is blocked and who is over, the semaphores and the frames are as before. -/
theorem Sleepers.same (h : S.Sleepers)
    (hblocked : ∀ p, (S'.sched.processes p).state = BLOCKED ↔ (S.sched.processes p).state = BLOCKED)
    (hexited : ∀ p, (S'.sched.processes p).state = EXITED ↔ (S.sched.processes p).state = EXITED)
    (hwaitPid : ∀ p, (S'.sched.processes p).waitPid = (S.sched.processes p).waitPid)
    (hsems : S'.sems = S.sems) (hframes : S'.frames = S.frames) : S'.Sleepers := by
  have hlive : ∀ p, S'.Live p ↔ S.Live p := fun p => not_congr (hexited p)
  have hwaiters : ∀ semId, S'.waiters semId = S.waiters semId := fun semId => by
    unfold waiters
    rw [hsems]
  have hfewer : Fewer S S' := by
    refine ⟨fun p => (hlive p).mp, hwaitPid, fun p _ => .inl (by rw [hframes]),
      fun semId => by rw [hwaiters], fun semId p hp hp' => ?_⟩
    rw [hwaiters] at hp
    exact ⟨(hblocked p).mpr (h.asleep semId p hp ((hlive p).mp hp')).1, by rw [hframes]⟩
  refine h.fewer hfewer fun semId => h.enough_of hfewer ?_ fun p hp => ?_
  · unfold value
    rw [hsems]
  · obtain ⟨-, hframe, hstill, hrun⟩ := h.mem_woken_iff.mp hp
    exact hfewer.woken hp (by rw [hframes]; exact hframe) ((hlive p).mpr hstill)
      fun hb => hrun ((hblocked p).mp hb)

theorem Sleepers.quiet (h : S.Sleepers) (hq : S.sched.Quiet S'.sched) (hsems : S'.sems = S.sems)
    (hframes : S'.frames = S.frames) : S'.Sleepers :=
  h.same hq.blocked hq.exited hq.waitPid hsems hframes

/-- A process stops: it is blocked, or it is over. -/
theorem Sleepers.lose (h : S.Sleepers) (hspare : S.CanSpare pid) (hpid : pid ≠ initPid)
    (hsems : S'.sems = S.sems)
    (hother : ∀ p ≠ pid, S'.sched.processes p = S.sched.processes p ∧ S'.frames p = S.frames p)
    (hwaitPid : (S'.sched.processes pid).waitPid = (S.sched.processes pid).waitPid)
    (hself : (S'.sched.processes pid).state = EXITED ∨ (S'.sched.processes pid).state = BLOCKED ∧
      S.Live pid ∧ S'.frames pid = S.frames pid) : S'.Sleepers := by
  have hwaiters : ∀ semId, S'.waiters semId = S.waiters semId := fun semId => by
    unfold waiters
    rw [hsems]
  have hvalue : ∀ semId, S'.value semId = S.value semId := fun semId => by
    unfold value
    rw [hsems]
  have hblocked : S'.Live pid → (S'.sched.processes pid).state = BLOCKED ∧ S.Live pid ∧
      S'.frames pid = S.frames pid := hself.resolve_left
  have hlive : ∀ p, S'.Live p → S.Live p := by
    intro p hp
    by_cases heq : p = pid
    · subst heq
      exact (hblocked hp).2.1
    · unfold Live at hp ⊢
      rwa [(hother p heq).1] at hp
  have hframes : ∀ p, S'.Live p → S'.frames p = S.frames p := by
    intro p hp
    by_cases heq : p = pid
    · subst heq
      exact (hblocked hp).2.2
    · exact (hother p heq).2
  have hfewer : Fewer S S' := by
    refine ⟨hlive, fun p => ?_, fun p hp => .inl (hframes p hp), fun semId => by rw [hwaiters],
      fun semId p hp hp' => ⟨?_, hframes p hp'⟩⟩
    · by_cases heq : p = pid
      · rw [heq, hwaitPid]
      · rw [(hother p heq).1]
    · by_cases heq : p = pid
      · subst heq
        exact (hblocked hp').1
      · rw [hwaiters] at hp
        rw [(hother p heq).1]
        exact (h.asleep semId p hp (hlive p hp')).1
  have hkept : ∀ semId, ∀ p ∈ S.woken semId, p ≠ pid → p ∈ S'.woken semId := by
    intro semId p hp hne
    obtain ⟨-, hframe, hstill, hrun⟩ := h.mem_woken_iff.mp hp
    obtain ⟨hprocess, hsame⟩ := hother p hne
    refine hfewer.woken hp (by rw [hsame]; exact hframe) ?_ (by rw [hprocess]; exact hrun)
    unfold Live at hstill ⊢
    rwa [hprocess]
  refine h.fewer hfewer fun semId => ?_
  by_cases hmem : pid ∈ S.woken semId
  · -- one of those who were woken is gone
    rintro ⟨p, hp, hp'⟩
    rw [hwaiters] at hp
    have hwoken := (mem_woken.mp hmem).2
    have hfew : S.value semId < (S.woken semId).card := by
      rcases hspare hpid semId hwoken.1 hwoken with hfew | hnone
      · exact hfew
      · exact absurd (hlive p hp') (hnone p hp)
    have hsubset : (S.woken semId).erase pid ⊆ S'.woken semId := fun q hq => by
      obtain ⟨hne, hq⟩ := Finset.mem_erase.mp hq
      exact hkept semId q hq hne
    have hcard := Finset.card_le_card hsubset
    rw [Finset.card_erase_of_mem hmem] at hcard
    rw [hvalue]
    exact ⟨(h.enough semId ⟨p, hp, hlive p hp'⟩).1, by omega⟩
  · refine h.enough_of hfewer (hvalue semId) fun p hp => hkept semId p hp ?_
    rintro rfl
    exact hmem hp

theorem Sleepers.sysBlock (h : S.Sleepers) (hc : S.sched.currentProcess = some c)
    (hspare : S.CanSpare pid) : (S.sysBlock pid).Sleepers := by
  unfold Machine.sysBlock
  split
  · exact h
  · rename_i hgood
    rw [not_or, Bool.not_eq_true', Bool.not_eq_false] at hgood
    obtain ⟨hinit, hvalid⟩ := hgood
    have hblocked : (S.onSched fun s => s.setState pid BLOCKED).Sleepers := by
      have hself : (S.onSched fun s => s.setState pid BLOCKED).sched.processes pid =
          { S.sched.processes pid with state := BLOCKED } := Function.update_self _ _ _
      refine h.lose hspare hinit rfl (fun p hne => ⟨Sched.setProcess_of_ne hne, rfl⟩)
        (by rw [hself]) (.inr ⟨by rw [hself], (Sched.isValidPID_iff.mp hvalid).2.2, rfl⟩)
    exact hblocked.quiet (Sched.blockProcess_quiet hc hvalid) rfl rfl

theorem Sleepers.killStart (h : S.Sleepers) (hspare : S.CanSpare pid) (hpid : pid ≠ initPid)
    (stage : ExitStage) : (S.killStart pid stage).Sleepers := by
  refine h.lose hspare hpid rfl (fun p hne => ⟨?_, ?_⟩) ?_ (.inl (killStart_state S pid stage))
  · simp [Machine.killStart, Sched.setProcess_of_ne hne, Sched.unscheduleProcess]
  · simp [Machine.killStart, hne]
  · simp [Machine.killStart, Sched.unscheduleProcess]

/-! ## What the semaphores do -/

/-- `unblockProcess`, one process after another. -/
theorem wakeAll_processes : ∀ (pids : List ℤ) (S : Machine) (p : ℤ),
    (S.wakeAll pids).sched.processes p = S.sched.processes p ∧
        ¬(p ∈ pids ∧ (0 < p ∧ p ≤ maxPid) ∧ (S.sched.processes p).state = BLOCKED) ∨
      (p ∈ pids ∧ (S.sched.processes p).state = BLOCKED) ∧
        (S.wakeAll pids).sched.processes p = { S.sched.processes p with state := READY }
  | [], S, p => .inl ⟨rfl, fun h => absurd h.1 List.not_mem_nil⟩
  | pid :: pids, S, p => by
      have hrest := wakeAll_processes pids (S.onSched fun s => (s.unblockProcess pid).2) p
      change (S.wakeAll (pid :: pids)).sched.processes p = _ ∧ _ ∨
        _ ∧ (S.wakeAll (pid :: pids)).sched.processes p = _ at hrest
      by_cases hp : p = pid
      · subst hp
        rcases Sched.unblockProcess_state S.sched p p with hsame | ⟨-, hb, hready⟩
        · -- it was not blocked, or it is no process
          rw [onSched_sched, hsame] at hrest
          rcases hrest with ⟨heq, -⟩ | ⟨⟨hmem, hb⟩, heq⟩
          · refine .inl ⟨heq, fun ⟨_, hpid, hb⟩ => ?_⟩
            have hvalid : S.sched.isValidPID p :=
              Sched.isValidPID_iff.mpr ⟨hpid.1, hpid.2, by rw [hb]; decide⟩
            unfold Sched.unblockProcess at hsame
            rw [Sched.getProcess_of_valid hvalid] at hsame
            dsimp only at hsame
            rw [if_neg (not_not.mpr hb), Sched.schedule_processes, Sched.setState,
              Sched.setProcess_self] at hsame
            rw [← hsame] at hb
            cases hb
          · exact .inr ⟨⟨List.mem_cons_self, hb⟩, heq⟩
        · right
          refine ⟨⟨List.mem_cons_self, hb⟩, ?_⟩
          rw [onSched_sched, hready] at hrest
          rcases hrest with ⟨heq, -⟩ | ⟨⟨-, hfalse⟩, -⟩
          · exact heq
          · cases hfalse
      · rw [onSched_sched, Sched.unblockProcess_of_ne hp] at hrest
        rcases hrest with ⟨heq, hnot⟩ | ⟨⟨hmem, hb⟩, heq⟩
        · refine .inl ⟨heq, fun h => hnot ⟨?_, h.2⟩⟩
          exact (List.mem_cons.mp h.1).resolve_left hp
        · exact .inr ⟨⟨List.mem_cons_of_mem _ hmem, hb⟩, heq⟩

theorem wakeAll_live {pids : List ℤ} : (S.wakeAll pids).Live p ↔ S.Live p := by
  unfold Live
  rcases wakeAll_processes pids S p with ⟨heq, -⟩ | ⟨⟨-, hb⟩, heq⟩
  · rw [heq]
  · rw [heq, hb]
    simp

@[simp] theorem wakeAll_frames (S : Machine) (pids : List ℤ) :
    (S.wakeAll pids).frames = S.frames := rfl

/-- Those of `pids` come off the queue of a semaphore, whose value changes. -/
theorem Sleepers.awaken (h : S.Sleepers) (T : Machine) (semId : ℕ) (pids : List ℤ)
    (hsched : T.sched = S.sched) (hframes : T.frames = S.frames)
    (hother : ∀ other ≠ semId, T.sems.sems other = S.sems.sems other)
    (hwaiters : S.waiters semId = pids ++ T.waiters semId)
    (henough : (∃ p ∈ T.waiters semId, S.Live p) → 0 ≤ T.value semId ∧
      T.value semId ≤ (S.woken semId).card + (pids.filter fun p => S.Live p).length) :
    (T.wakeAll pids).Sleepers := by
  have hlive : ∀ p, (T.wakeAll pids).Live p ↔ S.Live p := by
    intro p
    rw [wakeAll_live]
    unfold Live
    rw [hsched]
  have hsame : ∀ p, (T.wakeAll pids).frames p = S.frames p := fun p => by
    rw [wakeAll_frames, hframes]
  have hlists : ∀ other, (T.waiters other).Sublist (S.waiters other) := by
    intro other
    by_cases heq : other = semId
    · rw [heq, hwaiters]
      exact List.sublist_append_right _ _
    · unfold waiters
      rw [hother other heq]
  have hapart : ∀ other, ∀ p ∈ T.waiters other, S.Live p → p ∉ pids := by
    intro other p hp hp' hmem
    have hlisted : p ∈ S.waiters semId := by
      rw [hwaiters]
      exact List.mem_append_left _ hmem
    have hframe := (h.asleep semId p hlisted hp').2
    have hframe' := (h.asleep other p ((hlists other).subset hp) hp').2
    obtain rfl : semId = other := (Frame.semWait.inj (hframe.symm.trans hframe')).1
    have honce := h.once semId
    rw [hwaiters] at honce
    exact (List.nodup_append.mp honce).2.2 p hmem p hp rfl
  have hprocess : ∀ p ∉ pids, (T.wakeAll pids).sched.processes p = S.sched.processes p := by
    intro p hp
    rcases wakeAll_processes pids T p with ⟨heq, -⟩ | ⟨⟨hmem, -⟩, -⟩
    · rw [heq, hsched]
    · exact absurd hmem hp
  have hfewer : Fewer S (T.wakeAll pids) := by
    refine ⟨fun p => (hlive p).mp, fun p => ?_, fun p _ => .inl (hsame p), hlists,
      fun other p hp hp' => ⟨?_, hsame p⟩⟩
    · rcases wakeAll_processes pids T p with ⟨heq, -⟩ | ⟨-, heq⟩
      · rw [heq, hsched]
      · rw [heq, hsched]
    · have hstill := (hlive p).mp hp'
      rw [hprocess p (hapart other p hp hstill)]
      exact (h.asleep other p ((hlists other).subset hp) hstill).1
  have hwoken : ∀ other, S.woken other ⊆ (T.wakeAll pids).woken other := by
    intro other p hp
    obtain ⟨-, hframe, hstill, hrun⟩ := h.mem_woken_iff.mp hp
    refine hfewer.woken hp (by rw [hsame]; exact hframe) ((hlive p).mpr hstill) ?_
    rcases wakeAll_processes pids T p with ⟨heq, -⟩ | ⟨-, heq⟩
    · rw [heq, hsched]
      exact hrun
    · rw [heq]
      simp
  refine h.fewer hfewer fun other => ?_
  by_cases hsem : other = semId
  · subst hsem
    rintro ⟨p, hp, hp'⟩
    obtain ⟨hnonneg, hle⟩ := henough ⟨p, hp, (hlive p).mp hp'⟩
    -- those who are woken now were not before
    have hlisted : ∀ q ∈ pids, q ∈ S.waiters other := fun q hq => by
      rw [hwaiters]
      exact List.mem_append_left _ hq
    have hnew : (pids.filter fun q => S.Live q).toFinset ⊆ (T.wakeAll pids).woken other := by
      intro q hq
      obtain ⟨hmem, hq'⟩ := List.mem_filter.mp (List.mem_toFinset.mp hq)
      have hstill : S.Live q := of_decide_eq_true hq'
      have hpid := h.range other q (hlisted q hmem)
      obtain ⟨hb, hframe⟩ := h.asleep other q (hlisted q hmem) hstill
      refine mem_woken.mpr ⟨hpid, by rw [hsame, hframe]; rfl,
        fun hstays => hapart other q hstays hstill hmem, .inl ?_⟩
      rcases wakeAll_processes pids T q with ⟨-, hnot⟩ | ⟨-, heq⟩
      · exact absurd ⟨hmem, hpid, by rw [hsched]; exact hb⟩ hnot
      · rw [heq]
    have hdisjoint : Disjoint (S.woken other) (pids.filter fun q => S.Live q).toFinset := by
      rw [Finset.disjoint_left]
      intro q hq hq'
      have hmem := (List.mem_filter.mp (List.mem_toFinset.mp hq')).1
      exact (mem_woken.mp hq).2.2.1 (hlisted q hmem)
    have honce : (pids.filter fun q => S.Live q).Nodup := by
      have honce := h.once other
      rw [hwaiters] at honce
      exact (List.nodup_append.mp honce).1.filter _
    have hcard := Finset.card_le_card (Finset.union_subset (hwoken other) hnew)
    rw [Finset.card_union_of_disjoint hdisjoint, List.toFinset_card_of_nodup honce] at hcard
    change 0 ≤ T.value other ∧ T.value other ≤ _
    exact ⟨hnonneg, by omega⟩
  · refine h.enough_of hfewer ?_ (hwoken other)
    change T.value other = _
    unfold value
    rw [hother other hsem]

/-- Nothing wraps around below a value. -/
theorem toInt_sub_of_nonneg {a b : Int32} (hb : 0 ≤ b.toInt) (hle : b.toInt ≤ a.toInt) :
    (a - b).toInt = a.toInt - b.toInt := by
  have hlt := Int32.toInt_lt a
  rw [Int32.toInt_sub]
  change (a.toInt - b.toInt).bmod (2 ^ 32) = _
  rw [Int.bmod_eq_of_le] <;> omega

theorem elements_list {w : WaitQueue} {pids : List ℤ} (h : w.elements = some pids) :
    w.list = pids := by
  rcases elements_some h with ⟨rfl, rfl⟩ | rfl <;> rfl

theorem drop_list (w : WaitQueue) (n : ℕ) : (w.drop n).list = w.list.drop n := by
  cases w with
  | null => exact List.drop_nil.symm
  | freed => exact List.drop_nil.symm
  | queue elements => rfl

theorem free_list (w : WaitQueue) : w.free.list = [] := by
  cases w <;> rfl

/-- Everybody is taken off the queue. -/
theorem Sleepers.awakenAll (h : S.Sleepers) (T : Machine) (semId : ℕ) {pids : List ℤ}
    (hsched : T.sched = S.sched) (hframes : T.frames = S.frames)
    (hother : ∀ other ≠ semId, T.sems.sems other = S.sems.sems other)
    (hpids : S.waiters semId = pids) (hempty : T.waiters semId = []) :
    (T.wakeAll pids).Sleepers := by
  refine h.awaken T semId pids hsched hframes hother (by rw [hempty, List.append_nil, hpids]) ?_
  rintro ⟨p, hp, -⟩
  rw [hempty] at hp
  exact absurd hp List.not_mem_nil

theorem Sleepers.semPost (h : S.Sleepers) {semId : ℤ} {r : Int32}
    (hpost : S.semPost semId = some (r, S')) : S'.Sleepers := by
  rcases semPost_cases hpost with ⟨rfl, -⟩ | ⟨-, -, pids, hpids, rfl⟩
  · exact h
  · refine h.awakenAll _ semId.toNat rfl rfl (fun other hne => ?_) (elements_list hpids) ?_
    · exact SemTable.setSem_sems_of_ne hne
    · have hself : ∀ o, ((S.setSem semId.toNat { S.sems.sems semId.toNat with
          value := (S.sems.sems semId.toNat).value + 1
          waiting := (S.sems.sems semId.toNat).waiting.drop pids.length }).note o).waiters
            semId.toNat = ((S.sems.sems semId.toNat).waiting.drop pids.length).list := fun o => by
        simp [waiters]
      rw [hself, drop_list, elements_list hpids, List.drop_length]

theorem Sleepers.semDestroy (h : S.Sleepers) {semId : ℤ} {r : Int32}
    (hdestroy : S.semDestroy semId = some (r, S')) : S'.Sleepers := by
  obtain ⟨-, pids, hpids, rfl⟩ := semDestroy_cases hdestroy
  refine h.awakenAll _ semId.toNat rfl rfl (fun other hne => ?_) (elements_list hpids) ?_
  · exact SemTable.setSem_sems_of_ne hne
  · have hself : ∀ o, (({ S with sems := S.sems.release semId.toNat } : Machine).note o).waiters
        semId.toNat = (S.sems.sems semId.toNat).waiting.free.list := fun o => by
      simp [waiters, SemTable.release]
    rw [hself, free_list]

/-- A value that does not grow, or grows by as many as are woken. -/
theorem Sleepers.semSetValue (h : S.Sleepers) {semId : ℤ} {newValue r : Int32}
    (hwakes : 0 ≤ semId → semId < maxSems → S.WakesLive semId.toNat newValue)
    (hset : S.semSetValue semId newValue = some (r, S')) : S'.Sleepers := by
  unfold Machine.semSetValue at hset
  split at hset
  · obtain ⟨-, rfl⟩ := Prod.mk.inj (Option.some.inj hset)
    exact h
  · rename_i hrange
    rw [not_or, not_or, not_lt, not_le, Int32.not_lt] at hrange
    obtain ⟨hpos, hlt, hnonneg⟩ := hrange
    have hlive := hwakes hpos hlt
    dsimp only at hset
    split at hset
    · obtain ⟨-, rfl⟩ := Prod.mk.inj (Option.some.inj hset)
      exact h
    · split at hset
      · rename_i hgreater
        split at hset
        · exact absurd hset (by simp)
        · rename_i pids hpids
          obtain ⟨-, rfl⟩ := Prod.mk.inj (Option.some.inj hset)
          have hlist : S.waiters semId.toNat = pids := elements_list hpids
          obtain ⟨available, hcount⟩ :
            ∃ available, available = (newValue - (S.sems.sems semId.toNat).value).toInt.toNat :=
              ⟨_, rfl⟩
          rw [← hcount]
          have hself : ∀ o, ((S.setSem semId.toNat { S.sems.sems semId.toNat with
              value := newValue
              waiting := (S.sems.sems semId.toNat).waiting.drop available }).note o).waiters
                semId.toNat = pids.drop available := fun o => by
            rw [← hlist]
            unfold waiters
            rw [← drop_list]
            simp
          refine h.awaken _ semId.toNat _ rfl rfl
            (fun other hne => SemTable.setSem_sems_of_ne hne) ?_ ?_
          · rw [hself, List.take_append_drop, hlist]
          · rw [hself]
            rintro ⟨p, hp, hp'⟩
            have hall : ∀ q ∈ pids.take available, S.Live q := by
              have hcases := hlive hgreater
              rw [hlist, ← hcount] at hcases
              exact hcases.resolve_right fun hnone => hnone p hp hp'
            have hfilter : (pids.take available).filter (fun q => S.Live q) = pids.take available :=
              List.filter_eq_self.mpr fun q hq => decide_eq_true (hall q hq)
            have hlong : available ≤ pids.length := by
              by_contra hshort
              rw [List.drop_eq_nil_of_le (by omega)] at hp
              exact absurd hp List.not_mem_nil
            obtain ⟨hbefore, hle⟩ := h.enough semId.toNat
              ⟨p, by rw [hlist]; exact List.mem_of_mem_drop hp, hp'⟩
            have hvalue : ∀ o, ((S.setSem semId.toNat { S.sems.sems semId.toNat with
                value := newValue
                waiting := (S.sems.sems semId.toNat).waiting.drop available }).note o).value
                  semId.toNat = newValue.toInt := fun o => by
              simp [value]
            have hgrows : (S.sems.sems semId.toNat).value.toInt < newValue.toInt :=
              Int32.lt_iff_toInt_lt.mp hgreater
            unfold value at hbefore hle
            rw [toInt_sub_of_nonneg hbefore (by omega)] at hcount
            rw [hvalue, hfilter, List.length_take, Nat.min_eq_left hlong]
            exact ⟨by omega, by omega⟩
      · rename_i hsmaller
        obtain ⟨-, rfl⟩ := Prod.mk.inj (Option.some.inj hset)
        have hle : newValue.toInt ≤ (S.sems.sems semId.toNat).value.toInt :=
          Int32.le_iff_toInt_le.mp (Int32.not_lt.mp hsmaller)
        have hnonneg' : 0 ≤ newValue.toInt := Int32.le_iff_toInt_le.mp hnonneg
        refine h.awaken ((S.setSem semId.toNat { S.sems.sems semId.toNat with
          value := newValue }).note (.semSet semId.toNat newValue)) semId.toNat [] rfl rfl
          (fun other hne => SemTable.setSem_sems_of_ne hne) ?_ ?_
        · rw [List.nil_append]
          simp [waiters]
        · rintro ⟨p, hp, hp'⟩
          have hlisted : p ∈ S.waiters semId.toNat := by
            simpa [waiters] using hp
          obtain ⟨-, hbefore⟩ := h.enough semId.toNat ⟨p, hlisted, hp'⟩
          have hvalue : ((S.setSem semId.toNat { S.sems.sems semId.toNat with
              value := newValue }).note (.semSet semId.toNat newValue)).value semId.toNat =
                newValue.toInt := by
            simp [value]
          rw [hvalue]
          unfold value at hbefore
          exact ⟨hnonneg', by omega⟩

/-! ## What a waiter does -/

/-- The process has the CPU, and is not inside a call on another semaphore. -/
structure AtSem (S : Machine) (c : ℤ) (semId : ℕ) : Prop where
  range : 0 < c ∧ c ≤ maxPid
  running : (S.sched.processes c).state = RUNNING
  frame : S.frames c = .user ∨ S.frames c = .semWait semId .done

theorem AtSem.live (h : S.AtSem c semId) : S.Live c := by
  unfold Live
  rw [h.running]
  decide

theorem AtSem.unlisted (h : S.AtSem c semId) (hs : S.Sleepers) (other : ℕ) :
    c ∉ S.waiters other := by
  intro hlisted
  have hb := (hs.asleep other c hlisted h.live).1
  rw [h.running] at hb
  cases hb

theorem AtSem.not_woken (h : S.AtSem c semId) {other : ℕ} (hne : other ≠ semId) :
    c ∉ S.woken other := by
  intro hc
  have hframe := (mem_woken.mp hc).2.1
  rcases h.frame with huser | hwait
  · rw [huser] at hframe
    cases hframe
  · rw [hwait] at hframe
    exact hne (Option.some.inj hframe).symm

/-- The value is not zero, and the process takes one. -/
theorem Sleepers.takeOne (h : S.Sleepers) (hc : S.AtSem c semId)
    (hvalue : (S.sems.sems semId).value ≠ 0) : ((S.takeOne c semId).setFrame c .user).Sleepers := by
  obtain ⟨T, hT⟩ : ∃ T, T = (S.takeOne c semId).setFrame c .user := ⟨_, rfl⟩
  rw [← hT]
  have hsched : T.sched = S.sched := by rw [hT]; rfl
  have hother : ∀ p ≠ c, T.frames p = S.frames p := fun p hne => by
    rw [hT]
    exact Function.update_of_ne hne _ _
  have hself : T.frames c = .user := by
    rw [hT]
    exact Function.update_self _ _ _
  have hwaiters : ∀ other, T.waiters other = S.waiters other := by
    intro other
    rw [hT]
    by_cases heq : other = semId
    · subst heq
      simp [waiters, Machine.takeOne]
    · simp [waiters, Machine.takeOne, SemTable.setSem_sems_of_ne heq]
  have hlive : ∀ p, T.Live p ↔ S.Live p := fun p => by
    unfold Live
    rw [hsched]
  have hfewer : Fewer S T := by
    refine ⟨fun p => (hlive p).mp, fun p => by rw [hsched], fun p _ => ?_, fun other => by
      rw [hwaiters], fun other p hp hp' => ?_⟩
    · by_cases heq : p = c
      · rw [heq]
        exact .inr hself
      · exact .inl (hother p heq)
    · rw [hwaiters] at hp
      have hne : p ≠ c := by
        rintro rfl
        exact hc.unlisted h other hp
      rw [hsched]
      exact ⟨(h.asleep other p hp ((hlive p).mp hp')).1, hother p hne⟩
  have hkept : ∀ other, ∀ p ∈ S.woken other, p ≠ c → p ∈ T.woken other := by
    intro other p hp hne
    obtain ⟨-, hframe, hstill, hrun⟩ := h.mem_woken_iff.mp hp
    exact hfewer.woken hp (by rw [hother p hne]; exact hframe) ((hlive p).mpr hstill)
      (by rw [hsched]; exact hrun)
  refine h.fewer hfewer fun other => ?_
  by_cases heq : other = semId
  · subst heq
    rintro ⟨p, hp, hp'⟩
    rw [hwaiters] at hp
    obtain ⟨hnonneg, hle⟩ := h.enough other ⟨p, hp, (hlive p).mp hp'⟩
    have hpos : 1 ≤ (S.sems.sems other).value.toInt := by
      have hne : (S.sems.sems other).value.toInt ≠ 0 := fun h0 =>
        hvalue (Int32.toInt_inj.mp (h0.trans Int32.toInt_zero.symm))
      unfold value at hnonneg
      omega
    have hless : T.value other = S.value other - 1 := by
      rw [hT]
      have hsub : ((S.sems.sems other).value - 1).toInt = (S.sems.sems other).value.toInt - 1 :=
        toInt_sub_of_nonneg (b := 1) (by decide) hpos
      simp [value, Machine.takeOne, -Int32.toInt_sub, hsub]
    unfold value at hless hnonneg hle ⊢
    by_cases hmem : c ∈ S.woken other
    · have hsubset : (S.woken other).erase c ⊆ T.woken other := fun q hq => by
        obtain ⟨hne, hq⟩ := Finset.mem_erase.mp hq
        exact hkept other q hq hne
      have hcard := Finset.card_le_card hsubset
      rw [Finset.card_erase_of_mem hmem] at hcard
      exact ⟨by omega, by omega⟩
    · have hsubset : S.woken other ⊆ T.woken other := fun q hq => hkept other q hq (by
        rintro rfl
        exact hmem hq)
      have hcard := Finset.card_le_card hsubset
      exact ⟨by omega, by omega⟩
  · refine h.enough_of hfewer ?_ fun p hp => hkept other p hp ?_
    · rw [hT]
      simp [value, Machine.takeOne, SemTable.setSem_sems_of_ne heq]
    · rintro rfl
      exact hc.not_woken heq hp

theorem enlist_waiters (S : Machine) (c : ℤ) (semId : ℕ) :
    (S.enlist c semId).waiters semId = S.waiters semId ∨
      (S.enlist c semId).waiters semId = S.waiters semId ++ [c] := by
  unfold waiters Machine.enlist
  split
  · rename_i q hq
    rw [hq]
    simp only [onSched_sems, setSem_sems, SemTable.setSem_sems_self, WaitQueue.list]
    unfold Sched.append
    split
    · exact .inr rfl
    · exact .inl rfl
  · exact .inl rfl

theorem enlist_sems_of_ne {other : ℕ} (hne : other ≠ semId) :
    (S.enlist c semId).sems.sems other = S.sems.sems other := by
  unfold Machine.enlist
  split
  · exact SemTable.setSem_sems_of_ne hne
  · rfl

theorem enlist_value (S : Machine) (c : ℤ) (semId other : ℕ) :
    (S.enlist c semId).value other = S.value other := by
  unfold value Machine.enlist
  split
  · by_cases heq : other = semId
    · subst heq
      simp
    · simp [SemTable.setSem_sems_of_ne heq]
  · rfl

/-- The value is zero, and the process falls asleep. -/
theorem Sleepers.fallAsleep (h : S.Sleepers) (hc : S.AtSem c semId)
    (hcurrent : S.sched.currentProcess = some c) (hvalue : (S.sems.sems semId).value = 0) :
    (S.fallAsleep c semId .done).Sleepers := by
  obtain ⟨T, hT⟩ : ∃ T, T = ((S.enlist c semId).setFrame c (.semWait semId .done)).onSched
      fun s => s.setState c BLOCKED := ⟨_, rfl⟩
  have hprocesses : ∀ p, (S.enlist c semId).sched.processes p = S.sched.processes p := by
    intro p
    rcases enlist_sched S c semId with heq | heq <;> rw [heq]
    rfl
  have hother : ∀ p ≠ c, T.sched.processes p = S.sched.processes p ∧ T.frames p = S.frames p := by
    intro p hne
    rw [hT]
    refine ⟨(Sched.setProcess_of_ne hne).trans (hprocesses p), ?_⟩
    exact (Function.update_of_ne hne _ _).trans (congrFun (enlist_frames S c semId) p)
  have hself : T.sched.processes c = { S.sched.processes c with state := BLOCKED } := by
    rw [hT, ← hprocesses c]
    exact Function.update_self _ _ _
  have hframe : T.frames c = .semWait semId .done := by
    rw [hT]
    exact Function.update_self _ _ _
  have hsems : T.sems = (S.enlist c semId).sems := by rw [hT]; rfl
  have hlive : ∀ p, T.Live p ↔ S.Live p := by
    intro p
    unfold Live
    by_cases heq : p = c
    · rw [heq, hself, hc.running]
      simp
    · rw [(hother p heq).1]
  have hlisted : ∀ {other p}, p ∈ T.waiters other →
      p ∈ S.waiters other ∧ p ≠ c ∨ p = c ∧ other = semId := by
    intro other p hp
    have hout : ∀ {q}, q ∈ S.waiters other → q ≠ c := fun hq heq =>
      hc.unlisted h other (heq ▸ hq)
    have hp : p ∈ (S.enlist c semId).waiters other := by
      unfold waiters at hp ⊢
      rwa [hsems] at hp
    by_cases heq : other = semId
    · subst heq
      rcases enlist_waiters S c other with hsame | hmore
      · rw [hsame] at hp
        exact .inl ⟨hp, hout hp⟩
      · rw [hmore] at hp
        rcases List.mem_append.mp hp with hp | hp
        · exact .inl ⟨hp, hout hp⟩
        · exact .inr ⟨List.mem_singleton.mp hp, rfl⟩
    · unfold waiters at hp
      rw [enlist_sems_of_ne heq] at hp
      exact .inl ⟨hp, hout hp⟩
  have hvalues : ∀ other, T.value other = S.value other := by
    intro other
    rw [← enlist_value S c semId other]
    unfold value
    rw [hsems]
  have hasleep : T.Sleepers := by
    refine ⟨fun p hp => ?_, fun other p hp => ?_, fun other p hp hp' => ?_, fun other => ?_,
      fun p => ?_, fun other => ?_⟩
    · by_cases heq : p = c
      · rw [heq]
        exact .inr ⟨semId, hframe⟩
      · rw [(hother p heq).2]
        exact h.frames p ((hlive p).mp hp)
    · rcases hlisted hp with ⟨hp, -⟩ | ⟨rfl, -⟩
      · exact h.range other p hp
      · exact hc.range
    · rcases hlisted hp with ⟨hp, hne⟩ | ⟨rfl, rfl⟩
      · rw [(hother p hne).1, (hother p hne).2]
        exact h.asleep other p hp ((hlive p).mp hp')
      · exact ⟨by rw [hself], hframe⟩
    · unfold waiters
      rw [hsems]
      change ((S.enlist c semId).waiters other).Nodup
      by_cases heq : other = semId
      · subst heq
        rcases enlist_waiters S c other with hsame | hmore
        · rw [hsame]
          exact h.once other
        · rw [hmore, List.nodup_append]
          refine ⟨h.once other, List.nodup_singleton c, fun p hp q hq heq => ?_⟩
          rw [List.mem_singleton.mp hq] at heq
          exact hc.unlisted h other (heq ▸ hp)
      · unfold waiters
        rw [enlist_sems_of_ne heq]
        exact h.once other
    · by_cases heq : p = c
      · rw [heq, hself]
        exact h.waitPid c
      · rw [(hother p heq).1]
        exact h.waitPid p
    · rintro ⟨p, hp, hp'⟩
      rw [hvalues]
      rcases hlisted hp with ⟨hp, -⟩ | ⟨-, rfl⟩
      · by_cases heq : other = semId
        · have hzero : S.value other = 0 := by
            unfold value
            rw [heq, hvalue]
            rfl
          exact ⟨hzero.ge, by omega⟩
        · obtain ⟨hnonneg, hle⟩ := h.enough other ⟨p, hp, (hlive p).mp hp'⟩
          have hsubset : S.woken other ⊆ T.woken other := by
            intro q hq
            have hne : q ≠ c := by
              rintro rfl
              exact hc.not_woken heq hq
            obtain ⟨hpid, hin, hout, hrun⟩ := mem_woken.mp hq
            refine mem_woken.mpr ⟨hpid, by rw [(hother q hne).2]; exact hin, fun hq' => ?_,
              by rw [(hother q hne).1]; exact hrun⟩
            rcases hlisted hq' with ⟨hq', -⟩ | ⟨heq, -⟩
            · exact hout hq'
            · exact hne heq
          have hcard := Finset.card_le_card hsubset
          exact ⟨hnonneg, by omega⟩
      · have hzero : S.value other = 0 := by
          unfold value
          rw [hvalue]
          rfl
        exact ⟨hzero.ge, by omega⟩
  have hquiet : T.sched.Quiet (S.fallAsleep c semId .done).sched := by
    rw [hT]
    refine Sched.blockProcess_quiet (c := c) ?_ ?_
    · rcases enlist_sched S c semId with heq | heq
      · change (S.enlist c semId).sched.currentProcess = some c
        rw [heq, hcurrent]
      · change (S.enlist c semId).sched.currentProcess = some c
        rw [heq]
        exact hcurrent
    · refine Sched.isValidPID_iff.mpr ⟨hc.range.1, hc.range.2, ?_⟩
      change ((S.enlist c semId).sched.processes c).state ≠ EXITED
      rw [hprocesses]
      exact hc.live
  exact hasleep.quiet hquiet (by rw [hsems]; rfl) (by rw [hT]; rfl)

/-! ## Closing a descriptor -/

/-- What is kept by every post and every destruction, and does not speak of files, is kept when a
descriptor is closed. -/
theorem closeFD_keeps {I : Machine → Prop}
    (hpost : ∀ {S S' : Machine} {semId : ℤ} {r : Int32}, I S → S.semPost semId =
      some (r, S') → I S')
    (hdestroy : ∀ {S S' : Machine} {semId : ℤ} {r : Int32}, I S →
      S.semDestroy semId = some (r, S') → I S')
    (hfiles : ∀ {S S' : Machine}, I S → S'.sched = S.sched → S'.sems = S.sems →
      S'.frames = S.frames → I S')
    (h : I S) {fd : ℤ} {r : Int32} (hclose : S.closeFD fd = some (r, S')) : I S' := by
  have htimes : ∀ {n : ℕ} {S S' : Machine} {semId : ℤ}, I S → postTimes n S semId = some S' →
      I S' := by
    intro n
    induction n with
    | zero =>
        intro S S' semId h hposts
        rwa [← Option.some.inj hposts]
    | succ n ih =>
        intro S S' semId h hposts
        simp only [postTimes, Option.bind_eq_bind, Option.bind_eq_some_iff, Prod.exists] at hposts
        obtain ⟨r, S₁, hfirst, hrest⟩ := hposts
        exact ih (hpost h hfirst) hrest
  rcases closeFD_cases hclose with ⟨-, -, rfl⟩ | ⟨-, -, id, st, -, -, ⟨-, rfl⟩ | ⟨-, hend⟩⟩
  · exact h
  · exact hfiles h rfl rfl rfl
  · obtain ⟨-, S₁, S₂, hsignal, hfree, rfl⟩ := closeEnd_cases hend
    have h₁ : I S₁ := by
      rcases signalEof_cases hsignal with ⟨-, hposts⟩ | ⟨-, rfl⟩
      · refine htimes ?_ hposts
        exact hfiles h rfl rfl rfl
      · exact hfiles h rfl rfl rfl
    have h₂ : I S₂ := by
      rcases freeStream_cases hfree with ⟨-, _, S₃, _, S₄, hread, hwrite, rfl⟩ | ⟨-, rfl⟩
      · exact hfiles (hdestroy (hdestroy h₁ hread) hwrite) rfl rfl rfl
      · exact h₁
    exact hfiles h₂ rfl rfl rfl

theorem Sleepers.congr (h : S.Sleepers) (hsched : S'.sched = S.sched) (hsems : S'.sems = S.sems)
    (hframes : S'.frames = S.frames) : S'.Sleepers :=
  h.quiet (by rw [hsched]; exact Sched.Quiet.refl _) hsems hframes

theorem Sleepers.closeFD (h : S.Sleepers) {fd : ℤ} {r : Int32}
    (hclose : S.closeFD fd = some (r, S')) : S'.Sleepers :=
  closeFD_keeps (fun h => h.semPost) (fun h => h.semDestroy) (fun h => h.congr) h hclose

theorem Sleepers.kill (h : S.Sleepers) (hspare : S.CanSpare pid) {r : Int32}
    (hkill : S.kill pid = some (r, S')) : S'.Sleepers := by
  unfold Machine.kill at hkill
  split at hkill
  · obtain ⟨-, rfl⟩ := Prod.mk.inj (Option.some.inj hkill)
    exact h
  · rename_i hrange
    rw [not_or, not_or, not_le] at hrange
    obtain ⟨hinit, -, -⟩ := hrange
    simp only [Option.bind_eq_bind, Option.bind_eq_some_iff, Prod.exists] at hkill
    obtain ⟨_, S₁, hin, _, S₂, hout, hlast⟩ := hkill
    have hstart := h.killStart hspare (ne_of_gt hinit) .leave
    have h₂ : S₂.Sleepers := (hstart.closeFD hin).closeFD hout
    rw [killWake_eq (h₂.waitPid pid)] at hlast
    split at hlast
    · rename_i hself
      obtain ⟨-, rfl⟩ := Prod.mk.inj (Option.some.inj hlast)
      exact h₂.quiet (Sched.switchContext_quiet (Sched.settled_of_some hself)) rfl rfl
    · obtain ⟨-, rfl⟩ := Prod.mk.inj (Option.some.inj hlast)
      exact h₂

/-! ## Runs -/

/-- The process comes back from `semWait`, or sleeps again. -/
theorem Sleepers.semWaitLoop (h : S.Sleepers) (hc : S.AtSem c semId)
    (hcurrent : S.sched.currentProcess = some c) {taken : Bool} {S₁ : Machine}
    (hloop : S.semWaitLoop c semId .done = some (taken, S₁)) :
    (if taken then S₁.setFrame c .user else S₁).Sleepers := by
  rcases semWaitLoop_cases hloop with ⟨rfl, hvalue, -, rfl⟩ | ⟨rfl, hvalue, rfl⟩
  · exact h.fallAsleep hc hcurrent hvalue
  · exact h.takeOne hc hvalue

theorem Sleepers.waitThen (h : S.Sleepers) {semId : ℤ} (hc : S.AtSem c semId.toNat)
    (hcurrent : S.sched.currentProcess = some c) (hf : S.frames c = .user)
    (hwait : S.waitThen c semId .done = some S') : S'.Sleepers := by
  have hback : S.setFrame c .user = S := by
    unfold setFrame
    rw [← hf, Function.update_eq_self]
  unfold Machine.waitThen at hwait
  obtain ⟨⟨returned, S₁⟩, hsem, hafter⟩ := Option.bind_eq_some_iff.mp hwait
  have hS' : S' = if returned then S₁.setFrame c .user else S₁ := by
    dsimp only [afterWait] at hafter
    cases returned with
    | true => exact (Option.some.inj hafter).symm
    | false => exact (Option.some.inj hafter).symm
  rw [hS']
  unfold Machine.semWait at hsem
  split at hsem
  · obtain ⟨rfl, rfl⟩ := Prod.mk.inj (Option.some.inj hsem)
    rw [if_pos rfl, hback]
    exact h
  · split at hsem
    · cases hsem
    · split at hsem
      · obtain ⟨rfl, rfl⟩ := Prod.mk.inj (Option.some.inj hsem)
        rw [if_pos rfl, hback]
        exact h
      · exact h.semWaitLoop hc hcurrent hsem

/-- The frame of a process that is over does not matter. -/
theorem Sleepers.setFrame (h : S.Sleepers) (hover : ¬S.Live pid) (f : Frame) :
    (S.setFrame pid f).Sleepers := by
  have hother : ∀ p, S.Live p → (S.setFrame pid f).frames p = S.frames p := by
    intro p hp
    have hne : p ≠ pid := by
      rintro rfl
      exact hover hp
    exact Function.update_of_ne hne _ _
  have hfewer : Fewer S (S.setFrame pid f) :=
    ⟨fun p => id, fun p => rfl, fun p hp => .inl (hother p hp), fun semId => List.Sublist.refl _,
      fun semId p hp hp' => ⟨(h.asleep semId p hp hp').1, hother p hp'⟩⟩
  refine h.fewer hfewer fun semId => h.enough_of hfewer rfl fun p hp => ?_
  obtain ⟨-, hframe, hlive, hrun⟩ := h.mem_woken_iff.mp hp
  exact hfewer.woken hp (by rw [hother p hlive]; exact hframe) hlive hrun

/-- A round of the `kill` of a process that has returned. -/
theorem Sleepers.exitRound (h : S.Sleepers) (hover : ¬S.Live pid)
    (hcurrent : S.sched.currentProcess = some pid) {stage : ExitStage}
    (hround : S.exitRound pid stage = some S') : S'.Sleepers := by
  have hclose : ∀ {fd : ℤ} {r : Int32} {S₁ : Machine} (stage' : ExitStage),
      S.closeFD fd = some (r, S₁) → (S₁.setFrame pid (.exiting stage')).Sleepers := by
    intro fd r S₁ stage' hfd
    have hpath := closeFD_path (P := fun _ => True) (D := fun _ => True)
      (fun _ => trivial) (fun _ => trivial) hcurrent hfd
    refine (h.closeFD hfd).setFrame (fun hlive => hlive ?_) _
    exact (closing_exited hpath pid).mpr (not_not.mp hover)
  cases stage with
  | closeIn =>
      simp only [Machine.exitRound, Option.bind_eq_bind, Option.bind_eq_some_iff,
        Option.some.injEq, Prod.exists] at hround
      obtain ⟨_, S₁, hfd, rfl⟩ := hround
      exact hclose .closeOut hfd
  | closeOut =>
      simp only [Machine.exitRound, Option.bind_eq_bind, Option.bind_eq_some_iff,
        Option.some.injEq, Prod.exists] at hround
      obtain ⟨_, S₁, hfd, rfl⟩ := hround
      exact hclose .wake hfd
  | wake =>
      rw [← Option.some.inj hround, killWake_eq (h.waitPid pid)]
      exact h.setFrame hover _
  | leave =>
      rw [← Option.some.inj hround]
      exact h.quiet (Sched.switchContext_quiet (Sched.settled_of_some hcurrent)) rfl rfl

theorem Sleepers.exitProcess (h : S.Sleepers) (hf : S.frames pid = .user) {returnValue : Int32}
    (hexit : S.exitProcess pid returnValue = some S') : S'.Sleepers := by
  unfold Machine.exitProcess at hexit
  split at hexit
  · cases hexit
  · rename_i hinit
    obtain ⟨T, hT⟩ : ∃ T, T = (S.onSched fun s => s.setProcess pid
      { S.sched.processes pid with waitReturnValue := returnValue }).note
        (.returned pid returnValue) := ⟨_, rfl⟩
    dsimp only at hexit
    rw [← hT] at hexit
    rw [← Option.some.inj hexit]
    have hsched : T.sched = S.sched.setProcess pid
        { S.sched.processes pid with waitReturnValue := returnValue } := by
      rw [hT]
      rfl
    have hstate : ∀ p, (T.sched.processes p).state = (S.sched.processes p).state ∧
        (T.sched.processes p).waitPid = (S.sched.processes p).waitPid := by
      intro p
      rw [hsched]
      by_cases heq : p = pid
      · rw [heq, Sched.setProcess_self]
        exact ⟨rfl, rfl⟩
      · rw [Sched.setProcess_of_ne heq]
        exact ⟨rfl, rfl⟩
    have hreturned : T.Sleepers := by
      refine h.same (fun p => ?_) (fun p => ?_) (fun p => (hstate p).2) (by rw [hT]; rfl)
        (by rw [hT]; rfl)
      · rw [(hstate p).1]
      · rw [(hstate p).1]
    refine hreturned.killStart (fun _ semId hsem _ => ?_) (fun heq => hinit heq.le) .closeIn
    have hframes : T.frames pid = .user := by
      rw [hT]
      exact hf
    rw [hframes] at hsem
    cases hsem

/-- **Every step keeps enough of those who were woken.** -/
theorem Sleepers.step {e : Event} (hbase : S.Base) (h : S.Sleepers)
    (hok : ofWaiters e ∧ S.keepsTokens e) (hstep : S.Step e S') : S'.Sleepers := by
  obtain ⟨hof, hkeeps⟩ := hok
  have hswitch : (S.onSched Sched.switchContext).Sleepers :=
    h.quiet (Sched.switchContext_quiet hbase.sound.settled) rfl rfl
  unfold Step Machine.step at hstep
  split at hstep
  · split at hstep
    · rw [← Option.some.inj hstep]
      exact hswitch
    · cases hstep
  · rename_i c hc
    have hat : ∀ {semId}, S.frames c = .user ∨ S.frames c = .semWait semId .done →
        S.AtSem c semId := fun {semId} hf => by
      refine ⟨hbase.sound.current c hc, hbase.running hc fun stage hstage => ?_, hf⟩
      rcases hf with hf | hf <;> rw [hf] at hstage <;> cases hstage
    split at hstep
    · split at hstep
      · rw [← Option.some.inj hstep]
        exact hswitch
      · cases hstep
    · rename_i call
      split at hstep
      · rename_i hf
        cases call with
        | kill target =>
            obtain ⟨⟨r, S₁⟩, hkill, rfl⟩ := Option.map_eq_some_iff.mp hstep
            exact h.kill hkeeps hkill
        | block target =>
            rw [← Option.some.inj hstep]
            exact h.sysBlock hc hkeeps
        | yield =>
            rw [← Option.some.inj hstep]
            exact h.quiet (Sched.yield_quiet hbase.sound.settled) rfl rfl
        | semWait semId =>
            dsimp only [sysCall] at hstep
            split at hstep
            · exact h.waitThen (hat (.inl hf)) hc hf hstep
            · rwa [← Option.some.inj hstep]
        | semPost semId =>
            dsimp only [sysCall] at hstep
            split at hstep
            · obtain ⟨⟨r, S₁⟩, hpost, rfl⟩ := Option.map_eq_some_iff.mp hstep
              exact h.semPost hpost
            · rwa [← Option.some.inj hstep]
        | semSetValue semId newValue =>
            obtain ⟨⟨r, S₁⟩, hset, rfl⟩ := Option.map_eq_some_iff.mp hstep
            exact h.semSetValue hkeeps hset
        | _ => exact absurd hof (by simp [ofWaiters])
      · cases hstep
    · rcases hbase.busy c hc with hrun | ⟨hover, stage, hstage⟩
      · have hlive : S.Live c := by
          unfold Live
          rw [hrun]
          decide
        rcases h.frames c hlive with hf | ⟨semId, hf⟩
        · rw [hf] at hstep
          cases hstep
        · rw [hf] at hstep
          simp only [resume, Option.bind_eq_bind, Option.bind_eq_some_iff, Prod.exists] at hstep
          obtain ⟨taken, S₁, hloop, hafter⟩ := hstep
          have hS' : S' = if taken then S₁.setFrame c .user else S₁ := by
            cases taken with
            | true => exact (Option.some.inj hafter).symm
            | false => exact (Option.some.inj hafter).symm
          rw [hS']
          exact h.semWaitLoop (hat (.inr hf)) hc hloop
      · rw [hstage] at hstep
        exact h.exitRound (not_not.mpr hover) hc hstep
    · split at hstep
      · rename_i hf
        exact h.exitProcess hf hstep
      · cases hstep

/-- **No lost wake-up**: from a state in which nobody waits, in every run of the users of semaphores
in which a greater value wakes only live processes and nobody stops a process that was woken and is
needed, nobody is left asleep on a positive value. -/
theorem noLostWakeUp (nodes blocks : ℕ → Bool) (S₀ S : Machine)
    (hreach : Reaches Step always (boot nodes blocks) S₀) (hawake : S₀.AllAwake)
    (hrun : Reaches Step (fun S e => ofWaiters e ∧ S.keepsTokens e) S₀ S) : S.NoLostWakeUp := by
  have hbase₀ : S₀.Base :=
    hreach.invariant base_boot fun S e S' h _ hstep => h.step hstep
  have hboth : S.Base ∧ S.Sleepers :=
    hrun.invariant (I := fun S => S.Base ∧ S.Sleepers) ⟨hbase₀, hawake.sleepers⟩
      fun S e S' h hok hstep => ⟨h.1.step hstep, h.2.step h.1 hok hstep⟩
  exact hboth.2.covers

/-! ## Two workers and the shell -/

/-- Whatever `main` does, nobody waits. -/
theorem AllAwake.does {a : Act} (hbase : S.Base) (h : S.AllAwake) (ha : starting a)
    (hd : S.Does a S') : S'.AllAwake := by
  cases hd <;> simp only [starting] at ha
  case switch isYield =>
    have hflag : S.sched.Quiet { S.sched with isYield := isYield } := Sched.Quiet.of_processes rfl
    have hq : S.sched.Quiet ({ S.sched with isYield := isYield } : Sched).switchContext :=
      hflag.trans (Sched.switchContext_quiet hbase.sound.settled)
    refine ⟨fun p hp => h.frames p fun hover => hp ((hq.exited p).mpr hover), h.waiters,
      fun p => ?_⟩
    exact (hq.waitPid p).trans (h.waitPid p)
  case blocks => exact ⟨h.frames, h.waiters, h.waitPid⟩
  case create pid b _ _ _ hb =>
    have hprocess : ∀ p, (((S.sched.setProcess pid b).schedule pid).processes p) =
        (S.sched.setProcess pid b).processes p := fun p => by rw [Sched.schedule_processes]
    refine ⟨fun p hp => ?_, h.waiters, fun p => ?_⟩
    · change Function.update S.frames pid .user p = .user
      by_cases heq : p = pid
      · rw [heq, Function.update_self]
      · rw [Function.update_of_ne heq]
        change (((S.sched.setProcess pid b).schedule pid).processes p).state ≠ EXITED at hp
        rw [hprocess, Sched.setProcess_of_ne heq] at hp
        exact h.frames p hp
    · change (((S.sched.setProcess pid b).schedule pid).processes p).waitPid = nonPid
      rw [hprocess]
      by_cases heq : p = pid
      · rw [heq, Sched.setProcess_self]
        exact hb.waitPid
      · rw [Sched.setProcess_of_ne heq]
        exact h.waitPid p
  case semCreate name value waiting semId T _ _ hw hT =>
    refine ⟨h.frames, fun other => ?_, h.waitPid⟩
    change (T.sems other).waiting.list = []
    unfold SemTable.semCreate at hT
    split at hT
    · cases (Prod.mk.inj hT).1
    · split at hT
      · cases (Prod.mk.inj hT).1
      · obtain ⟨-, rfl⟩ := Prod.mk.inj hT
        rename_i found _
        by_cases heq : other = found
        · rw [heq, SemTable.setSem_sems_self]
          unfold Sem.fill
          rw [(SemTable.setOpened_eq _ _ _).2.2]
          rcases hw with rfl | rfl <;> rfl
        · rw [SemTable.setSem_sems_of_ne heq]
          exact h.waiters other
  case files => exact ⟨h.frames, h.waiters, h.waitPid⟩

theorem AllAwake.path (hbase : S.Base) (h : S.AllAwake) (hpath : Path starting S S') :
    S'.AllAwake :=
  (hpath.invariant (I := fun S => S.Base ∧ S.AllAwake) ⟨hbase, h⟩
    fun _ _ _ h ha hd => ⟨h.1.does hd, h.2.does h.1 ha hd⟩).2

theorem allAwake_boot (nodes blocks : ℕ → Bool) : (boot nodes blocks).AllAwake :=
  AllAwake.path base_off ⟨fun _ _ => rfl, fun semId => by
    rcases bootSems_waiting semId with ⟨-, hw⟩ | ⟨-, hw⟩
    · change (bootSems.sems semId).waiting.list = []
      rw [hw]
      rfl
    · change (bootSems.sems semId).waiting.list = []
      rw [hw]
      rfl, fun _ => rfl⟩ boot_path

theorem AllAwake.createProcess (hbase : S.Base) (h : S.AllAwake) {params : CreationParameters}
    (hcall : S.Step (.call (.createProcess (some params))) S') : S'.AllAwake := by
  obtain ⟨pid, hc, hf, hcall⟩ := step_call hcall
  rw [← Option.some.inj hcall]
  refine h.path hbase ((createProcess_path _ fun c hc' => ?_).mono fun a ha => ?_)
  · obtain rfl : pid = c := Option.some.inj (hc.symm.trans hc')
    rw [hbase.running hc fun stage => by rw [hf]; simp]
    decide
  · rcases ha with ⟨outcomes, rfl⟩ | ⟨pid, rfl⟩
    · trivial
    · trivial

/-- A semaphore that is not there yet. -/
theorem AllAwake.semOpen (hbase : S.Base) (h : S.AllAwake) {name : CString} {value : Int32}
    (hnew : (S.sems.findSemByName name).isNone)
    (hcall : S.Step (.call (.semOpen name value)) S') : S'.AllAwake := by
  obtain ⟨pid, hc, hf, hcall⟩ := step_call hcall
  rw [← Option.some.inj hcall]
  unfold sysSemOpen
  rw [if_pos hnew]
  refine h.path hbase ((semCreate_path name value hc hf).1.mono fun a ha => ?_)
  cases a <;> simp_all [making, starting]

/-- As urgent as the shell. -/
def urgentParams : CreationParameters := { workerParams with priority := maxPriority }

/-- The shell creates two workers, and opens a semaphore with value 0. -/
def twoWorkers : List Event :=
  [.call (.createProcess (some urgentParams)), .call (.createProcess (some urgentParams)),
    .call (.semOpen nameA 0)]

/-- Both workers wait, and the shell has the CPU again. -/
def bothWait : List Event := [.call .yield, .call (.semWait 3), .call (.semWait 3)]

theorem twoWorkers_awake : ∃ S₀, exec step booted twoWorkers = some S₀ ∧ S₀.AllAwake := by
  obtain ⟨S₀, hS₀⟩ := Option.isSome_iff_exists.mp (by decide +kernel :
    (exec step booted twoWorkers).isSome)
  have hnew : (exec step booted (twoWorkers.take 2)).map
      (fun S => (S.sems.findSemByName nameA).isNone) = some true := by
    decide +kernel
  refine ⟨S₀, hS₀, ?_⟩
  obtain ⟨S₁, h₁, hrest⟩ := Option.bind_eq_some_iff.mp hS₀
  obtain ⟨S₂, h₂, hrest⟩ := Option.bind_eq_some_iff.mp hrest
  obtain ⟨S₃, h₃, hrest⟩ := Option.bind_eq_some_iff.mp hrest
  have hexec : exec step booted (twoWorkers.take 2) = some S₂ := by
    simp only [twoWorkers, List.take_succ_cons, List.take_zero, exec, h₁, h₂, Option.bind_some]
  rw [hexec] at hnew
  have hawake₁ := (allAwake_boot _ _).createProcess base_boot h₁
  have hbase₁ := base_boot.step h₁
  have hawake₂ := hawake₁.createProcess hbase₁ h₂
  have hawake₃ := hawake₂.semOpen (hbase₁.step h₂) (Option.some.inj hnew) h₃
  rwa [← Option.some.inj hrest]

/-- A post wakes both, and one of them will sleep again. -/
theorem noLostWakeUp_post : ∃ S, exec step booted (twoWorkers ++ bothWait ++
    [.call (.semPost 3)]) = some S ∧ S.value 3 = 1 ∧ S.NoLostWakeUp := by
  obtain ⟨S₀, hS₀, hawake⟩ := twoWorkers_awake
  obtain ⟨S, hS⟩ := Option.isSome_iff_exists.mp (by decide +kernel :
    (exec step booted (twoWorkers ++ bothWait ++ [.call (.semPost 3)])).isSome)
  have hvalue : (exec step booted (twoWorkers ++ bothWait ++ [.call (.semPost 3)])).map
      (fun S => S.value 3) = some 1 := by
    decide +kernel
  rw [hS] at hvalue
  refine ⟨S, hS, Option.some.inj hvalue, ?_⟩
  rw [List.append_assoc, exec_append, hS₀] at hS
  refine noLostWakeUp (fun _ => true) (fun _ => true) S₀ S
    (exec_always hS₀ fun _ _ _ => trivial) hawake (exec_always hS fun e he T => ?_)
  simp only [bothWait, List.cons_append, List.nil_append, List.mem_cons, List.not_mem_nil,
    or_false] at he
  rcases he with rfl | rfl | rfl | rfl <;> exact ⟨trivial, trivial⟩

/-- **A wake-up that is lost**: the value grows by one and one worker is woken; it is killed before
it looks, and the other sleeps on a value of 1. -/
theorem lost_wakeUp : ¬∀ nodes blocks S₀ S, Reaches Step always (boot nodes blocks) S₀ →
    S₀.AllAwake → Reaches Step (fun _ e => ofWaiters e) S₀ S → S.NoLostWakeUp := by
  intro hall
  obtain ⟨S₀, hS₀, hawake⟩ := twoWorkers_awake
  obtain ⟨S, hS⟩ := Option.isSome_iff_exists.mp (by decide +kernel : (exec step booted
    (twoWorkers ++ (bothWait ++ [.call (.semSetValue 3 1), .call (.kill 3)]))).isSome)
  have hend : (exec step booted
      (twoWorkers ++ (bothWait ++ [.call (.semSetValue 3 1), .call (.kill 3)]))).map
        (fun S => (S.value 3, S.waiters 3, decide (S.Live 4), (S.woken 3).card)) =
          some (1, [4], true, 0) := by
    decide +kernel
  rw [hS, Option.map_some, Option.some.injEq, Prod.mk.injEq, Prod.mk.injEq, Prod.mk.injEq,
    Finset.card_eq_zero] at hend
  obtain ⟨hvalue, hlisted, hlive, hnone⟩ := hend
  rw [exec_append, hS₀] at hS
  have hrun : Reaches Step (fun _ e => ofWaiters e) S₀ S := exec_always hS fun e he T => by
    simp only [bothWait, List.cons_append, List.nil_append, List.mem_cons, List.not_mem_nil,
      or_false] at he
    rcases he with rfl | rfl | rfl | rfl | rfl <;> trivial
  obtain ⟨p, hp⟩ := hall _ _ S₀ S (exec_always hS₀ fun _ _ _ => trivial) hawake hrun 3
    (by rw [hvalue]; decide) ⟨4, by rw [hlisted]; exact List.mem_singleton_self 4,
      of_decide_eq_true hlive⟩
  rw [hnone] at hp
  exact absurd hp (Finset.notMem_empty p)

end Machine

end BareKernel.Kernel
