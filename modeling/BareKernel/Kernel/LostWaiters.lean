import BareKernel.Kernel.StepTrace

/-!
# Who waits for a process

A process has room for one waiter, in `waitPid`. Each caller of `waitProcess`
writes itself there, and the process that ends wakes whoever is there last. It
wakes nobody if it loses the CPU before: it is in no queue any more. As long as
neither happens, and nobody is blocked again inside a call that nobody will
end, every process that is blocked inside `waitProcess` is the one that its
target is going to wake.
-/

namespace BareKernel.Kernel

open ProcessState Runs

/-- The process for which a call of `waitProcess` waits. -/
def Frame.awaits : Frame → Option ℤ
  | .waitBlock target _ | .waitForced target _ => some target
  | _ => none

namespace Machine

variable {S S' : Machine} {a : Act} {e : Event} {c p q w pid : ℤ} {E E' : ℤ → Prop}

/-- The process is blocked inside a call of `waitProcess(target)`. -/
def Waits (S : Machine) (w target : ℤ) : Prop :=
  (S.sched.processes w).state = BLOCKED ∧ (S.frames w).awaits = some target

/-- The process has terminated, and runs no code of its end any more. -/
def Gone (S : Machine) (p : ℤ) : Prop :=
  (S.sched.processes p).state = EXITED ∧ S.sched.currentProcess ≠ some p

/-- Nobody is blocked inside `waitProcess(p)` once `p` has terminated. -/
def NoWaiterLost (S : Machine) : Prop := ∀ w p, S.Waits w p → ¬S.Gone p

/-! ## The rules -/

/-- Nobody else waits for the target yet, the target of a process that is
blocked by another one still has it as its waiter, and a process that ends wakes
its waiter before it loses the CPU. -/
def keepsWaiters (S : Machine) : Event → Prop
  | .call (.wait target _) => ∀ w, ¬S.Waits w target
  | .call (.block pid) => ∀ target, (S.frames pid).awaits = some target →
      (S.sched.processes target).state ≠ EXITED ∧ (S.sched.processes target).waitPid = pid
  | .tick => ∀ c stage, S.sched.currentProcess = some c → S.frames c = .exiting stage →
      stage ≠ .leave → ∀ w, ¬S.Waits w c
  | _ => True

/-! ## The invariant -/

/-- Whoever waits is the waiter of its target, and the target is alive or one of
those that are about to wake their waiter. -/
structure Heard (S : Machine) (E : ℤ → Prop) : Prop where
  range : ∀ w p, S.Waits w p → 0 < w ∧ w ≤ maxPid
  named : ∀ w p, S.Waits w p → (S.sched.processes p).waitPid = w
  live : ∀ w p, S.Waits w p → (S.sched.processes p).state ≠ EXITED ∨ E p

/-- The process that has the CPU, until it has woken its waiter. -/
def Ending (S : Machine) (p : ℤ) : Prop :=
  S.sched.currentProcess = some p ∧ S.frames p ≠ .exiting .leave

def noEnding : ℤ → Prop := fun _ => False

theorem Heard.noWaiterLost (h : S.Heard S.Ending) : S.NoWaiterLost := by
  rintro w p hw ⟨hover, hc⟩
  rcases h.live w p hw with halive | hending
  · exact halive hover
  · exact hc hending.1

theorem Heard.mono (h : S.Heard E) (himp : ∀ w p, S.Waits w p → E p → E' p) : S.Heard E' :=
  ⟨h.range, h.named, fun w p hw => (h.live w p hw).imp_right (himp w p hw)⟩

theorem Heard.of_none (h : S.Heard noEnding) : S.Heard E := h.mono fun _ _ _ => False.elim

/-- Nobody begins to wait, and the targets are alive and have their waiters as before. -/
theorem Heard.fewer (h : S.Heard E) (hkeep : ∀ w p, S'.Waits w p → S.Waits w p ∧
    ((S.sched.processes p).state ≠ EXITED ∨ E p →
      (S'.sched.processes p).waitPid = (S.sched.processes p).waitPid ∧
        ((S'.sched.processes p).state ≠ EXITED ∨ E' p))) : S'.Heard E' := by
  have htarget : ∀ w p, S'.Waits w p →
      (S'.sched.processes p).waitPid = (S.sched.processes p).waitPid ∧
        ((S'.sched.processes p).state ≠ EXITED ∨ E' p) := by
    intro w p hw
    obtain ⟨hbefore, hstill⟩ := hkeep w p hw
    exact hstill (h.live w p hbefore)
  constructor
  · intro w p hw
    exact h.range w p (hkeep w p hw).1
  · intro w p hw
    exact (htarget w p hw).1.trans (h.named w p (hkeep w p hw).1)
  · intro w p hw
    exact (htarget w p hw).2

/-- A process without a waiter is one for which nobody waits. -/
theorem Heard.unawaited (h : S.Heard E) (hnone : (S.sched.processes p).waitPid = nonPid) (w : ℤ) :
    ¬S.Waits w p := by
  intro hw
  have hwaiter := h.named w p hw
  have hpos := (h.range w p hw).1
  rw [hnone] at hwaiter
  unfold nonPid at hwaiter
  omega

/-! ## What the actions do -/

theorem Heard.quiet (h : S.Heard E) (hq : S.sched.Quiet S'.sched) (hframes : S'.frames = S.frames) :
    S'.Heard E := by
  apply h.fewer
  rintro w p ⟨hblocked, hframe⟩
  rw [hframes] at hframe
  refine ⟨⟨(hq.blocked w).mp hblocked, hframe⟩, fun hp => ⟨hq.waitPid p, ?_⟩⟩
  exact hp.imp_left (not_congr (hq.exited p)).mpr

theorem Heard.congr (h : S.Heard E) (hprocesses : S'.sched.processes = S.sched.processes)
    (hframes : S'.frames = S.frames) : S'.Heard E :=
  h.quiet (Sched.Quiet.of_processes hprocesses) hframes

theorem Heard.unblock (h : S.Heard E) (hframes : S'.frames = S.frames)
    (hsched : S'.sched = (S.sched.unblockProcess pid).2) : S'.Heard E := by
  apply h.fewer
  rintro w p ⟨hblocked, hframe⟩
  rw [hframes] at hframe
  rw [hsched] at hblocked ⊢
  refine ⟨⟨Sched.unblockProcess_blocked hblocked, hframe⟩, fun hp => ?_⟩
  exact ⟨Sched.unblockProcess_waitPid, hp.imp_left (not_congr Sched.unblockProcess_exited).mpr⟩

/-- The frame of a process that is not blocked changes. -/
theorem Heard.setFrame (h : S.Heard E) {f : Frame}
    (hstate : (S.sched.processes pid).state ≠ BLOCKED) : (S.setFrame pid f).Heard E := by
  apply h.fewer
  rintro w p ⟨hblocked, hframe⟩
  refine ⟨⟨hblocked, ?_⟩, fun hp => ⟨rfl, hp⟩⟩
  have hne : w ≠ pid := by
    rintro rfl
    exact hstate hblocked
  rwa [setFrame_frames, Function.update_of_ne hne] at hframe

/-- The process that has the CPU falls asleep, but not inside `waitProcess`. -/
theorem Heard.fallAsleep (h : S.Heard E) {semId : ℕ} {k : AfterWait} (hbase : S.Base)
    (hc : S.sched.currentProcess = some pid) (hf : (S.frames pid).working) :
    (S.fallAsleep pid semId k).Heard E := by
  have hsched : (S.enlist pid semId).sched.processes = S.sched.processes ∧
      (S.enlist pid semId).sched.currentProcess = S.sched.currentProcess := by
    rcases enlist_sched S pid semId with heq | heq <;> rw [heq] <;> exact ⟨rfl, rfl⟩
  have hquiet := Sched.blockProcess_quiet (hsched.2.trans hc) (enlist_valid hbase hc hf semId)
  have halive := hbase.running hc (Frame.working_ne_exiting hf)
  apply h.fewer
  rintro w p ⟨hblocked, hframe⟩
  have hne : w ≠ pid := by
    rintro rfl
    unfold Machine.fallAsleep at hframe
    rw [onSched_frames, setFrame_frames, Function.update_self] at hframe
    exact absurd hframe (by simp [Frame.awaits])
  have hother : ∀ r, (((S.enlist pid semId).sched.setState pid BLOCKED).processes r).waitPid =
      (S.sched.processes r).waitPid := by
    intro r
    by_cases hr : r = pid
    · subst hr
      rw [Sched.setState, Sched.setProcess_self, hsched.1]
    · rw [Sched.setState, Sched.setProcess_of_ne hr, hsched.1]
  refine ⟨⟨?_, ?_⟩, fun hp => ⟨(hquiet.waitPid p).trans (hother p), ?_⟩⟩
  · have hset := (hquiet.blocked w).mp hblocked
    rwa [Sched.setState, Sched.setProcess_of_ne hne, hsched.1] at hset
  · unfold Machine.fallAsleep at hframe
    rwa [onSched_frames, setFrame_frames, Function.update_of_ne hne, enlist_frames] at hframe
  · refine hp.imp_left fun hlive hover => ?_
    have hset := (hquiet.exited p).mp hover
    by_cases hp' : p = pid
    · subst hp'
      rw [Sched.setState, Sched.setProcess_self] at hset
      exact absurd hset (by simp)
    · rw [Sched.setState, Sched.setProcess_of_ne hp', hsched.1] at hset
      exact hlive hset

/-- A process is created in a slot for which nobody waits. -/
theorem Heard.create (h : S.Heard E) {b : Process}
    (hexited : (S.sched.processes pid).state = EXITED) (hnone : ¬E pid)
    (hb : Fresh (S.sched.processes pid) b) :
    (((S.onSched fun s => (s.setProcess pid b).schedule pid).setFrame pid .user).note
      (.created pid)).Heard E := by
  apply h.fewer
  rintro w p ⟨hblocked, hframe⟩
  change (((S.sched.setProcess pid b).schedule pid).processes w).state = BLOCKED at hblocked
  change (Function.update S.frames pid .user w).awaits = some p at hframe
  change _ ∧ (_ → (((S.sched.setProcess pid b).schedule pid).processes p).waitPid = _ ∧
    ((((S.sched.setProcess pid b).schedule pid).processes p).state ≠ EXITED ∨ E p))
  rw [Sched.schedule_processes] at hblocked ⊢
  have hne : w ≠ pid := by
    rintro rfl
    rw [Function.update_self] at hframe
    exact absurd hframe (by simp [Frame.awaits])
  rw [Sched.setProcess_of_ne hne] at hblocked
  rw [Function.update_of_ne hne] at hframe
  refine ⟨⟨hblocked, hframe⟩, fun hp => ?_⟩
  have hp' : p ≠ pid := by
    rintro rfl
    rcases hp with halive | hE
    · exact halive hexited
    · exact hnone hE
  rw [Sched.setProcess_of_ne hp']
  exact ⟨rfl, hp⟩

/-- A block changes, but neither in its state nor in its waiter. -/
theorem Heard.setProcess (h : S.Heard E) {b : Process}
    (hsched : S'.sched.processes = (S.sched.setProcess pid b).processes)
    (hstate : b.state = (S.sched.processes pid).state)
    (hwait : b.waitPid = (S.sched.processes pid).waitPid) (hframes : S'.frames = S.frames) :
    S'.Heard E := by
  apply h.fewer
  rintro w p ⟨hblocked, hframe⟩
  have hall : ∀ r, (S'.sched.processes r).state = (S.sched.processes r).state ∧
      (S'.sched.processes r).waitPid = (S.sched.processes r).waitPid := by
    intro r
    rw [hsched]
    by_cases hr : r = pid
    · subst hr
      rw [Sched.setProcess_self]
      exact ⟨hstate, hwait⟩
    · rw [Sched.setProcess_of_ne hr]
      exact ⟨rfl, rfl⟩
  rw [(hall w).1] at hblocked
  rw [hframes] at hframe
  refine ⟨⟨hblocked, hframe⟩, fun hp => ⟨(hall p).2, ?_⟩⟩
  rw [(hall p).1]
  exact hp

/-- The actions that neither end a process nor block one that may wait. -/
def Act.plain : Act → Prop
  | .kill _ | .killWake _ | .block _ | .waitBlock _ _ _ => False
  | _ => True

/-- The events apart from these take steps of plain actions only. -/
theorem Allowed.plain (ha : Allowed S e a) (hexit : ∀ r, e ≠ .exit r)
    (hkill : ∀ target, e ≠ .call (.kill target)) (hblock : ∀ target, e ≠ .call (.block target))
    (hwait : ∀ target wstatus, e ≠ .call (.wait target wstatus))
    (hcurrent : ∀ pid stage, S.sched.currentProcess = some pid → S.frames pid ≠ .exiting stage) :
    Act.plain a := by
  cases a with
  | kill p =>
      rcases ha with hcall | ⟨⟨r, hr⟩, _⟩
      · exact absurd hcall (hkill p)
      · exact absurd hr (hexit r)
  | killWake p =>
      rcases ha with hcall | ⟨_, hc, hf⟩
      · exact absurd hcall (hkill p)
      · exact absurd hf (hcurrent p .wake hc)
  | block p => exact absurd ha.1 (hblock p)
  | waitBlock p target wstatus => exact absurd ha.1 (hwait target wstatus)
  | _ => trivial

/-- **All other actions** leave the waiters as they are, or wake some. -/
theorem heard_does (hbase : S.Base) (h : S.Heard E) (ha : Act.plain a)
    (hnew : ∀ pid, a = .create pid → ¬E pid) (hd : S.Does a S') : S'.Heard E := by
  cases hd with
  | @switch isYield =>
      have hquiet := Sched.switchContext_quiet (s := { S.sched with isYield := isYield })
        hbase.sound.settled
      exact h.quiet ⟨hquiet.blocked, hquiet.exited, hquiet.waitPid, hquiet.waitReturnValue⟩ rfl
  | unblock => exact h.unblock rfl rfl
  | create hpid hexited hc hb => exact h.create hexited (hnew _ rfl) hb
  | returned => exact h.setProcess rfl rfl rfl rfl
  | priority => exact h.setProcess rfl rfl rfl rfl
  | waitRead hc hf => exact (h.setFrame (hbase.current_ne_blocked hc)).congr rfl rfl
  | frame hc hf => exact h.setFrame (hbase.current_ne_blocked hc)
  | sleep hc hf => exact h.fallAsleep hbase hc hf
  | wake hc hq => exact h.unblock rfl rfl
  | kill => exact ha.elim
  | killWake => exact ha.elim
  | block => exact ha.elim
  | waitBlock => exact ha.elim
  | _ => exact h.congr rfl rfl

/-- A process is blocked by another one, and its target still has it as its waiter. -/
theorem Heard.block (h : S.Heard noEnding) (hc : S.sched.currentProcess = some c)
    (hvalid : S.sched.isValidPID pid)
    (hok : ∀ target, (S.frames pid).awaits = some target →
      (S.sched.processes target).state ≠ EXITED ∧ (S.sched.processes target).waitPid = pid) :
    (S.onSched fun s => (s.blockProcess pid).2).Heard noEnding := by
  have hquiet := Sched.blockProcess_quiet hc hvalid
  obtain ⟨hpos, hle, halive⟩ := Sched.isValidPID_iff.mp hvalid
  have hset : (S.onSched fun s => s.setState pid BLOCKED).Heard noEnding := by
    have hall : ∀ r, ((S.sched.setState pid BLOCKED).processes r).waitPid =
        (S.sched.processes r).waitPid ∧ ((S.sched.processes r).state ≠ EXITED →
          ((S.sched.setState pid BLOCKED).processes r).state ≠ EXITED) := by
      intro r
      by_cases hr : r = pid
      · subst hr
        rw [Sched.setState, Sched.setProcess_self]
        exact ⟨rfl, fun _ => by simp⟩
      · rw [Sched.setState, Sched.setProcess_of_ne hr]
        exact ⟨rfl, id⟩
    -- whoever waits now waited before, or is the process that is blocked
    have hcases : ∀ w p, (S.onSched fun s => s.setState pid BLOCKED).Waits w p →
        S.Waits w p ∨ w = pid ∧ (S.frames pid).awaits = some p := by
      rintro w p ⟨hblocked, hframe⟩
      by_cases hw : w = pid
      · subst hw
        exact .inr ⟨rfl, hframe⟩
      · rw [onSched_sched, Sched.setState, Sched.setProcess_of_ne hw] at hblocked
        exact .inl ⟨hblocked, hframe⟩
    constructor
    · intro w p hw
      rcases hcases w p hw with hbefore | ⟨rfl, _⟩
      · exact h.range w p hbefore
      · exact ⟨hpos, hle⟩
    · intro w p hw
      rcases hcases w p hw with hbefore | ⟨rfl, hframe⟩
      · exact (hall p).1.trans (h.named w p hbefore)
      · exact (hall p).1.trans (hok p hframe).2
    · intro w p hw
      rcases hcases w p hw with hbefore | ⟨rfl, hframe⟩
      · exact (h.live w p hbefore).imp_left (hall p).2
      · exact .inl ((hall p).2 (hok p hframe).1)
  exact hset.quiet hquiet rfl

/-- The caller of `waitProcess` becomes the waiter of its target. -/
theorem Heard.waitFor (h : S.Heard noEnding) (hbase : S.Base) {wstatus : Bool}
    (hc : S.sched.currentProcess = some pid) (hf : S.frames pid = .user)
    (halive : (S.sched.processes q).state ≠ EXITED) (hok : ∀ w, ¬S.Waits w q) :
    (S.waitFor pid q wstatus).Heard noEnding := by
  have hquiet := Sched.blockProcess_quiet (s := S.sched.setProcess q
    { S.sched.processes q with waitPid := pid }) hc (waitFor_valid hbase hc hf q)
  have hother : ∀ r, r ≠ q → (((S.sched.setProcess q
      { S.sched.processes q with waitPid := pid }).setState pid BLOCKED).processes r).waitPid =
        (S.sched.processes r).waitPid := by
    intro r hr
    by_cases hr' : r = pid
    · subst hr'
      rw [Sched.setState, Sched.setProcess_self, Sched.setProcess_of_ne hr]
    · rw [Sched.setState, Sched.setProcess_of_ne hr', Sched.setProcess_of_ne hr]
  have hself : (((S.sched.setProcess q
      { S.sched.processes q with waitPid := pid }).setState pid BLOCKED).processes q).waitPid =
        pid := by
    by_cases hq : q = pid
    · subst hq
      rw [Sched.setState, Sched.setProcess_self, Sched.setProcess_self]
    · rw [Sched.setState, Sched.setProcess_of_ne hq, Sched.setProcess_self]
  have hlive : ∀ r, (S.sched.processes r).state ≠ EXITED →
      ((S.waitFor pid q wstatus).sched.processes r).state ≠ EXITED := by
    intro r hr hover
    have hset := (blockProcess_exited (s := S.sched.setProcess q
      { S.sched.processes q with waitPid := pid }) hc (waitFor_valid hbase hc hf q)).mp hover
    refine hr ((setProcess_exited ?_).mp hset)
    exact Iff.rfl
  have hcases : ∀ w p, (S.waitFor pid q wstatus).Waits w p →
      S.Waits w p ∧ p ≠ q ∨ w = pid ∧ p = q := by
    rintro w p ⟨hblocked, hframe⟩
    change (Function.update S.frames pid (.waitBlock q wstatus) w).awaits = some p at hframe
    by_cases hw : w = pid
    · subst hw
      rw [Function.update_self] at hframe
      exact .inr ⟨rfl, (Option.some.inj hframe).symm⟩
    · rw [Function.update_of_ne hw] at hframe
      have hset := (hquiet.blocked w).mp hblocked
      rw [Sched.setState, Sched.setProcess_of_ne hw] at hset
      have hbefore : S.Waits w p := by
        refine ⟨?_, hframe⟩
        by_cases hq : w = q
        · subst hq
          rwa [Sched.setProcess_self] at hset
        · rwa [Sched.setProcess_of_ne hq] at hset
      refine .inl ⟨hbefore, ?_⟩
      rintro rfl
      exact hok w hbefore
  constructor
  · intro w p hw
    rcases hcases w p hw with ⟨hbefore, _⟩ | ⟨rfl, _⟩
    · exact h.range w p hbefore
    · exact hbase.sound.current w hc
  · intro w p hw
    refine (hquiet.waitPid p).trans ?_
    rcases hcases w p hw with ⟨hbefore, hp⟩ | ⟨rfl, rfl⟩
    · exact (hother p hp).trans (h.named w p hbefore)
    · exact hself
  · intro w p hw
    rcases hcases w p hw with ⟨hbefore, _⟩ | ⟨rfl, rfl⟩
    · exact .inl (hlive p ((h.live w p hbefore).resolve_right id))
    · exact .inl (hlive p halive)

/-! ## How a process ends -/

/-- The first part of `kill`: only the waiter of this process is still to be woken. -/
theorem Heard.killStart (h : S.Heard noEnding) (stage : ExitStage) :
    (S.killStart pid stage).Heard (· = pid) := by
  apply h.fewer
  rintro w p ⟨hblocked, hframe⟩
  have hne : w ≠ pid := by
    rintro rfl
    rw [killStart_state] at hblocked
    exact absurd hblocked (by decide)
  have hother : ∀ r, r ≠ pid →
      (S.killStart pid stage).sched.processes r = S.sched.processes r := by
    intro r hr
    change ((S.sched.unscheduleProcess pid).setProcess pid _).processes r = _
    rw [Sched.setProcess_of_ne hr, Sched.unscheduleProcess_processes]
  rw [hother w hne] at hblocked
  change (Function.update S.frames pid (.exiting stage) w).awaits = some p at hframe
  rw [Function.update_of_ne hne] at hframe
  refine ⟨⟨hblocked, hframe⟩, fun hp => ?_⟩
  by_cases hp' : p = pid
  · refine ⟨?_, .inr hp'⟩
    subst hp'
    change (((S.sched.unscheduleProcess p).setProcess p _).processes p).waitPid = _
    rw [Sched.setProcess_self]
    rfl
  · rw [hother p hp']
    exact ⟨rfl, hp.imp_right False.elim⟩

/-- The last part of `kill`: its waiter is woken. -/
theorem Heard.killWake (h : S.Heard (· = pid)) : (S.killWake pid).Heard noEnding := by
  unfold Machine.killWake
  dsimp only
  split
  · rename_i hnone
    refine h.mono fun w p hw hp => ?_
    rw [hp] at hw
    exact h.unawaited hnone w hw
  · have hwoken : (S.onSched fun s =>
        (s.unblockProcess (S.sched.processes pid).waitPid).2).Heard (· = pid) := h.unblock rfl rfl
    apply Heard.fewer hwoken
    rintro w p ⟨hblocked, hframe⟩
    rw [onSched_sched] at hblocked
    have hstate : ((S.sched.unblockProcess (S.sched.processes pid).waitPid).2.processes w).state =
        BLOCKED := by
      by_cases hw : w = pid
      · subst hw
        rwa [Sched.setProcess_self] at hblocked
      · rwa [Sched.setProcess_of_ne hw] at hblocked
    have hbefore : S.Waits w p := ⟨Sched.unblockProcess_blocked hstate, hframe⟩
    have hp : p ≠ pid := by
      rintro rfl
      -- this one was woken
      obtain ⟨hpos, hle⟩ := h.range w p hbefore
      rw [h.named w p hbefore] at hstate
      have hvalid : S.sched.isValidPID w :=
        Sched.isValidPID_iff.mpr ⟨hpos, hle, by rw [hbefore.1]; decide⟩
      unfold Sched.unblockProcess at hstate
      rw [Sched.getProcess_of_valid hvalid] at hstate
      dsimp only at hstate
      rw [if_neg (not_not.mpr hbefore.1), Sched.schedule_processes, Sched.setState_state] at hstate
      exact absurd hstate (by decide)
    refine ⟨⟨hstate, hframe⟩, fun hlive => ?_⟩
    rw [onSched_sched, Sched.setProcess_of_ne hp]
    exact ⟨rfl, .inl (hlive.resolve_right hp)⟩

/-! ## Every step -/

/-- While a live process has the CPU nobody is about to wake a waiter. -/
theorem Heard.settle (h : S.Heard S.Ending)
    (hlive : ∀ c, S.sched.currentProcess = some c → (S.sched.processes c).state ≠ EXITED) :
    S.Heard noEnding :=
  ⟨h.range, h.named, fun w p hw => .inl <| (h.live w p hw).elim id fun hp => hlive p hp.1⟩

theorem Heard.forceSwitchContext (h : S.Heard noEnding) (hbase : S.Base) :
    (S.onSched Sched.forceSwitchContext).Heard noEnding :=
  heard_does (a := .switch _) hbase h trivial (fun _ _ => id) (switch_path S)

/-- A step of plain actions. -/
theorem heard_path {ok : Act → Prop} (hbase : S.Base) (h : S.Heard noEnding)
    (hpath : Path ok S S') (hok : ∀ a, ok a → Act.plain a) : S'.Heard noEnding := by
  refine (hpath.invariant (I := fun M => M.Base ∧ M.Heard noEnding) ⟨hbase, h⟩ ?_).2
  rintro M a M' ⟨hMbase, hM⟩ ha hd
  exact ⟨hMbase.does hd, heard_does hMbase hM (hok a ha) (fun _ _ => id) hd⟩

/-- Closing files leaves everybody who is about to wake a waiter. -/
theorem heard_closing {P D : ℕ → Prop} (hbase : S.Base) (h : S.Heard E)
    (hpath : Path (closing P D) S S') : S'.Heard E ∧ S'.Base := by
  refine hpath.invariant (I := fun M => M.Heard E ∧ M.Base) ⟨h, hbase⟩ ?_
  rintro M a M' ⟨hM, hMbase⟩ ha hd
  refine ⟨heard_does hMbase hM ?_ ?_ hd, hMbase.does hd⟩
  · cases a <;> first | exact ha.elim | trivial
  · rintro pid rfl
    exact ha.elim

theorem heard_kill {r : Int32} (hbase : S.Base) (h : S.Heard noEnding)
    (hc : S.sched.currentProcess = some c) (hkill : S.kill pid = some (r, S')) :
    S'.Heard noEnding := by
  rcases kill_cases hc hkill with ⟨rfl, _⟩ | ⟨hrange, halive, S₁, hclose, rfl⟩
  · exact h
  · have hstart : (S.killStart pid .leave).Base := hbase.does (.kill hc hrange halive)
    obtain ⟨hclosed, hbase₁⟩ := heard_closing hstart (h.killStart .leave) hclose
    have hwoken : (S₁.killWake pid).Heard noEnding := hclosed.killWake
    split
    · have hc₁ : S₁.sched.currentProcess = some c := hclose.calm.1.trans hc
      have hover : (S₁.sched.processes pid).state = EXITED :=
        (closing_exited hclose pid).mpr (killStart_state S pid _)
      have hbase₂ : (S₁.killWake pid).Base := hbase₁.does (.killWake hc₁ hover)
      exact hwoken.forceSwitchContext hbase₂
    · exact hwoken

/-- The next part of the end of a process behind its `entry`. -/
theorem heard_exitRound {stage : ExitStage} (hbase : S.Base) (h : S.Heard S.Ending)
    (hc : S.sched.currentProcess = some pid) (hf : S.frames pid = .exiting stage)
    (hround : S.exitRound pid stage = some S') : S'.Heard S'.Ending := by
  have hself : S.Heard (· = pid) := by
    refine h.mono fun w p _ hp => ?_
    exact Option.some.inj (hp.1.symm.trans hc)
  -- the process goes on with the next part, which is not the last one
  have hnext : ∀ {fd : ℤ} {r : Int32} {S₁ : Machine} {stage' : ExitStage}, stage' ≠ .leave →
      S.closeFD fd = some (r, S₁) → (S₁.setFrame pid (.exiting stage')).Heard
        (S₁.setFrame pid (.exiting stage')).Ending := by
    intro fd r S₁ stage' hstage hfd
    have hpath := closeFD_path (P := fun _ => True) (D := fun _ => True)
      (fun _ => trivial) (fun _ => trivial) hc hfd
    obtain ⟨hclosed, hbase₁⟩ := heard_closing hbase hself hpath
    have hc₁ : S₁.sched.currentProcess = some pid := hpath.calm.1.trans hc
    refine (hclosed.setFrame (hbase₁.current_ne_blocked hc₁)).mono ?_
    rintro w p _ rfl
    refine ⟨hc₁, ?_⟩
    rw [setFrame_frames, Function.update_self]
    simpa using hstage
  cases stage with
  | closeIn =>
      simp only [exitRound, Option.bind_eq_bind, Option.bind_eq_some_iff, Option.some.injEq,
        Prod.exists] at hround
      obtain ⟨_, S₁, hfd, rfl⟩ := hround
      exact hnext (by simp) hfd
  | closeOut =>
      simp only [exitRound, Option.bind_eq_bind, Option.bind_eq_some_iff, Option.some.injEq,
        Prod.exists] at hround
      obtain ⟨_, S₁, hfd, rfl⟩ := hround
      exact hnext (by simp) hfd
  | wake =>
      rw [← Option.some.inj hround]
      have hover : (S.sched.processes pid).state = EXITED := hbase.ended pid .wake hf
      have hwake : S.Does (.killWake pid) (S.killWake pid) := .killWake hc hover
      have hc' : (S.killWake pid).sched.currentProcess = some pid :=
        (hwake.quiet_current trivial).trans hc
      exact (hself.killWake.setFrame ((hbase.does hwake).current_ne_blocked hc')).of_none
  | leave =>
      rw [← Option.some.inj hround]
      have hnone : S.Heard noEnding := by
        refine h.mono fun w p _ hp => ?_
        obtain rfl : p = pid := Option.some.inj (hp.1.symm.trans hc)
        exact hp.2 hf
      exact (hnone.forceSwitchContext hbase).of_none

theorem heard_step (hbase : S.Base) (h : S.Heard S.Ending) (hok : S.keepsWaiters e)
    (hstep : S.Step e S') : S'.Heard S'.Ending := by
  by_cases hending : ∃ c stage, S.sched.currentProcess = some c ∧ S.frames c = .exiting stage
  · obtain ⟨c, stage, hc, hf⟩ := hending
    have hframe := hstep
    unfold Step step at hframe
    rw [hc] at hframe
    dsimp only at hframe
    rw [hf] at hframe
    cases e with
    | tick =>
        change some (S.onSched Sched.forceSwitchContext) = some S' at hframe
        rw [← Option.some.inj hframe]
        have hnone : S.Heard noEnding := by
          refine h.mono fun w p hw hp => ?_
          obtain rfl : p = c := Option.some.inj (hp.1.symm.trans hc)
          refine hok p stage hc hf ?_ w hw
          rintro rfl
          exact hp.2 hf
        exact (hnone.forceSwitchContext hbase).of_none
    | resume => exact heard_exitRound hbase h hc hf hframe
    | call call => exact absurd hframe (by simp)
    | exit r => exact absurd hframe (by simp)
  · have hframes : ∀ c stage, S.sched.currentProcess = some c → S.frames c ≠ .exiting stage :=
      fun c stage hc hf => hending ⟨c, stage, hc, hf⟩
    have hlive : ∀ c, S.sched.currentProcess = some c → (S.sched.processes c).state ≠ EXITED := by
      intro c hc
      rw [hbase.running hc fun stage => hframes c stage hc]
      decide
    have hnone := h.settle hlive
    cases e with
    | call call =>
        obtain ⟨c, hc, hf, hcall⟩ := step_call hstep
        cases call with
        | kill target =>
            simp only [sysCall, Option.map_eq_map, Option.map_eq_some_iff, Prod.exists] at hcall
            obtain ⟨r, _, hkill, rfl⟩ := hcall
            exact (heard_kill hbase hnone hc hkill).of_none
        | block target =>
            rw [← Option.some.inj hcall]
            unfold sysBlock
            split
            · exact h
            · rename_i hvalid
              rw [not_or, Bool.not_eq_true', Bool.not_eq_false] at hvalid
              exact (hnone.block hc hvalid.2 hok).of_none
        | wait target wstatus =>
            rw [← Option.some.inj hcall]
            unfold waitProcess
            split
            · exact h
            · dsimp only
              split
              · have hsame : Heard ((S.note (.waitCalled c target)).note
                    (.waitReturned c target (if wstatus then some 0 else none))) noEnding :=
                  hnone.congr rfl rfl
                exact hsame.of_none
              · rename_i halive
                have hnamed : (S.waitFor c target wstatus).Heard noEnding :=
                  hnone.waitFor hbase hc hf halive hok
                exact hnamed.of_none
        | _ =>
            apply Heard.of_none
            refine heard_path hbase hnone (step_path hbase hstep) fun a ha => ?_
            exact ha.plain (by simp) (by simp) (by simp) (by simp) hframes
    | exit r =>
        have hframe := hstep
        unfold Step step at hframe
        cases hc : S.sched.currentProcess with
        | none => simp [hc] at hframe
        | some c =>
            simp only [hc] at hframe
            split at hframe
            · unfold exitProcess at hframe
              split at hframe
              · simp at hframe
              · rw [← Option.some.inj hframe]
                have hkept : ((S.onSched fun s => s.setProcess c
                    { s.processes c with waitReturnValue := r }).note (.returned c r)).Heard
                      noEnding := hnone.setProcess rfl rfl rfl rfl
                refine (hkept.killStart .closeIn).mono ?_
                rintro w p _ rfl
                refine ⟨hc, ?_⟩
                simp [Machine.killStart]
            · simp at hframe
    | _ =>
        apply Heard.of_none
        refine heard_path hbase hnone (step_path hbase hstep) fun a ha => ?_
        exact ha.plain (by simp) (by simp) (by simp) (by simp) hframes

/-! ## Every run -/

theorem heard_boot (nodes blocks : ℕ → Bool) : (boot nodes blocks).Heard noEnding := by
  have hoff : (off nodes blocks).Heard noEnding := by
    have hnone : ∀ w p, ¬(off nodes blocks).Waits w p := fun w p hw => absurd hw.1 (by
      simp [off, emptyProcess])
    exact ⟨fun w p hw => absurd hw (hnone w p), fun w p hw => absurd hw (hnone w p),
      fun w p hw => absurd hw (hnone w p)⟩
  refine heard_path base_off hoff boot_path fun a ha => ?_
  cases a <;> first | exact absurd ha id | trivial

/-- **No waiter is lost** in a run that keeps to the rules. -/
theorem no_waiter_lost (nodes blocks : ℕ → Bool) (S : Machine)
    (h : Reaches Step keepsWaiters (boot nodes blocks) S) : S.NoWaiterLost := by
  have hrun := h.invariant (I := fun S => S.Base ∧ S.Heard S.Ending)
    ⟨base_boot, (heard_boot nodes blocks).of_none⟩ fun S e S' hS hok hstep =>
      ⟨hS.1.step hstep, heard_step hS.1 hS.2 hok hstep⟩
  exact hrun.2.noWaiterLost

/-- The worker ends while the shell waits for it. -/
def workerReturns : List Event := [.exit 0, .resume, .resume, .resume, .resume]

/-- The shell waits for a worker, and has the CPU again behind its end. -/
theorem no_waiter_lost_shell : ∃ S, exec step booted ([.call (.createProcess (some workerParams)),
    .call (.wait 3 true)] ++ workerReturns) = some S ∧
    S.sched.currentProcess = some shellPid ∧ S.NoWaiterLost := by
  obtain ⟨S₁, hS₁⟩ := Option.isSome_iff_exists.mp (by decide +kernel :
    (booted.step (.call (.createProcess (some workerParams)))).isSome)
  obtain ⟨S₂, hS₂⟩ := Option.isSome_iff_exists.mp (by decide +kernel :
    ((booted.step (.call (.createProcess (some workerParams)))).bind
      fun S => S.step (.call (.wait 3 true))).isSome)
  obtain ⟨S₃, hS₃⟩ := Option.isSome_iff_exists.mp (by decide +kernel :
    (exec step booted ([.call (.createProcess (some workerParams)),
      .call (.wait 3 true)] ++ workerReturns)).isSome)
  have hfree : (booted.step (.call (.createProcess (some workerParams)))).map
      (fun S => (S.sched.processes 3).waitPid) = some nonPid := by
    decide +kernel
  have hafter : (exec step booted ([.call (.createProcess (some workerParams)),
      .call (.wait 3 true)] ++ workerReturns)).map (fun S => S.sched.currentProcess) =
        some (some shellPid) := by
    decide +kernel
  rw [hS₁] at hfree hS₂
  rw [hS₃] at hafter
  simp only [Option.map_some, Option.some.injEq, Option.bind_some] at hfree hS₂ hafter
  have hrest : exec step S₂ workerReturns = some S₃ := by
    have hfirst : exec step booted [.call (.createProcess (some workerParams)),
        .call (.wait 3 true)] = some S₂ := by
      simp [exec, hS₁, hS₂]
    rw [exec_append, hfirst] at hS₃
    exact hS₃
  have hheard := (heard_step (e := .call (.createProcess (some workerParams))) base_boot
    (heard_boot (fun _ => true) fun _ => true).of_none trivial hS₁).unawaited hfree
  have hrun : Reaches Step keepsWaiters booted S₂ :=
    ((Reaches.refl _).tail (e := .call (.createProcess (some workerParams))) trivial hS₁).tail
      (e := .call (.wait 3 true)) hheard hS₂
  have hrun' : Reaches Step keepsWaiters S₂ S₃ := by
    refine exec_always hrest fun e he S => ?_
    simp only [workerReturns, List.mem_cons, List.not_mem_nil, or_false] at he
    rcases he with rfl | rfl | rfl | rfl | rfl <;> trivial
  exact ⟨S₃, hS₃, hafter, no_waiter_lost _ _ S₃ (Relation.ReflTransGen.trans hrun hrun')⟩

/-- Two workers, and both the shell and the second one wait for the first. -/
def twoWaiters : List Event :=
  [.call (.createProcess (some workerParams)), .call (.createProcess (some workerParams)),
    .call (.wait 3 true), .call .yield, .call (.wait 3 true)]

/-- **The first of two waiters is lost**: the second one takes its place in `waitPid`, and
the shell is still blocked when the worker has ended. -/
theorem first_waiter_lost : ¬∀ nodes blocks S,
    Reaches Step always (boot nodes blocks) S → S.NoWaiterLost := by
  intro hall
  obtain ⟨S, hS⟩ := Option.isSome_iff_exists.mp (by decide +kernel :
    (exec step booted (twoWaiters ++ workerReturns)).isSome)
  have hafter : (exec step booted (twoWaiters ++ workerReturns)).map (fun S =>
      ((S.sched.processes 2).state, S.frames 2, (S.sched.processes 3).state,
        S.sched.currentProcess)) = some (BLOCKED, .waitBlock 3 true, EXITED, some 4) := by
    decide +kernel
  rw [hS] at hafter
  simp only [Option.map_some, Option.some.injEq, Prod.mk.injEq] at hafter
  obtain ⟨hstate, hframe, hover, hc⟩ := hafter
  refine hall _ _ S (exec_always hS fun _ _ _ => trivial) 2 3 ⟨hstate, ?_⟩ ⟨hover, ?_⟩
  · rw [hframe]
    rfl
  · rw [hc]
    decide

end Machine

end BareKernel.Kernel
