import BareKernel.Kernel.BoostedTurns
import BareKernel.Kernel.KeyboardInterrupt
import BareKernel.Kernel.Descriptors

/-!
# There is always something to run

`process_idle` never blocks itself, and `sys_block`, `kill` and Ctrl+C leave PID 1 alone. It is then
ready or running for ever, so a context switch finds a process. What a function registered for a key
calls while PID 1 has the CPU is a call of PID 1, and nothing keeps that from falling asleep. A
process that reads the keyboard waits on its semaphore, as `semWait` does.
-/

namespace BareKernel.Kernel

open ProcessState Runs

/-- The process is in user mode, or it reads or writes and does not wait. -/
def Frame.awake : Frame → Prop
  | .user | .reading _ | .writing _ => True
  | _ => False

theorem Frame.awake.working {f : Frame} (h : f.awake) : f.working := by
  cases f with
  | user | reading _ | writing _ => trivial
  | _ => exact h.elim

theorem Frame.Moves.awake {f g : Frame} (h : f.Moves g) (hf : f.awake) : g.awake := by
  cases h with
  | work _ hg hsem =>
      cases g with
      | user | reading _ | writing _ => trivial
      | semWait semId k => exact absurd rfl (hsem semId k)
      | _ => exact hg.elim
  | forced => exact hf.elim
  | exiting => exact hf.elim

namespace Machine

variable {S S' : Machine} {a : Act} {e : Cause} {pid : ℤ} {blocks : ℕ → Bool}

/-- PID 1 is ready with an entry in a queue, or has the CPU and runs. And some process has the CPU:
`switchContext` would leave none behind if `unschedule` found nothing for it. -/
structure SomethingToRun (S : Machine) : Prop where
  init : (S.sched.processes initPid).state = READY ∧ S.sched.InQueues initPid ∨
    (S.sched.processes initPid).state = RUNNING ∧ S.sched.currentProcess = some initPid
  current : ∃ pid, S.sched.currentProcess = some pid

/-! ## Calls that put the caller to sleep -/

/-- The semaphore that is waited on is there, and without a token. `tokens` are those that the
caller gives itself before. -/
def Dry (S : Machine) (semId : ℤ) (tokens : Int32) : Prop :=
  S.sems.semExists semId = true ∧ (S.sems.sems semId.toNat).value + tokens = 0

instance (S : Machine) (semId : ℤ) (tokens : Int32) : Decidable (S.Dry semId tokens) :=
  inferInstanceAs (Decidable (_ ∧ _))

/-- A round of `readFromFD` or `writeToFD` finds no byte, or no room for one. -/
def stalls (S : Machine) : Frame → Bool
  | .reading r => r.sizeRead < r.count ∧ (S.streams r.stream).any fun st =>
      S.Dry st.readSem (if st.eof then 1 else 0)
  | .writing w => w.written < w.buf.length ∧ (S.streams w.stream).any fun st => S.Dry st.writeSem 0
  | _ => false

/-- `readFromFDAt` sees a byte, but the semaphore has no token for it. -/
def stallsAt (S : Machine) (fd : ℤ) : Bool :=
  let d := S.fileDescriptors fd
  (0 ≤ fd ∧ fd < maxFds ∧ fd ≠ stdout ∧ fd ≠ stderr ∧ d.isOpen ∧ d.mode ≠ .W) ∧
    (d.resource.bind S.streams).any fun st =>
      st.dataAvailable > 0 ∧ st.buffer st.readPos ≠ 0 ∧ S.Dry st.readSem 0

/-- The event puts the process that has the CPU, `pid`, to sleep. -/
def putsToSleep (S : Machine) (pid : ℤ) : Event → Bool
  | .call (.semWait semId) => S.Dry semId 0
  | .call (.wait target _) =>
      0 < target ∧ target ≤ maxPid ∧ (S.sched.processes target).state ≠ EXITED
  | .call (.readAt fd) => S.stallsAt fd
  | .resume => S.stalls (S.frames pid)
  | _ => false

/-- Nothing that runs in the context of PID 1 falls asleep. -/
def sparesInit (S : Machine) : Cause → Prop
  | .kernel e => S.sched.currentProcess = some initPid → S.putsToSleep initPid e = false
  | .key _ => True

instance (S : Machine) : ∀ e, Decidable (S.sparesInit e)
  | .kernel e => inferInstanceAs (Decidable (_ → S.putsToSleep initPid e = false))
  | .key _ => inferInstanceAs (Decidable True)

/-! ## What every action keeps -/

/-- The state between two steps. -/
structure Lively (S : Machine) : Prop where
  base : S.Base
  ranked : S.sched.Ranked
  served : S.sched.Served
  awake : (S.sched.processes initPid).state = READY ∨ (S.sched.processes initPid).state = RUNNING
  frame : (S.frames initPid).awake
  current : S.sched.currentProcess ≠ none

theorem Lively.somethingToRun (h : S.Lively) : S.SomethingToRun := by
  refine ⟨?_, Option.ne_none_iff_exists'.mp h.current⟩
  rcases h.awake with hready | hrun
  · exact .inl ⟨hready, h.served.ready initPid hready⟩
  · exact .inr ⟨hrun, h.base.sound.alone initPid hrun⟩

theorem awake_iff {st : ProcessState} : st = READY ∨ st = RUNNING ↔ st ≠ BLOCKED ∧ st ≠ EXITED := by
  cases st <;> simp

/-- No action is one of PID 1 that ends it or puts it anew into its slot. -/
theorem Lively.does_awake (h : S.Lively) (hspares : a.spares initPid) (hd : S.Does a S') :
    (S'.sched.processes initPid).state = READY ∨ (S'.sched.processes initPid).state = RUNNING := by
  obtain ⟨hblocked, hexited⟩ := awake_iff.mp h.awake
  refine awake_iff.mpr ⟨fun hsleeps => hblocked (hd.blocked h.base hspares hsleeps), ?_⟩
  have hnew : a ≠ .create initPid := by
    rintro rfl
    cases hd with
    | create _ hover _ _ => exact hexited hover
  have hkill : a ≠ .kill initPid := by
    rintro rfl
    cases hd with
    | kill _ hpid _ => exact absurd hpid.1 (lt_irrefl _)
  exact fun hover => hexited ((hd.exited h.base hnew hkill).mp hover)

/-- The frame of a process changes only by its own calls. -/
theorem update_awake {frames : ℤ → Frame} {q p : ℤ} {f : Frame} (h : (frames p).awake)
    (hf : q = p → f.awake) : (Function.update frames q f p).awake := by
  by_cases heq : q = p
  · subst heq
    rw [Function.update_self]
    exact hf rfl
  · rw [Function.update_of_ne (Ne.symm heq)]
    exact h

theorem Lively.does_frame (h : S.Lively) (hspares : a.spares initPid) (hd : S.Does a S') :
    (S'.frames initPid).awake := by
  cases hd with
  | create => exact update_awake h.frame fun _ => trivial
  | @kill c q stage hc hq halive =>
      refine update_awake h.frame ?_
      rintro rfl
      exact absurd hq.1 (lt_irrefl _)
  | killWake =>
      unfold Machine.killWake
      dsimp only
      split <;> exact h.frame
  | waitBlock => exact update_awake h.frame fun heq => absurd heq hspares
  | waitRead => exact update_awake h.frame fun _ => trivial
  | frame hc hf =>
      refine update_awake h.frame ?_
      rintro rfl
      exact hf.awake h.frame
  | sleep =>
      unfold fallAsleep
      simp only [onSched_frames, setFrame_frames, enlist_frames]
      exact update_awake h.frame fun heq => absurd heq hspares
  | _ => exact h.frame

/-- **Every action that spares PID 1 leaves something to run.** -/
theorem Lively.does (h : S.Lively) (hspares : a.spares initPid) (hd : S.Does a S') : S'.Lively := by
  have hbase := h.base.does hd
  have hserved := served_does h.base h.ranked h.served hd
  have hawake := h.does_awake hspares hd
  refine ⟨hbase, ranked_does h.base h.ranked hd, hserved, hawake, h.does_frame hspares hd, ?_⟩
  by_cases hquiet : a.quiet
  · rw [hd.quiet_current hquiet]
    exact h.current
  · rcases hd.switches h.base hquiet initPid with ⟨hcur, -⟩ | ⟨t, ht, -, -, -, -⟩
    · rw [hcur]
      exact h.current
    · have halone := hbase.sound.alone
      rw [ht] at hserved hawake halone ⊢
      exact hserved.finds halone hawake

/-! ## A call that does not sleep -/

theorem semWait_returns {semId : ℤ} {k : AfterWait} {returned : Bool} (hdry : ¬S.Dry semId 0)
    (h : S.semWait pid semId k = some (returned, S')) : returned = true := by
  unfold semWait at h
  split at h
  · exact (Prod.mk.inj (Option.some.inj h)).1.symm
  · rename_i hneg
    split at h
    · simp at h
    · rename_i hge
      split at h
      · exact (Prod.mk.inj (Option.some.inj h)).1.symm
      · rename_i hused
        rcases semWaitLoop_cases h with ⟨-, hzero, -⟩ | ⟨htaken, -⟩
        · refine absurd ⟨?_, ?_⟩ hdry
          · simp only [SemTable.semExists, decide_eq_true_eq]
            exact ⟨not_lt.mp hneg, not_le.mp hge, by simpa using hused⟩
          · rw [hzero]
            rfl
        · exact htaken

theorem waitThen_quiet {semId : ℤ} {k : AfterWait} (hc : S.sched.currentProcess = some pid)
    (hf : (S.frames pid).working) (hdry : ¬S.Dry semId 0) (h : S.waitThen pid semId k = some S') :
    Path (atWorkQuiet pid) S S' := by
  simp only [waitThen, Option.bind_eq_bind, Option.bind_eq_some_iff, Prod.exists] at h
  obtain ⟨returned, S₁, hwait, h⟩ := h
  obtain rfl := semWait_returns hdry hwait
  rcases semWait_path hc hf hwait with ⟨hfalse, -⟩ | ⟨-, hpath, hc₁, hf₁⟩
  · exact absurd hfalse (by simp)
  · exact hpath.trans (afterWait_path hc₁ hf₁ h)

/-- The token that a reader gives itself is one that it finds. -/
theorem Dry.of_semPost {semId : ℤ} {r : Int32} (hpost : S.semPost semId = some (r, S'))
    (h : S'.Dry semId 0) : S.Dry semId 1 := by
  obtain ⟨hexists, hvalue⟩ := h
  unfold semPost at hpost
  simp only [SemTable.semExists, decide_eq_true_eq] at hexists
  split at hpost
  · rename_i hrange
    exact absurd hrange (by omega)
  · dsimp only at hpost
    split at hpost
    · rename_i hunused
      obtain ⟨-, rfl⟩ := Prod.mk.inj (Option.some.inj hpost)
      exact absurd hexists.2.2 (by simpa using hunused)
    · rename_i hused
      split at hpost
      · exact absurd hpost (by simp)
      · obtain ⟨-, rfl⟩ := Prod.mk.inj (Option.some.inj hpost)
        refine ⟨?_, ?_⟩
        · simp only [SemTable.semExists, decide_eq_true_eq]
          exact ⟨hexists.1, hexists.2.1, by simpa using hused⟩
        · change (Function.update S.sems.sems semId.toNat _ semId.toNat).value + 0 = 0 at hvalue
          rw [Function.update_self, Int32.add_zero] at hvalue
          exact hvalue

theorem readRound_quiet {r : Reader} (hc : S.sched.currentProcess = some pid)
    (hf : (S.frames pid).working) (hgoes : S.stalls (.reading r) = false)
    (h : S.readRound pid r = some S') : Path (atWorkQuiet pid) S S' := by
  unfold readRound at h
  split at h
  · rename_i hmore
    simp only [Option.bind_eq_bind, Option.bind_eq_some_iff] at h
    obtain ⟨st, hst, S₁, htoken, h⟩ := h
    have hdry : ¬S.Dry st.readSem (if st.eof then 1 else 0) := by
      simpa [stalls, hmore, hst] using hgoes
    have hfirst : Path (closing (fun _ => True) fun _ => False) S S₁ ∧ ¬S₁.Dry st.readSem 0 := by
      unfold eofToken at htoken
      split at htoken
      · rename_i heof
        rw [if_pos heof] at hdry
        simp only [Option.map_eq_map, Option.map_eq_some_iff, Prod.exists] at htoken
        obtain ⟨_, _, hpost, rfl⟩ := htoken
        exact ⟨semPost_path trivial hpost hc, fun hagain => hdry (hagain.of_semPost hpost)⟩
      · rename_i heof
        rw [if_neg heof] at hdry
        rw [← Option.some.inj htoken]
        exact ⟨Path.refl _, hdry⟩
    have hf₁ : (S₁.frames pid).working := by
      rw [hfirst.1.calm.2]
      exact hf
    exact (hfirst.1.mono fun _ => closing_atWork).trans
      (waitThen_quiet (hfirst.1.calm.1.trans hc) hf₁ hfirst.2 h)
  · rw [← Option.some.inj h]
    exact (setFrame_path (f := .user) hc hf trivial (by simp)).trans (moved_path trivial)

theorem writeRound_quiet {w : Writer} (hc : S.sched.currentProcess = some pid)
    (hf : (S.frames pid).working) (hgoes : S.stalls (.writing w) = false)
    (h : S.writeRound pid w = some S') : Path (atWorkQuiet pid) S S' := by
  unfold writeRound at h
  split at h
  · rename_i hmore
    simp only [Option.bind_eq_bind, Option.bind_eq_some_iff] at h
    obtain ⟨st, hst, h⟩ := h
    have hdry : ¬S.Dry st.writeSem 0 := by
      simpa [stalls, hmore, hst] using hgoes
    exact waitThen_quiet hc hf hdry h
  · rw [← Option.some.inj h]
    exact setFrame_path hc hf trivial (by simp)

theorem readFromFDAt_quiet {fd : ℤ} (hc : S.sched.currentProcess = some pid)
    (hf : (S.frames pid).working) (hgoes : S.stallsAt fd = false)
    (h : S.readFromFDAt pid fd = some S') : Path (atWorkQuiet pid) S S' := by
  unfold readFromFDAt at h
  dsimp only at h
  split at h
  · rw [Option.some.inj h]
    exact Path.refl _
  · rename_i hgood
    simp only [Option.bind_eq_bind, Option.bind_eq_some_iff] at h
    obtain ⟨stream, hstream, st, hst, h⟩ := h
    split at h
    · rename_i hdata
      refine waitThen_quiet hc hf (fun hdry => ?_) h
      unfold stallsAt at hgoes
      dsimp only at hgoes
      rw [decide_eq_false_iff_not] at hgoes
      apply hgoes
      rw [hstream, Option.bind_some, hst]
      simp only [not_or, not_lt, not_le, Bool.not_eq_true'] at hgood
      obtain ⟨hlow, hhigh, hout, herr, hopen, hmode⟩ := hgood
      refine ⟨⟨hlow, hhigh, hout, herr, by simpa using hopen, hmode⟩, ?_⟩
      simp [hdata, hdry]
    · exact finishReadAt_path hc hf h

/-! ## Steps and runs -/

theorem atWorkQuiet_spares {q p : ℤ} (h : atWorkQuiet q a) : a.spares p := by
  cases a with
  | block => exact h.2.elim
  | sleep => exact h.2.elim
  | waitBlock => exact h.2.elim
  | _ => trivial

theorem pressing_spares {p : ℤ} (h : pressing a) : a.spares p := by
  cases a with
  | block => exact h.elim
  | sleep => exact h.elim
  | waitBlock => exact h.elim
  | _ => trivial

/-- What is done in another context, or by another call, does not put PID 1 to sleep. -/
theorem allowed_spares {e : Event} (ha : Allowed S e a)
    (hno : S.sched.currentProcess = some initPid → ¬MayWait e ∧
      ∀ target wstatus, e ≠ .call (.wait target wstatus)) : a.spares initPid := by
  cases a with
  | block q => exact ha.2
  | sleep q semId k =>
      rintro rfl
      exact (hno ha.2.1).1 ha.1
  | waitBlock q target wstatus =>
      rintro rfl
      exact (hno ha.2).2 target wstatus ha.1
  | _ => trivial

/-- A call of PID 1 that does not put it to sleep. -/
theorem sysCall_spares {call : Syscall} (hbase : S.Base)
    (hc : S.sched.currentProcess = some initPid) (hf : S.frames initPid = .user)
    (hgoes : S.putsToSleep initPid (.call call) = false) (h : S.sysCall initPid call = some S') :
    Path (Act.spares initPid) S S' := by
  have hwork : (S.frames initPid).working := by rw [hf]; trivial
  have hother : ¬MayWait (.call call) → (∀ target wstatus, call ≠ .wait target wstatus) →
      Path (Act.spares initPid) S S' := by
    intro hwait hne
    refine (sysCall_ends hbase hc hf h).path.mono fun a ha => allowed_spares ha fun _ => ⟨hwait, ?_⟩
    rintro target wstatus ⟨⟩
    exact hne target wstatus rfl
  cases call with
  | semWait semId =>
      simp only [sysCall] at h
      split at h
      · exact (waitThen_quiet hc hwork (of_decide_eq_false hgoes) h).mono fun _ =>
          atWorkQuiet_spares
      · rw [Option.some.inj h]
        exact Path.refl _
  | wait target wstatus =>
      rw [← Option.some.inj h]
      unfold waitProcess
      split
      · exact Path.refl S
      · rename_i hrange
        rw [not_or, not_le, not_lt] at hrange
        dsimp only
        split
        · rename_i hexited
          exact Path.one (a := .waitGone initPid target wstatus) trivial (.waitGone hc hf hexited)
        · rename_i halive
          exact absurd ⟨hrange.1, hrange.2, halive⟩ (of_decide_eq_false hgoes)
  | read fd count => exact (readFromFD_quiet hc hwork h).mono fun _ => atWorkQuiet_spares
  | write fd buf => exact (writeToFD_quiet hc hwork h).mono fun _ => atWorkQuiet_spares
  | readAt fd => exact (readFromFDAt_quiet hc hwork hgoes h).mono fun _ => atWorkQuiet_spares
  | _ => exact hother id (by simp)

theorem Lively.step_path {e : Event} (h : S.Lively) (hspares : S.sparesInit (.kernel e))
    (hstep : S.Step e S') : Path (Act.spares initPid) S S' := by
  by_cases hc : S.sched.currentProcess = some initPid
  · have hgoes := hspares hc
    cases e with
    | call call =>
        obtain ⟨pid, hpid, hf, hcall⟩ := step_call hstep
        obtain rfl : initPid = pid := Option.some.inj (hc.symm.trans hpid)
        exact sysCall_spares h.base hc hf hgoes hcall
    | resume =>
        have hresume : S.resume initPid (S.frames initPid) = some S' := by
          unfold Step Machine.step at hstep
          simpa only [hc] using hstep
        have hframe := h.frame
        change S.stalls (S.frames initPid) = false at hgoes
        generalize hf : S.frames initPid = f at hresume hframe hgoes
        have hwork : (S.frames initPid).working := by
          rw [hf]
          exact hframe.working
        cases f with
        | user => exact absurd hresume (by simp [resume])
        | reading r =>
            exact (readRound_quiet hc hwork hgoes hresume).mono fun _ => atWorkQuiet_spares
        | writing w =>
            exact (writeRound_quiet hc hwork hgoes hresume).mono
              fun _ => atWorkQuiet_spares
        | _ => exact hframe.elim
    | _ => exact (Machine.step_path h.base hstep).mono fun a ha =>
        allowed_spares ha fun _ => ⟨id, by simp⟩
  · exact (Machine.step_path h.base hstep).mono fun a ha =>
      allowed_spares ha fun heq => absurd heq hc

/-- **Every step and every interrupt** that spares PID 1 leaves something to run. -/
theorem Lively.react (h : S.Lively) (hspares : S.sparesInit e) (hreact : S.Reacts e S') :
    S'.Lively := by
  have hpath : Path (Act.spares initPid) S S' := by
    cases e with
    | kernel e => exact h.step_path hspares hreact
    | key k =>
        obtain ⟨c, hc, -, hkey⟩ := react_key hreact
        exact (keyboardHandler_path hc hkey).mono fun _ => pressing_spares
  exact hpath.invariant h fun _ _ _ hM ha hd => hM.does ha hd

/-- What boot does: nobody sleeps. -/
structure Started (S : Machine) : Prop where
  base : S.Base
  unblocked : ∀ p, (S.sched.processes p).state ≠ BLOCKED
  frame : (S.frames initPid).awake

theorem Started.does (h : S.Started) (ha : starting a) (hd : S.Does a S') : S'.Started := by
  refine ⟨h.base.does hd, fun p hp => h.unblocked p (hd.blocked h.base ?_ hp), ?_⟩
  · cases a with
    | block => exact ha.elim
    | sleep => exact ha.elim
    | waitBlock => exact ha.elim
    | _ => trivial
  · cases hd with
    | create => exact update_awake h.frame fun _ => trivial
    | switch => exact h.frame
    | blocks => exact h.frame
    | semCreate => exact h.frame
    | files => exact h.frame
    | _ => exact ha.elim

/-- Boot ends with a process that runs, if the heap holds the stack of PID 1. -/
theorem lively_boot (hstack : blocks 0 = true) : (boot (fun _ => true) blocks).Lively := by
  have hidle := idling_boot hstack
  have hserved : (boot (fun _ => true) blocks).sched.Served :=
    ⟨hidle.apart.nodes, hidle.apart.ready⟩
  have hstarted : (boot (fun _ => true) blocks).Started :=
    boot_path.invariant (I := Started) ⟨base_off, fun p => by simp [off, emptyProcess], trivial⟩
      fun _ _ _ hM ha hd => hM.does ha hd
  have hawake := awake_iff.mpr ⟨hstarted.unblocked initPid, hidle.live⟩
  exact ⟨hidle.base, hidle.ranked, hserved, hawake, hstarted.frame,
    hserved.finds hidle.base.sound.alone hawake⟩

/-- **There is always something to run**, in every run of system calls, interrupts of the keyboard
and of the timer in which the heap has every queue node and nothing that PID 1 is made to do falls
asleep. -/
theorem something_to_run (blocks : ℕ → Bool) (hstack : blocks 0 = true) (S : Machine)
    (hreach : Reaches Reacts sparesInit (boot (fun _ => true) blocks) S) : S.SomethingToRun := by
  have h : S.Lively := hreach.invariant (lively_boot hstack)
    fun _ _ _ hM hspares hreact => hM.react hspares hreact
  exact h.somethingToRun

/-- The shell opens a semaphore and sleeps on it. -/
def shellSleeps : List Cause :=
  [.kernel (.call (.semOpen nameA 0)), .kernel (.call (.semWait 3))]

/-- Keys are pressed while PID 1 has the CPU, and what they run wakes the shell again. -/
def keysPressed : List Cause :=
  shellSleeps ++ [.key (.posts 1), .kernel .tick, .key .ctrlC, .kernel (.call (.semPost 3)),
    .kernel (.call .yield), .kernel .resume]

theorem something_to_run_keys : ∃ S, exec (fun S e => if sparesInit S e then react S e else none)
    booted keysPressed = some S ∧ S.SomethingToRun := by
  obtain ⟨S, hS⟩ := Option.isSome_iff_exists.mp (by decide +kernel :
    (exec (fun S e => if sparesInit S e then react S e else none) booted keysPressed).isSome)
  exact ⟨S, hS, something_to_run _ rfl S (exec_guarded hS)⟩

/-- **A function of a key that waits** on a semaphore puts PID 1 to sleep, and nobody is left. -/
theorem init_sleeps : ¬∀ blocks : ℕ → Bool, blocks 0 = true → ∀ S,
    Reaches Reacts always (boot (fun _ => true) blocks) S → S.SomethingToRun := by
  intro hall
  obtain ⟨S, hS⟩ := Option.isSome_iff_exists.mp (by decide +kernel :
    (exec react booted (shellSleeps ++ [.kernel (.call (.semWait 3))])).isSome)
  have hrun : ((exec react booted (shellSleeps ++ [.kernel (.call (.semWait 3))])).map fun S =>
      S.sched.currentProcess) = some none := by
    decide +kernel
  rw [hS, Option.map_some, Option.some.injEq] at hrun
  obtain ⟨pid, hpid⟩ := (hall _ rfl S (exec_always hS fun _ _ _ => trivial)).current
  rw [hrun] at hpid
  exact absurd hpid (by simp)

end Machine

end BareKernel.Kernel
