import BareKernel.Kernel.Descriptors
import BareKernel.Kernel.StepTrace

/-!
# Who closes a descriptor

Descriptor numbers are global and are given out again as soon as they are closed.
A process keeps the two numbers that it was created with, and `kill` closes
whatever they stand for by then. With a record of who received or made each open
descriptor, every end is closed for one of its owners, as long as no number is
given out again while it stands in the block of another live process.
-/

namespace BareKernel.Kernel

open ProcessState Runs

/-! ## What a process is created with -/

namespace Sched

variable {s s' s'' : Sched} {p pid q : ℤ} {b : Process}

/-- The descriptors of every process are as they were. -/
def SameFds (s s' : Sched) : Prop := ∀ p, (s'.processes p).fds = (s.processes p).fds

theorem SameFds.refl (s : Sched) : SameFds s s := fun _ => rfl

theorem SameFds.trans (h : SameFds s s') (h' : SameFds s' s'') : SameFds s s'' :=
  fun p => (h' p).trans (h p)

theorem SameFds.of_processes (h : s'.processes = s.processes) : SameFds s s' :=
  fun p => by rw [h]

theorem SameFds.setProcess (h : b.fds = (s.processes pid).fds) :
    SameFds s (s.setProcess pid b) := by
  intro p
  by_cases heq : p = pid
  · subst heq
    rw [setProcess_self, h]
  · rw [setProcess_of_ne heq]

theorem Aged.sameFds (h : Aged s s') : SameFds s s' := by
  intro p
  obtain ⟨_, _, heq⟩ := h p
  rw [heq]

theorem sameFds_schedule : SameFds s (s.schedule pid) := SameFds.of_processes schedule_processes

theorem park_sameFds : SameFds s (s.park pid) := by
  unfold park
  split
  · have hset : SameFds s (s.setProcess pid { s.processes pid with
        state := READY, priority := (s.processes pid).originalPriority }) := SameFds.setProcess rfl
    exact hset.trans sameFds_schedule
  · exact SameFds.refl s
  · exact SameFds.refl s
  · exact SameFds.refl s

theorem dispatch_sameFds : SameFds s (s.dispatch pid) := by
  have hset : SameFds s (s.setProcess pid
      { s.processes pid with state := RUNNING, agingCounter := 0 }) := SameFds.setProcess rfl
  exact hset.trans (SameFds.of_processes rfl)

theorem switchContext_sameFds : SameFds s s.switchContext := by
  unfold switchContext
  split
  · split
    · exact SameFds.refl s
    · rename_i pid s' hsome
      obtain ⟨i, hi, rest, hq, rfl⟩ := unschedule_some hsome
      have hqueue : SameFds s (s.setQueue i rest) := SameFds.of_processes rfl
      exact hqueue.trans dispatch_sameFds
  · rename_i c hc
    split
    · exact SameFds.refl s
    · dsimp only
      have hfound : SameFds s (nextProcess ((s.park c).applyAging.queuedCount + 1)
          (s.park c).applyAging) :=
        park_sameFds.trans (applyAging_aged.sameFds.trans
          (SameFds.of_processes nextProcess_processes))
      split
      · exact hfound
      · exact hfound.trans dispatch_sameFds

theorem blockProcess_sameFds : SameFds s (s.blockProcess pid).2 := by
  have hset : SameFds s (s.setState pid BLOCKED) := SameFds.setProcess rfl
  by_cases hvalid : s.isValidPID pid
  · rw [blockProcess_of_valid hvalid]
    split
    · have hflag : SameFds (s.setState pid BLOCKED)
          { s.setState pid BLOCKED with isYield := true } := SameFds.of_processes rfl
      exact hset.trans (hflag.trans switchContext_sameFds)
    · exact hset
  · have hnone : s.getProcess pid = none := by
      unfold getProcess
      exact if_neg fun h => hvalid (isValidPID_iff.mpr h)
    unfold blockProcess
    rw [hnone]
    exact SameFds.refl s

theorem unblockProcess_sameFds : SameFds s (s.unblockProcess pid).2 := by
  rcases unblockProcess_cases (s := s) with heq | ⟨_, _, _, heq⟩ <;> rw [heq]
  · exact SameFds.refl s
  · have hset : SameFds s (s.setState pid READY) := SameFds.setProcess rfl
    exact hset.trans sameFds_schedule

end Sched

namespace Machine

variable {S S' S₁ : Machine} {a : Act} {e : Event} {c p pid fd : ℤ}
  {nodes blocks : ℕ → Bool}

/-- **Only its creation gives a process descriptors.** -/
theorem Does.fds (hd : S.Does a S') (hnew : a ≠ .create p) :
    (S'.sched.processes p).fds = (S.sched.processes p).fds := by
  cases hd with
  | switch => exact Sched.switchContext_sameFds p
  | block => exact Sched.blockProcess_sameFds p
  | unblock => exact Sched.unblockProcess_sameFds p
  | @create q b =>
      have hne : p ≠ q := by
        rintro rfl
        exact hnew rfl
      change (((S.sched.setProcess q b).schedule q).processes p).fds = _
      rw [Sched.schedule_processes, Sched.setProcess_of_ne hne]
  | @returned q returnValue =>
      have hset : Sched.SameFds S.sched (S.sched.setProcess q
          { S.sched.processes q with waitReturnValue := returnValue }) := .setProcess rfl
      exact hset p
  | @kill c q stage =>
      have hset : Sched.SameFds S.sched (S.killStart q stage).sched := .setProcess rfl
      exact hset p
  | @killWake c q =>
      unfold Machine.killWake
      dsimp only
      split
      · rfl
      · have hwake : Sched.SameFds S.sched
            (S.sched.unblockProcess (S.sched.processes q).waitPid).2 :=
          Sched.unblockProcess_sameFds
        have hset : ∀ t : Sched, t.SameFds
            (t.setProcess q { t.processes q with waitPid := nonPid }) := fun t => .setProcess rfl
        exact (hwake.trans (hset _)) p
  | @priority c q priority =>
      have hset : Sched.SameFds S.sched (S.sched.setProcess q { S.sched.processes q with
        priority := priority, originalPriority := priority, agingCounter := 0 }) := .setProcess rfl
      exact hset p
  | @waitBlock q target =>
      have hset : Sched.SameFds S.sched (S.sched.setProcess target
          { S.sched.processes target with waitPid := q }) := .setProcess rfl
      exact (hset.trans Sched.blockProcess_sameFds) p
  | @sleep q semId k =>
      have hlist : Sched.SameFds S.sched (S.enlist q semId).sched := by
        rcases enlist_sched S q semId with heq | heq <;> rw [heq]
        · exact .refl _
        · exact .of_processes rfl
      exact (hlist.trans Sched.blockProcess_sameFds) p
  | wake => exact Sched.unblockProcess_sameFds p
  | _ => rfl

/-- A process that is live, or that ends itself at this moment. -/
def Held (S : Machine) (p : ℤ) : Prop :=
  (S.sched.processes p).state ≠ EXITED ∨ S.sched.currentProcess = some p

theorem Does.held (hbase : S.Base) (hd : S.Does a S') (hnew : a ≠ .create p) (h : S'.Held p) :
    S.Held p := by
  by_cases hover : (S.sched.processes p).state = EXITED
  · have hover' := hd.over hbase hnew hover
    exact .inr (hd.current hbase hover' (h.resolve_left fun hlive => hlive hover'))
  · exact .inl hover

/-- The step is no creation of a process. -/
def NoCreation (e : Event) : Prop := ∀ params, e ≠ .call (.createProcess params)

/-- What every step but a creation leaves to the processes. -/
theorem step_held (hbase : S.Base) (h : S.Step e S') (he : NoCreation e) :
    (S'.sched.processes p).fds = (S.sched.processes p).fds ∧ (S'.Held p → S.Held p) := by
  have hall := (step_path hbase h).invariant (I := fun M => M.Base ∧
    (M.sched.processes p).fds = (S.sched.processes p).fds ∧ (M.Held p → S.Held p))
    ⟨hbase, rfl, id⟩ fun M a M' hM ha hd => ?_
  · exact hall.2
  · have hnew : a ≠ .create p := by
      rintro rfl
      obtain ⟨params, heq⟩ := ha
      exact he params heq
    exact ⟨hM.1.does hd, (hd.fds hnew).trans hM.2.1, fun hheld =>
      hM.2.2 (hd.held hM.1 hnew hheld)⟩

/-- A creation changes the block of the process that it returns, and no other. -/
theorem createProcess_block (S : Machine) (params : CreationParameters) (p : ℤ) :
    ((S.createProcess (some params)).1 = p ∧ 0 < p) ∧
        ((S.createProcess (some params)).2.sched.processes p).fds = params.fds ∨
      ¬((S.createProcess (some params)).1 = p ∧ 0 < p) ∧
        (S.createProcess (some params)).2.sched.processes p = S.sched.processes p := by
  have hfail : ∀ {T : Machine}, T.sched.processes p = S.sched.processes p →
      ¬((-1 : ℤ) = p ∧ 0 < p) ∧ T.sched.processes p = S.sched.processes p := by
    refine fun hT => ⟨?_, hT⟩
    rintro ⟨rfl, hpos⟩
    exact absurd hpos (by decide)
  unfold createProcess
  dsimp only
  split
  · exact .inr (hfail rfl)
  · split
    · exact .inr (hfail rfl)
    · obtain ⟨outcomes, hblocks⟩ := allocBlocks_eq (n := neededBlocks params) (s := S.sched)
      split
      · rename_i s hs
        obtain rfl : s = { S.sched with blocks := outcomes } := by rw [← hblocks, hs]
        exact .inr (hfail rfl)
      · rename_i s hs
        obtain rfl : s = { S.sched with blocks := outcomes } := by rw [← hblocks, hs]
        split
        · exact .inr (hfail rfl)
        · rename_i name _ _ _ _ _ pid hfree
          obtain ⟨⟨hpos, _⟩, _⟩ := getFreeProcess_some hfree
          by_cases heq : pid = p
          · subst heq
            refine .inl ⟨⟨rfl, hpos⟩, ?_⟩
            change ((Sched.schedule _ pid).processes pid).fds = _
            rw [Sched.schedule_processes, Sched.setProcess_self]
            rfl
          · refine .inr ⟨fun h => heq h.1, ?_⟩
            change (Sched.schedule _ pid).processes p = _
            rw [Sched.schedule_processes, Sched.setProcess_of_ne (Ne.symm heq)]

/-! ## Owners -/

/-- For each descriptor the processes that received or made its incarnation. -/
abbrev Owners : Type := ℤ → ℤ → Prop

/-- What a step makes of the owners. Nobody owns a descriptor that is closed, the
ends of a new pipe belong to its maker, and a new process owns what it is given,
whoever had its PID before. -/
def owners (S : Machine) (e : Event) (S' : Machine) (O : Owners) : Owners := fun fd p =>
  (S'.fileDescriptors fd).isOpen ∧
    match e with
    | .call (.createProcess (some params)) =>
        ((S.createProcess (some params)).1 = p ∧ 0 < p) ∧
            (fd = params.fds.1 ∨ fd = params.fds.2) ∨
          ¬((S.createProcess (some params)).1 = p ∧ 0 < p) ∧ O fd p
    | .call (.pipe fresh) => O fd p ∨ (S.fileDescriptors fd).isOpen = false ∧
        S.sched.currentProcess = some p ∧ ∃ M, S.createPipe p fresh = some (0, M)
    | _ => O fd p

/-- A step of the system with the record of owners. -/
def OwnedStep (x : Machine × Owners) (e : Event) (y : Machine × Owners) : Prop :=
  x.1.Step e y.1 ∧ y.2 = x.1.owners e y.1 x.2

theorem ownedStep {O : Owners} (h : S.Step e S') : OwnedStep (S, O) e (S', S.owners e S' O) :=
  ⟨h, rfl⟩

/-- The calls of `closeFD` that return 0, with the process that they are made for. -/
inductive ClosesFor (S : Machine) : Event → ℤ → ℤ → Prop where
  | close {c fd : ℤ} {M : Machine} (hc : S.sched.currentProcess = some c)
      (h : S.closeFD fd = some (0, M)) : ClosesFor S (.call (.close fd)) c fd
  | killIn {p : ℤ} {M : Machine} (halive : (S.sched.processes p).state ≠ EXITED)
      (h : (S.killStart p .leave).closeFD (S.sched.processes p).fds.1 = some (0, M)) :
      ClosesFor S (.call (.kill p)) p (S.sched.processes p).fds.1
  | killOut {p : ℤ} {r : Int32} {M M' : Machine} (halive : (S.sched.processes p).state ≠ EXITED)
      (hin : (S.killStart p .leave).closeFD (S.sched.processes p).fds.1 = some (r, M))
      (h : M.closeFD (S.sched.processes p).fds.2 = some (0, M')) :
      ClosesFor S (.call (.kill p)) p (S.sched.processes p).fds.2
  | exitIn {c : ℤ} {M : Machine} (hc : S.sched.currentProcess = some c)
      (hf : S.frames c = .exiting .closeIn)
      (h : S.closeFD (S.sched.processes c).fds.1 = some (0, M)) :
      ClosesFor S .resume c (S.sched.processes c).fds.1
  | exitOut {c : ℤ} {M : Machine} (hc : S.sched.currentProcess = some c)
      (hf : S.frames c = .exiting .closeOut)
      (h : S.closeFD (S.sched.processes c).fds.2 = some (0, M)) :
      ClosesFor S .resume c (S.sched.processes c).fds.2

/-- A number that `createPipe` gives out next. -/
def Hands (S : Machine) (fd : ℤ) : Prop :=
  S.getAvailableFD.1 = some fd ∨ S.getAvailableFD.2.getAvailableFD.1 = some fd

theorem Hands.pipe (h : S.Hands fd) : 3 ≤ fd := by
  have hfound : ∀ {T : Machine}, T.getAvailableFD.1 = some fd → 3 ≤ fd := by
    intro T hT
    rcases getAvailableFD_cases (S := T) with hnone | ⟨fd', hunused, heq⟩
    · rw [hnone] at hT
      exact absurd hT (by simp)
    · rw [heq] at hT
      exact Option.some.inj hT ▸ hunused.1.1
  exact h.elim hfound hfound

/-- `sys_close` is called by an owner, and `createPipe` is not called while one of
the next two numbers stands in the block of another live process, nor, where only
one number is left, in any. -/
def closesOwn (x : Machine × Owners) : Event → Prop
  | .call (.close fd) => ∀ c, x.1.sched.currentProcess = some c → 3 ≤ fd →
      (x.1.fileDescriptors fd).isOpen → x.2 fd c
  | .call (.pipe _) => ∀ fd p, x.1.Hands fd → (x.1.sched.processes p).state ≠ EXITED →
      (fd = (x.1.sched.processes p).fds.1 ∨ fd = (x.1.sched.processes p).fds.2) →
        x.1.sched.currentProcess = some p ∧ x.1.getAvailableFD.2.getAvailableFD.1.isSome
  | _ => True

/-- Whoever will still close a descriptor that is open owns it. -/
structure OwnsFds (x : Machine × Owners) : Prop where
  base : x.1.Base
  owns : ∀ p fd, x.1.Held p →
    (fd = (x.1.sched.processes p).fds.1 ∨ fd = (x.1.sched.processes p).fds.2) → 3 ≤ fd →
      (x.1.fileDescriptors fd).isOpen → x.2 fd p

/-! ## What steps open -/

/-- `createPipe` opens what `getAvailableFD` finds, and fails only if it finds one
descriptor and no second. -/
theorem createPipe_hands {fresh : ℕ → UInt8} {r : Int32}
    (h : S.createPipe c fresh = some (r, S')) (hopen : (S'.fileDescriptors fd).isOpen)
    (hclosed : (S.fileDescriptors fd).isOpen = false) :
    S.Hands fd ∧ (S.getAvailableFD.2.getAvailableFD.1.isSome → r = 0) := by
  have hopens : ∀ {d : ℤ → FD}, S'.fileDescriptors = d → d fd ≠ S.fileDescriptors fd := by
    rintro d rfl heq
    rw [heq, hclosed] at hopen
    exact absurd hopen (by simp)
  rcases createPipe_fds h with ⟨-, heq | ⟨fd₁, hone, heq⟩⟩ | ⟨hr, fd1, fd2, hfinds, heq⟩
  · exact absurd rfl (hopens heq)
  · have hfd : fd = fd₁ := by
      by_contra hne
      exact hopens heq (Function.update_of_ne hne _ _)
    refine ⟨.inl (hfd ▸ hone.found.1), fun hsome => ?_⟩
    rw [hone.found.2] at hsome
    exact absurd hsome (by simp)
  · refine ⟨?_, fun _ => hr⟩
    by_cases hfirst : fd = fd1
    · exact .inl (hfirst ▸ hfinds.found.1)
    · by_cases hsecond : fd = fd2
      · exact .inr (hsecond ▸ hfinds.found.2)
      · have hends := hopens heq
        simp only [withEnds, setOpen, Function.update_of_ne hfirst,
          Function.update_of_ne hsecond] at hends
        exact absurd rfl hends

theorem closeFD_opens {r : Int32} {fd' : ℤ} (h : S.closeFD fd' = some (r, S'))
    (hopen : (S'.fileDescriptors fd).isOpen) : (S.fileDescriptors fd).isOpen := by
  rcases closeFD_fds h with ⟨-, heq⟩ | ⟨-, heq⟩
  · rwa [heq] at hopen
  · rw [heq, setOpen_fileDescriptors] at hopen
    by_cases hfd : fd = fd'
    · subst hfd
      rw [Function.update_self] at hopen
      exact absurd hopen (by simp)
    · rwa [Function.update_of_ne hfd] at hopen

/-- Only a new pipe opens descriptors. -/
theorem step_opens (h : S.Step e S') (hopen : (S'.fileDescriptors fd).isOpen) :
    (S.fileDescriptors fd).isOpen ∨ ∃ c fresh r, S.sched.currentProcess = some c ∧
      e = .call (.pipe fresh) ∧ S.createPipe c fresh = some (r, S') := by
  rcases step_table h with heq | ⟨c, hc, htable⟩
  · exact .inl (heq ▸ hopen)
  · cases htable with
    | @pipe fresh r _ hpipe => exact .inr ⟨c, fresh, r, hc, rfl, hpipe⟩
    | close hclose => exact .inl (closeFD_opens hclose hopen)
    | @kill pid r₁ r₂ S₁ S₂ _ halive hin hout hend =>
        left
        have hfiles : S'.fileDescriptors = S₂.fileDescriptors := by
          rcases hend with rfl | rfl
          · exact (killWake_files S₂ pid).1
          · exact (killWake_files S₂ pid).1
        have hstart : (S.killStart pid .leave).fileDescriptors = S.fileDescriptors := rfl
        rw [hfiles] at hopen
        rw [← hstart]
        exact closeFD_opens hin (closeFD_opens hout hopen)
    | closeIn hf hclose => exact .inl (closeFD_opens hclose hopen)
    | closeOut hf hclose => exact .inl (closeFD_opens hclose hopen)

/-! ## Every run -/

/-- A step that creates no process takes away nobody's descriptors but closed ones. -/
theorem owners_keep {O : Owners} (he : NoCreation e) (hopen : (S'.fileDescriptors fd).isOpen)
    (h : O fd p) : S.owners e S' O fd p := by
  refine ⟨hopen, ?_⟩
  split
  · exact absurd rfl (he _)
  · exact .inl h
  · exact h

theorem ownsFds_create {O : Owners} {params : CreationParameters}
    (h : OwnsFds (S, O)) (hstep : S.Step (.call (.createProcess (some params))) S') :
    OwnsFds (S', S.owners (.call (.createProcess (some params))) S' O) := by
  obtain ⟨c, hc, -, hcall⟩ := step_call hstep
  obtain rfl : (S.createProcess (some params)).2 = S' := Option.some.inj hcall
  refine ⟨h.base.step hstep, fun p fd hheld hfd hlow hopen => ⟨hopen, ?_⟩⟩
  rcases createProcess_block S params p with ⟨hnew, hfds⟩ | ⟨hold, hsame⟩
  · refine .inl ⟨hnew, ?_⟩
    dsimp only at hfd
    rwa [hfds] at hfd
  · refine .inr ⟨hold, ?_⟩
    unfold Held at hheld
    dsimp only at hfd hheld hopen
    rw [hsame] at hfd hheld
    rw [createProcess_currentProcess] at hheld
    rw [(createProcess_files S (some params)).1] at hopen
    exact h.owns p fd hheld hfd hlow hopen

theorem ownsFds_step {x y : Machine × Owners} (h : OwnsFds x) (hok : closesOwn x e)
    (hstep : OwnedStep x e y) : OwnsFds y := by
  obtain ⟨S, O⟩ := x
  obtain ⟨S', O'⟩ := y
  obtain ⟨hstep, rfl⟩ : S.Step e S' ∧ O' = S.owners e S' O := hstep
  by_cases he : NoCreation e
  · refine ⟨h.base.step hstep, fun p fd hheld hfd hlow hopen => ?_⟩
    obtain ⟨hfds, hbefore⟩ := step_held (p := p) h.base hstep he
    dsimp only at hfd hheld hopen ⊢
    rw [hfds] at hfd
    by_cases hopened : (S.fileDescriptors fd).isOpen
    · exact owners_keep he hopen (h.owns p fd (hbefore hheld) hfd hlow hopened)
    · -- a new end: only its maker has its number in its block
      obtain ⟨c, fresh, r, hc, rfl, hpipe⟩ := (step_opens hstep hopen).resolve_left hopened
      rw [Bool.not_eq_true] at hopened
      obtain ⟨hhands, hboth⟩ := createPipe_hands hpipe hopen hopened
      have halive : (S.sched.processes p).state ≠ EXITED := by
        rcases hbefore hheld with halive | hp
        · exact halive
        · obtain ⟨c', hc', hf, -⟩ := step_call hstep
          have hrun := h.base.running hc' fun stage => by rw [hf]; simp
          obtain rfl : c' = p := Option.some.inj (hc'.symm.trans hp)
          rw [hrun]
          decide
      obtain ⟨hp, hsecond⟩ := hok fd p hhands halive hfd
      obtain rfl : c = p := Option.some.inj (hc.symm.trans hp)
      obtain rfl := hboth hsecond
      exact ⟨hopen, .inr ⟨hopened, hc, S', hpipe⟩⟩
  · obtain ⟨params, rfl⟩ : ∃ params, e = .call (.createProcess params) := by
      by_contra hnone
      exact he fun params heq => hnone ⟨params, heq⟩
    cases params with
    | some params => exact ownsFds_create h hstep
    | none =>
        obtain ⟨c, hc, -, hcall⟩ := step_call hstep
        obtain rfl : S = S' := Option.some.inj hcall
        refine ⟨h.base, fun p fd hheld hfd hlow hopen => ⟨hopen, ?_⟩⟩
        exact h.owns p fd hheld hfd hlow hopen

/-- Nobody owns anything. -/
def nobody : Owners := fun _ _ => False

theorem ownsFds_boot : OwnsFds (boot nodes blocks, nobody) := by
  refine ⟨base_boot, fun p fd _ _ hlow hopen => ?_⟩
  dsimp only at hopen
  rw [standard_boot] at hopen
  have hin : fd ≠ stdin := by unfold stdin; omega
  have hout : ¬(fd = stdout ∨ fd = stderr) := by unfold stdout stderr; omega
  simp only [off, if_neg hin, if_neg hout] at hopen
  exact absurd hopen (by simp)

/-- **Every descriptor of a pipe is closed for one of its owners**, by `sys_close`
and by `kill`, in every run in which `sys_close` is called by owners and no number
is given out that another live process will close. -/
theorem closes_owned (nodes blocks : ℕ → Bool) (x : Machine × Owners)
    (h : Reaches OwnedStep closesOwn (boot nodes blocks, nobody) x) (e : Event)
    (hok : closesOwn x e) (p fd : ℤ) (hcloses : x.1.ClosesFor e p fd) (hpipe : 3 ≤ fd) :
    x.2 fd p := by
  have howns : OwnsFds x := h.invariant ownsFds_boot fun _ _ _ hx hok hstep =>
    ownsFds_step hx hok hstep
  have hopen : ∀ {S S' : Machine} {r : Int32}, S.closeFD fd = some (r, S') → r = 0 →
      (S.fileDescriptors fd).isOpen := by
    rintro S S' r hclose rfl
    rcases closeFD_cases hclose with ⟨-, hr, -⟩ | ⟨hclosable, -⟩
    · exact absurd hr (by decide)
    · exact hclosable.2.2
  cases hcloses with
  | close hc hclose => exact hok p hc hpipe (hopen hclose rfl)
  | killIn halive hclose =>
      -- `killStart` leaves the table alone
      have hwas := hopen hclose rfl
      exact howns.owns p _ (.inl halive) (.inl rfl) hpipe hwas
  | killOut halive hin hclose =>
      have hwas := closeFD_opens hin (hopen hclose rfl)
      exact howns.owns p _ (.inl halive) (.inr rfl) hpipe hwas
  | exitIn hc hf hclose => exact howns.owns p _ (.inr hc) (.inl rfl) hpipe (hopen hclose rfl)
  | exitOut hc hf hclose => exact howns.owns p _ (.inr hc) (.inr rfl) hpipe (hopen hclose rfl)

/-! ## Two runs -/

/-- A run of the system is one with owners. -/
theorem exec_owned {es : List Event} {O : Owners} (h : exec step S es = some S') :
    ∃ O', Reaches OwnedStep always (S, O) (S', O') := by
  induction es generalizing S O with
  | nil => exact ⟨O, Option.some.inj h ▸ Reaches.refl _⟩
  | cons e es ih =>
      obtain ⟨S₁, hstep, hrest⟩ := Option.bind_eq_some_iff.mp h
      obtain ⟨O', hrun⟩ := ih (O := S.owners e S₁ O) hrest
      exact ⟨O', Relation.ReflTransGen.head ⟨e, trivial, ownedStep hstep⟩ hrun⟩

/-- A worker that writes into the first pipe. -/
def writerParams : CreationParameters := { workerParams with fds := (0, 4) }

/-- The shell makes a pipe and gives its write end to a worker. -/
def pipeline : List Event :=
  [.call (.pipe fun _ => 0), .call (.createProcess (some writerParams))]

/-- The worker closes its output and is blocked, and the shell has the CPU again. -/
def outputClosed : List Event :=
  pipeline ++ [.call (.changePriority 2 1), .call (.close 4), .call (.block 3), .call .yield]

/-- Only what is open is owned. -/
theorem owned_open {x : Machine × Owners} {ok : Machine × Owners → Event → Prop}
    (h : Reaches OwnedStep ok (S, nobody) x) (howned : x.2 fd p) :
    (x.1.fileDescriptors fd).isOpen := by
  refine h.invariant (I := fun x => x.2 fd p → (x.1.fileDescriptors fd).isOpen) False.elim ?_ howned
  rintro ⟨S, O⟩ e ⟨S', O'⟩ - - ⟨-, heq⟩ howned
  dsimp only at heq howned ⊢
  rw [heq] at howned
  exact howned.1

theorem boot_fds (p : ℤ) : ((boot nodes blocks).sched.processes p).fds = (0, 1) := by
  have hcreate : ∀ (S : Machine) (params : CreationParameters), params.fds = (0, 1) →
      (S.sched.processes p).fds = (0, 1) →
        ((S.createProcess (some params)).2.sched.processes p).fds = (0, 1) := by
    intro S params hparams hS
    rcases createProcess_block S params p with ⟨-, heq⟩ | ⟨-, heq⟩
    · rw [heq, hparams]
    · rw [heq, hS]
  unfold boot
  dsimp only
  refine Eq.trans (Sched.switchContext_sameFds p) ?_
  exact hcreate _ shellParams rfl (hcreate _ initParams rfl rfl)

/-- The two calls of `closeFD` in the `kill` of a process. -/
def killCloses (S : Machine) (p : ℤ) : Option (Int32 × Machine) := do
  let (_, M) ← (S.killStart p .leave).closeFD (S.sched.processes p).fds.1
  M.closeFD (S.sched.processes p).fds.2

theorem closesFor_killCloses (halive : (S.sched.processes p).state ≠ EXITED)
    (h : (S.killCloses p).map Prod.fst = some 0) :
    S.ClosesFor (.call (.kill p)) p (S.sched.processes p).fds.2 := by
  obtain ⟨⟨r, M'⟩, hboth, rfl⟩ := Option.map_eq_some_iff.mp h
  obtain ⟨⟨r, M⟩, hin, hout⟩ := Option.bind_eq_some_iff.mp hboth
  exact .killOut halive hin hout

/-- The shell kills the worker, whose output is the pipe that it was given. -/
theorem closes_owned_kill : ∃ x, Reaches OwnedStep closesOwn (booted, nobody) x ∧
    x.1.ClosesFor (.call (.kill 3)) 3 4 ∧ x.2 4 3 := by
  obtain ⟨S, hS⟩ := Option.isSome_iff_exists.mp (by decide +kernel :
    (booted.step (.call (.pipe fun _ => 0))).isSome)
  obtain ⟨S', hS'⟩ := Option.isSome_iff_exists.mp (by decide +kernel :
    ((booted.step (.call (.pipe fun _ => 0))).bind fun S =>
      S.step (.call (.createProcess (some writerParams)))).isSome)
  have hkill : ((booted.step (.call (.pipe fun _ => 0))).bind fun S =>
      S.step (.call (.createProcess (some writerParams)))).map (fun S =>
        ((S.sched.processes 3).state, (S.sched.processes 3).fds.2,
          (S.killCloses 3).map Prod.fst)) = some (READY, 4, some 0) := by
    decide +kernel
  rw [hS'] at hkill
  rw [hS, Option.bind_some] at hS'
  simp only [Option.map_some, Option.some.injEq, Prod.mk.injEq] at hkill
  obtain ⟨hready, hfds, hcloses⟩ := hkill
  have hfirst : closesOwn (booted, nobody) (.call (.pipe fun _ => 0)) := by
    rintro fd p hhands - hfd
    -- every process has the descriptors 0 and 1, which are not given out
    have hboot : (booted.sched.processes p).fds = (0, 1) := boot_fds p
    dsimp only at hfd hhands
    rw [hboot] at hfd
    have hlow := hhands.pipe
    omega
  have hsecond : ∀ O, closesOwn (S, O) (.call (.createProcess (some writerParams))) :=
    fun _ => trivial
  have hthird : ∀ O, closesOwn (S', O) (.call (.kill 3)) := fun _ => trivial
  have hrun : Reaches OwnedStep closesOwn (booted, nobody) (S', _) :=
    ((Reaches.refl _).tail hfirst (ownedStep hS)).tail (hsecond _) (ownedStep hS')
  have hfor : S'.ClosesFor (.call (.kill 3)) 3 4 :=
    hfds ▸ closesFor_killCloses (by rw [hready]; decide) hcloses
  exact ⟨_, hrun, hfor, closes_owned _ _ _ hrun _ (hthird _) 3 4 hfor (by decide)⟩

/-- **The exit of a process closes an end of somebody else's pipe** that got the
number after the process had closed it. -/
theorem exit_closes_foreign : ¬∀ nodes blocks x,
    Reaches OwnedStep always (boot nodes blocks, nobody) x → ∀ e p fd,
      x.1.ClosesFor e p fd → 3 ≤ fd → x.2 fd p := by
  intro hall
  obtain ⟨S, hS⟩ := Option.isSome_iff_exists.mp (by decide +kernel :
    (exec step booted outputClosed).isSome)
  obtain ⟨S', hS'⟩ := Option.isSome_iff_exists.mp (by decide +kernel :
    ((exec step booted outputClosed).bind fun S => S.step (.call (.pipe fun _ => 0))).isSome)
  have hbefore : (exec step booted outputClosed).map (fun S =>
      (S.sched.currentProcess, (S.fileDescriptors 4).isOpen)) = some (some shellPid, false) := by
    decide +kernel
  have hafter : ((exec step booted outputClosed).bind fun S =>
      S.step (.call (.pipe fun _ => 0))).map (fun S =>
        ((S.sched.processes 3).state, (S.sched.processes 3).fds.2,
          (S.killCloses 3).map Prod.fst)) = some (BLOCKED, 4, some 0) := by
    decide +kernel
  rw [hS'] at hafter
  rw [hS] at hbefore hS'
  simp only [Option.map_some, Option.bind_some, Option.some.injEq,
    Prod.mk.injEq] at hbefore hafter hS'
  obtain ⟨hblocked, hfds, hcloses⟩ := hafter
  have hfor : S'.ClosesFor (.call (.kill 3)) 3 4 :=
    hfds ▸ closesFor_killCloses (by rw [hblocked]; decide) hcloses
  obtain ⟨O, hrun⟩ := exec_owned (O := nobody) hS
  obtain ⟨-, howned | ⟨-, hmaker, -⟩⟩ :=
    hall _ _ _ (hrun.tail trivial (ownedStep hS')) _ 3 4 hfor (by decide)
  · have hopen := owned_open hrun howned
    rw [hbefore.2] at hopen
    exact absurd hopen (by simp)
  · rw [hbefore.1] at hmaker
    exact absurd hmaker (by decide)

end Machine

end BareKernel.Kernel
