import BareKernel.Kernel.Preemption

/-!
# The calls of the kernel as events

What a call does to the scheduler is a list of small operations, and at the end
perhaps `switchContext`. The machine with registers and stacks can follow: every
step of the kernel is a list of its events.
-/

namespace BareKernel.Kernel.Interrupts

open X86 ProcessState Runs

/-- What the calls do to the scheduler, apart from `switchContext`. -/
inductive Operation (s : Sched) : Sched → Prop where
  | node : Operation s s.dropNode
  | blocks (outcomes : ℕ → Bool) : Operation s { s with blocks := outcomes }
  | isYield (isYield : Bool) : Operation s { s with isYield }
  | block {pid : ℤ} (hvalid : s.isValidPID pid) : Operation s (s.setState pid BLOCKED)
  | unblock (pid : ℤ) : Operation s (s.unblockProcess pid).2
  | create {pid : ℤ} {p : Process} (hexited : (s.processes pid).state = EXITED)
      (hc : s.currentProcess ≠ some pid) (hp : Fresh (s.processes pid) p) :
      Operation s ((s.setProcess pid p).schedule pid)
  | returned {pid : ℤ} (hc : s.currentProcess = some pid) (returnValue : Int32) :
      Operation s (s.setProcess pid { s.processes pid with waitReturnValue := returnValue })
  | kill {pid : ℤ} (hpid : initPid < pid ∧ pid ≤ maxPid) :
      Operation s ((s.unscheduleProcess pid).setProcess pid
        { (s.unscheduleProcess pid).processes pid with state := EXITED, argc := 0 })
  | priority (pid : ℤ) {priority : UInt32} (hpriority : checkPriority priority) :
      Operation s (s.setProcess pid { s.processes pid with
        priority := priority, originalPriority := priority, agingCounter := 0 })
  | waitPid (pid waitPid : ℤ) :
      Operation s (s.setProcess pid { s.processes pid with waitPid := waitPid })

/-- The CPU is not given away. -/
theorem Operation.currentProcess {s s' : Sched} (h : Operation s s') :
    s'.currentProcess = s.currentProcess := by
  cases h with
  | unblock => exact Sched.unblockProcess_currentProcess
  | create => exact Sched.schedule_currentProcess
  | _ => rfl

/-- The scheduler gets from one state to another by operations. -/
def Operates : Sched → Sched → Prop := Relation.ReflTransGen Operation

theorem Operates.currentProcess {s s' : Sched} (h : Operates s s') :
    s'.currentProcess = s.currentProcess := by
  induction h with
  | refl => rfl
  | tail _ hop ih => exact hop.currentProcess.trans ih

/-- A part of a call, between two interrupts. -/
def SwitchEvent.Part (s : Sched) (e : SwitchEvent) (s' : Sched) : Prop :=
  e ≠ .tick ∧ s' = e.onSched s ∧ Operates s s'

/-- The events of a call: the parts of its work, and at most one switch, at the end. -/
def Passes (s : Sched) (es : List SwitchEvent) (s' : Sched) : Prop :=
  ∃ works s₁, Trace SwitchEvent.Part SwitchEvent.Fits s works s₁ ∧
    (es = works ∧ s' = s₁ ∨ es = works ++ [.tick] ∧ s' = s₁.switchContext)

/-- The machine after these events. -/
def Live.after (F : Externs Tables) (timer : UInt64) (L : Live) (es : List SwitchEvent) : Live :=
  es.foldl (fun L e => L.step F timer e) L

section Schedulers

variable {s s' s₁ : Sched} {es : List SwitchEvent} {F : Externs Tables} {depth : ℕ}

theorem step_sched (hF : TimerCalls depth F) (timer : UInt64) (L : Live) (e : SwitchEvent) :
    (L.step F timer e).tables.sched = e.onSched L.tables.sched := by
  cases e with
  | tick => exact (step_tick_sched L timer hF).1
  | run cpu sched => rfl
  | create pid p => rfl

theorem parts_sched (hF : TimerCalls depth F) (timer : UInt64)
    (h : Trace SwitchEvent.Part SwitchEvent.Fits s es s') : ∀ {L : Live}, L.tables.sched = s →
      (L.after F timer es).tables.sched = s' := by
  induction h with
  | nil s => exact id
  | cons _ hpart _ ih =>
      intro L hL
      apply ih
      rw [step_sched hF timer L, hL]
      exact hpart.2.1.symm

/-- The machine follows the scheduler. -/
theorem passes_sched (hF : TimerCalls depth F) (timer : UInt64) (h : Passes s es s') {L : Live}
    (hL : L.tables.sched = s) : (L.after F timer es).tables.sched = s' := by
  obtain ⟨works, s₁, hworks, ⟨rfl, rfl⟩ | ⟨rfl, rfl⟩⟩ := h
  · exact parts_sched hF timer hworks hL
  · have hlast := parts_sched hF timer hworks hL
    unfold Live.after at hlast ⊢
    rw [List.foldl_append, List.foldl_cons, List.foldl_nil, step_sched hF timer, hlast]
    rfl

theorem parts_current (h : Trace SwitchEvent.Part SwitchEvent.Fits s es s') :
    s'.currentProcess = s.currentProcess := by
  induction h with
  | nil s => rfl
  | cons _ hpart _ ih => exact ih.trans hpart.2.2.currentProcess

/-- The CPU changes hands in a switch only. -/
theorem Passes.switches (h : Passes s es s') (hchange : s'.currentProcess ≠ s.currentProcess) :
    ∃ works, es = works ++ [.tick] := by
  obtain ⟨works, s₁, hworks, ⟨rfl, rfl⟩ | ⟨rfl, rfl⟩⟩ := h
  · exact absurd (parts_current hworks) hchange
  · exact ⟨works, rfl⟩

theorem Passes.refl (s : Sched) : Passes s [] s := ⟨[], s, .nil s, .inl ⟨rfl, rfl⟩⟩

/-- Parts of work come first. -/
theorem Passes.behind {works : List SwitchEvent}
    (hworks : Trace SwitchEvent.Part SwitchEvent.Fits s works s₁) (h : Passes s₁ es s') :
    Passes s (works ++ es) s' := by
  obtain ⟨more, s₂, hmore, ⟨rfl, rfl⟩ | ⟨rfl, rfl⟩⟩ := h
  · exact ⟨works ++ es, _, hworks.append hmore, .inl ⟨rfl, rfl⟩⟩
  · exact ⟨works ++ more, _, hworks.append hmore, .inr ⟨(List.append_assoc _ _ _).symm, rfl⟩⟩

/-- Work, as one event. -/
theorem works_trace (h : Works s s') (hop : Operates s s') (cpu : Cpu) :
    Trace SwitchEvent.Part SwitchEvent.Fits s [.run cpu s'] s' :=
  .cons h ⟨by simp, rfl, hop⟩ (.nil s')

theorem passes_works (h : Works s s') (hop : Operates s s') (cpu : Cpu) :
    Passes s [.run cpu s'] s' := ⟨_, _, works_trace h hop cpu, .inl ⟨rfl, rfl⟩⟩

/-- Work that ends in a switch. -/
theorem passes_switch (h : Works s s') (hop : Operates s s') (cpu : Cpu) :
    Passes s [.run cpu s', .tick] s'.switchContext :=
  ⟨_, _, works_trace h hop cpu, .inr ⟨rfl, rfl⟩⟩

end Schedulers

/-! ## The actions -/

section Kernel

open Machine

variable {s s' : Sched} {S S' : Machine} {a : Act} {c pid : ℤ}

theorem operates_of_eq (h : s' = s) : Operates s s' := by
  rw [h]
  exact Relation.ReflTransGen.refl

/-- Somebody has the CPU, and keeps it. -/
theorem works_current (hc : s.currentProcess = some c)
    (hcurrent : s'.currentProcess = s.currentProcess)
    (hexited : ∀ pid, (s.processes pid).state = EXITED → (s'.processes pid).state = EXITED)
    (hready : (s'.processes c).state ≠ READY) : Works s s' := by
  refine ⟨hcurrent, hexited, fun d hd => ?_, Sched.settled_of_some (hcurrent.trans hc)⟩
  obtain rfl : c = d := Option.some.inj (hc.symm.trans (hcurrent.symm.trans hd))
  exact hready

/-- `blockProcess`, of somebody else or of oneself. -/
theorem passes_block (hc : s.currentProcess = some c) (hready : (s.processes c).state ≠ READY)
    (hvalid : s.isValidPID pid) (cpu : Cpu) : ∃ es, Passes s es (s.blockProcess pid).2 := by
  have hlive := (Sched.isValidPID_iff.mp hvalid).2.2
  have hexited : ∀ q, (s.processes q).state = EXITED →
      ((s.setState pid BLOCKED).processes q).state = EXITED := by
    intro q hq
    have hne : q ≠ pid := by
      rintro rfl
      exact hlive hq
    rwa [Sched.setState, Sched.setProcess_of_ne hne]
  have hblocked : ((s.setState pid BLOCKED).processes c).state ≠ READY := by
    by_cases hcpid : c = pid
    · subst hcpid
      rw [Sched.setState_state]
      decide
    · rwa [Sched.setState, Sched.setProcess_of_ne hcpid]
  have hop : Operates s (s.setState pid BLOCKED) := Relation.ReflTransGen.single (.block hvalid)
  rw [Sched.blockProcess_of_valid hvalid]
  split
  · have hworks : Works s { s.setState pid BLOCKED with isYield := true } :=
      works_current hc rfl hexited hblocked
    exact ⟨_, passes_switch hworks (hop.tail (.isYield true)) cpu⟩
  · have hworks : Works s (s.setState pid BLOCKED) := works_current hc rfl hexited hblocked
    exact ⟨_, passes_works hworks hop cpu⟩

/-- The actions that neither switch nor create are operations. -/
theorem operates_does (hd : S.Does a S') (hquiet : a.quiet) (hnew : ∀ pid, a ≠ .create pid) :
    Operates S.sched S'.sched := by
  cases hd with
  | switch => exact hquiet.elim
  | block => exact hquiet.elim
  | waitBlock => exact hquiet.elim
  | sleep => exact hquiet.elim
  | @create pid => exact absurd rfl (hnew pid)
  | blocks => exact Relation.ReflTransGen.single (.blocks _)
  | unblock => exact Relation.ReflTransGen.single (.unblock _)
  | returned hc => exact Relation.ReflTransGen.single (.returned hc _)
  | kill _ hpid => exact Relation.ReflTransGen.single (.kill hpid)
  | killWake =>
      unfold Machine.killWake
      dsimp only
      split
      · exact operates_of_eq rfl
      · exact (Relation.ReflTransGen.single (.unblock _)).tail (.waitPid _ _)
  | priority _ hpriority => exact Relation.ReflTransGen.single (.priority _ hpriority)
  | semCreate => exact Relation.ReflTransGen.single (.blocks _)
  | wake => exact Relation.ReflTransGen.single (.unblock _)
  | _ => exact operates_of_eq rfl

/-- They leave the CPU with whoever has it, and revive nobody. -/
theorem works_does (h : S.Base) (hd : S.Does a S') (hquiet : a.quiet)
    (hnew : ∀ pid, a ≠ .create pid) : Works S.sched S'.sched := by
  have h' := h.does hd
  refine ⟨hd.quiet_current hquiet, fun q hq => ?_, fun d hd' => ?_, h'.sound.settled⟩
  · by_cases hkill : a = .kill q
    · subst hkill
      cases hd with
      | kill => exact killStart_state S q _
    · exact (hd.exited h (hnew q) hkill).mpr hq
  · rcases h'.busy d hd' with hrun | ⟨hover, _⟩
    · rw [hrun]
      decide
    · rw [hover]
      decide

/-- The actions before the last one are parts of work. -/
theorem parts_does (h : S.Base) (hd : S.Does a S') (hquiet : a.quiet) (cpu : Cpu) :
    ∃ es, Trace SwitchEvent.Part SwitchEvent.Fits S.sched es S'.sched := by
  by_cases hnew : ∀ pid, a ≠ .create pid
  · exact ⟨_, works_trace (works_does h hd hquiet hnew) (operates_does hd hquiet hnew) cpu⟩
  · obtain ⟨pid, rfl⟩ : ∃ pid, a = .create pid := by
      by_contra hall
      exact hnew fun pid heq => hall ⟨pid, heq⟩
    cases hd with
    | create _ hexited hc hp =>
        have hop := Relation.ReflTransGen.single (Operation.create hexited hc hp)
        exact ⟨[.create _ _], .cons ⟨hexited, hc, hp.state⟩ ⟨by simp, rfl, hop⟩ (.nil _)⟩

/-- Whoever waits for a process is noted, and blocked. -/
theorem passes_wait {target : ℤ} (h : S.Base) (hc : S.sched.currentProcess = some pid)
    (hf : ∀ stage, S.frames pid ≠ .exiting stage) (cpu : Cpu) :
    ∃ es, Passes S.sched es ((S.sched.setProcess target
      { S.sched.processes target with waitPid := pid }).blockProcess pid).2 := by
  let s₁ := S.sched.setProcess target { S.sched.processes target with waitPid := pid }
  have hstate : ∀ q, (s₁.processes q).state = (S.sched.processes q).state := by
    intro q
    show ((S.sched.setProcess target _).processes q).state = _
    by_cases hq : q = target
    · subst hq
      rw [Sched.setProcess_self]
    · rw [Sched.setProcess_of_ne hq]
  have hrun : (s₁.processes pid).state = RUNNING := (hstate pid).trans (h.running hc hf)
  have hvalid : s₁.isValidPID pid := by
    obtain ⟨hpos, hle⟩ := h.sound.current pid hc
    exact Sched.isValidPID_iff.mpr ⟨hpos, hle, by rw [hrun]; decide⟩
  have hworks : Works S.sched s₁ :=
    works_current hc rfl (fun q hq => (hstate q).trans hq) (by rw [hrun]; decide)
  have hop : Operates S.sched s₁ := Relation.ReflTransGen.single (.waitPid _ _)
  obtain ⟨es, hes⟩ := passes_block (s := s₁) hc (by rw [hrun]; decide) hvalid cpu
  exact ⟨_, hes.behind (works_trace hworks hop cpu)⟩

/-- Whoever sleeps in `semWait` is put in the queue, and blocked. -/
theorem passes_sleep {semId : ℕ} (h : S.Base) (hc : S.sched.currentProcess = some pid)
    (hf : ∀ stage, S.frames pid ≠ .exiting stage) (cpu : Cpu) :
    ∃ es, Passes S.sched es ((S.enlist pid semId).sched.blockProcess pid).2 := by
  have hrun := h.running hc hf
  have hvalid := h.valid hc hf
  rcases S.enlist_sched pid semId with heq | heq
  · rw [heq]
    exact passes_block hc (by rw [hrun]; decide) hvalid cpu
  · rw [heq]
    have hworks : Works S.sched S.sched.dropNode :=
      works_current hc rfl (fun _ hq => hq) (by rw [Sched.dropNode, hrun]; decide)
    have hop : Operates S.sched S.sched.dropNode := Relation.ReflTransGen.single .node
    obtain ⟨es, hes⟩ := passes_block (s := S.sched.dropNode) hc
      (by rw [Sched.dropNode, hrun]; decide) hvalid cpu
    exact ⟨_, hes.behind (works_trace hworks hop cpu)⟩

/-- The last action of a step. -/
theorem passes_does (h : S.Base) (hd : S.Does a S') (hlast : ¬a.quiet) (cpu : Cpu) :
    ∃ es, Passes S.sched es S'.sched := by
  cases hd with
  | @switch isYield =>
      have hworks : Works S.sched { S.sched with isYield } := by
        refine ⟨rfl, fun _ hq => hq, fun d hd => ?_, h.sound.settled⟩
        rcases h.busy d hd with hrun | ⟨hover, _⟩
        · rw [hrun]
          decide
        · rw [hover]
          decide
      exact ⟨_, passes_switch hworks (Relation.ReflTransGen.single (.isYield _)) cpu⟩
  | block hc hf hvalid =>
      have hrun := h.running hc fun stage heq => by simp [hf] at heq
      exact passes_block hc (by rw [hrun]; decide) hvalid cpu
  | waitBlock hc hf => exact passes_wait h hc (fun stage heq => by simp [hf] at heq) cpu
  | sleep hc hf => exact passes_sleep h hc (Frame.working_ne_exiting hf) cpu
  | _ => exact absurd trivial hlast

/-- A step is parts of work, and perhaps a switch at its end. -/
theorem passes_ends {ok : Act → Prop} (h : S.Base) (hends : Ends ok S S') (cpu : Cpu) :
    ∃ es, Passes S.sched es S'.sched := by
  obtain ⟨M, hpath, hlast⟩ := hends
  have hparts : M.Base ∧ ∃ es, Trace SwitchEvent.Part SwitchEvent.Fits S.sched es M.sched := by
    apply hpath.invariant (I := fun M => M.Base ∧
      ∃ es, Trace SwitchEvent.Part SwitchEvent.Fits S.sched es M.sched)
    · exact ⟨h, [], .nil _⟩
    · rintro M a M' ⟨hM, es, hes⟩ ha hd
      obtain ⟨es', hes'⟩ := parts_does hM hd ha.2 cpu
      exact ⟨hM.does hd, _, hes.append hes'⟩
  obtain ⟨hM, works, hworks⟩ := hparts
  rcases hlast with rfl | ⟨a, -, hlast, hd⟩
  · exact ⟨_, (Passes.refl S'.sched).behind hworks⟩
  · obtain ⟨es, hes⟩ := passes_does hM hd hlast cpu
    exact ⟨_, hes.behind hworks⟩

theorem base_reaches {nodes blocks : ℕ → Bool}
    (hreach : Reaches Machine.Step always (boot nodes blocks) S) : S.Base :=
  hreach.invariant (I := Base) (boot_path.base base_off) fun _ _ _ hM _ hstep => hM.step hstep

/-- **The machine with registers follows the kernel**: whatever a call does to the
scheduler, it does it by its operations and with at most one switch, at its end, without
which the CPU stays where it is. The machine whose tables hold the scheduler gets to the
same scheduler by these events, of which the switch is an interrupt of the timer. -/
theorem kernel_passes {F : Externs Tables} {depth : ℕ} (hF : TimerCalls depth F)
    (timer : UInt64) (cpu : Cpu) (nodes blocks : ℕ → Bool) (S S' : Machine) (e : Event)
    (hreach : Reaches Machine.Step always (boot nodes blocks) S) (hstep : S.Step e S') :
    ∃ es, Passes S.sched es S'.sched ∧
      (S'.sched.currentProcess ≠ S.sched.currentProcess → ∃ works, es = works ++ [.tick]) ∧
      ∀ L : Live, L.tables.sched = S.sched → (L.after F timer es).tables.sched = S'.sched := by
  have hbase := base_reaches hreach
  obtain ⟨es, hes⟩ := passes_ends hbase (step_ends hbase hstep) cpu
  exact ⟨es, hes, hes.switches, fun L hL => passes_sched hF timer hes hL⟩

/-- The shell opens a semaphore of value 0. -/
def opensZero : Option Machine := booted.step (.call (.semOpen nameA 0))

/-- **The shell falls asleep** in `semWait`, and a switch gives the CPU to init. -/
theorem kernel_passes_asleep : ∃ S S' works, booted.Step (.call (.semOpen nameA 0)) S ∧
    S.Step (.call (.semWait 3)) S' ∧ S.sched.currentProcess = some shellPid ∧
      S'.sched.currentProcess = some initPid ∧ Passes S.sched (works ++ [.tick]) S'.sched ∧
      ∀ L : Live, L.tables.sched = S.sched →
        (L.after switchKernel timerGate (works ++ [.tick])).tables.sched = S'.sched := by
  obtain ⟨⟨S, S'⟩, hall⟩ := Option.isSome_iff_exists.mp (by decide +kernel :
    (opensZero.bind fun S => (S.step (.call (.semWait 3))).map fun S' => (S, S')).isSome)
  have hfacts : (opensZero.bind fun S => (S.step (.call (.semWait 3))).map fun S' =>
      (S, S')).map (fun (S, S') => (S.sched.currentProcess, S'.sched.currentProcess)) =
      some (some 2, some 1) := by
    decide +kernel
  rw [hall] at hfacts
  simp only [Option.map_some, Option.some.injEq, Prod.mk.injEq] at hfacts
  simp only [opensZero, Option.bind_eq_some_iff, Option.map_eq_some_iff, Prod.mk.injEq] at hall
  obtain ⟨S, hopen, S', hwait, rfl, rfl⟩ := hall
  obtain ⟨hbefore, hafter⟩ := hfacts
  obtain ⟨es, hes, hswitch, hlive⟩ := kernel_passes (switchKernel_calls 0) timerGate program
    (fun _ => true) (fun _ => true) S S' (.call (.semWait 3))
    ((Reaches.refl booted).tail trivial hopen) hwait
  obtain ⟨works, rfl⟩ := hswitch (by rw [hafter, hbefore]; decide)
  exact ⟨S, S', works, hopen, hwait, hbefore, hafter, hes, hlive⟩

end Kernel

end BareKernel.Kernel.Interrupts
