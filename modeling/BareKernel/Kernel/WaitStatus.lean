import BareKernel.Kernel.LostWaiters
import BareKernel.Kernel.StepPosts
import BareKernel.Kernel.UserBlocks
import BareKernel.Kernel.WakeUps

/-!
# What `wait` delivers

The caller of `waitProcess` reads the result of its target from the slot of the
target, behind the switches in which it slept, and it asks nothing again. What it
reads is the result of the process that it waited for as long as nobody else
wakes it, and nobody that returned something else had the slot meanwhile. When
the target is over before the call the status is zero, whatever it returned.
-/

namespace BareKernel.Kernel

open ProcessState Runs

/-! ## What the trace says about a process -/

namespace Obs

/-- The lives of the processes, and the calls of `wait`. -/
def ofLife : Obs → Bool
  | .created _ | .returned _ _ | .ended _ | .waitCalled _ _ | .waitReturned _ _ _ => true
  | _ => false

/-- With what `entry` of the process returned. -/
def result (p : ℤ) : Obs → Option Int32
  | .returned q r => if q = p then some r else none
  | _ => none

end Obs

section Lives

variable {w p : ℤ} {o : Obs} {t t' : List Obs}

/-- With what the last process in the slot has returned. The newest observation stands first. -/
def result (p : ℤ) : List Obs → Option Int32
  | [] => none
  | o :: t => if o = .created p then none else (o.result p).or (result p t)

/-- Whether the last process in the slot is over, and then with what it returned, if it did. -/
def outcome (p : ℤ) : List Obs → Option (Option Int32)
  | [] => none
  | o :: t =>
      if o = .created p then none else if o = .ended p then some (result p t) else outcome p t

/-- The outcome of the process that was in the slot when `w` called `wait(p)` for the last
time. Another process may have the slot by now. -/
def fate (w p : ℤ) : List Obs → Option (Option Int32)
  | [] => none
  | o :: t => if o = .waitCalled w p then outcome p t else (fate w p t).or (outcome p (o :: t))

/-- **Every return of `wait`** comes behind the end of the process that was waited for, and
delivers what it returned with. -/
def StatusRight (t : List Obs) : Prop :=
  ∀ w p status before, .waitReturned w p status :: before <:+ t → .created p ∈ before →
    ∃ f, fate w p before = some f ∧ ∀ r, f = some r → ∀ v, status = some v → v = r

theorem result_created : result p (.created p :: t) = none := if_pos rfl

theorem result_returned {r : Int32} : result p (.returned p r :: t) = some r := by
  simp [result, Obs.result]

theorem result_other (hcreated : o ≠ .created p) (hreturned : o.result p = none) :
    result p (o :: t) = result p t := by
  simp [result, hcreated, hreturned]

theorem outcome_created : outcome p (.created p :: t) = none := if_pos rfl

theorem outcome_ended : outcome p (.ended p :: t) = some (result p t) := by
  simp [outcome]

theorem outcome_other (hcreated : o ≠ .created p) (hended : o ≠ .ended p) :
    outcome p (o :: t) = outcome p t := by
  simp [outcome, hcreated, hended]

theorem fate_called : fate w p (.waitCalled w p :: t) = outcome p t := if_pos rfl

theorem fate_cons (ho : o ≠ .waitCalled w p) :
    fate w p (o :: t) = (fate w p t).or (outcome p (o :: t)) := if_neg ho

theorem fate_some {f : Option Int32} (ho : o ≠ .waitCalled w p) (h : fate w p t = some f) :
    fate w p (o :: t) = some f := by
  rw [fate_cons ho, h, Option.some_or]

theorem fate_none (ho : o ≠ .waitCalled w p) (h : fate w p (o :: t) = none) :
    fate w p t = none := by
  rw [fate_cons ho, Option.or_eq_none_iff] at h
  exact h.1

/-- As long as the process that was waited for is not over, it has the slot. -/
theorem outcome_of_fate (hcalled : .waitCalled w p ∈ t) (h : fate w p t = none) :
    outcome p t = none := by
  cases t with
  | nil => rfl
  | cons o t =>
      by_cases ho : o = .waitCalled w p
      · subst ho
        rw [fate_called] at h
        rw [outcome_other (by simp) (by simp)]
        exact h
      · rw [fate_cons ho, Option.or_eq_none_iff] at h
        exact h.2

/-- An observation of something else. -/
theorem fate_other (hcalled : .waitCalled w p ∈ t) (ho : o ≠ .waitCalled w p)
    (hcreated : o ≠ .created p) (hended : o ≠ .ended p) : fate w p (o :: t) = fate w p t := by
  rw [fate_cons ho, outcome_other hcreated hended]
  cases hfate : fate w p t with
  | none => rw [outcome_of_fate hcalled hfate, Option.or_none]
  | some f => rw [Option.some_or]

theorem statusRight_nil : StatusRight [] := by
  intro w p status before hbefore
  exact absurd hbefore (by simp)

theorem StatusRight.cons (h : StatusRight t) (ho : ∀ w p status, o = .waitReturned w p status →
    .created p ∈ t → ∃ f, fate w p t = some f ∧ ∀ r, f = some r → ∀ v, status = some v → v = r) :
    StatusRight (o :: t) := by
  intro w p status before hbefore hcreated
  rcases List.suffix_cons_iff.mp hbefore with heq | hsuffix
  · rw [List.cons.injEq] at heq
    obtain ⟨rfl, rfl⟩ := heq
    exact ho w p status rfl hcreated
  · exact h w p status before hsuffix hcreated

end Lives

/-- The process whose status a call of `waitProcess` is going to deliver. -/
def Frame.wants : Frame → Option ℤ
  | .waitBlock target true | .waitForced target true => some target
  | _ => none

theorem Frame.awaits_of_wants {f : Frame} {p : ℤ} (h : f.wants = some p) : f.awaits = some p := by
  unfold Frame.wants at h
  split at h <;> simp_all [Frame.awaits]

namespace Machine

variable {S S' M : Machine} {a : Act} {e : Event} {c p q w pid : ℤ} {t : List Obs}

/-- What has happened to the processes. -/
def lives (S : Machine) : List Obs := S.trace.filter Obs.ofLife

theorem note_lives (S : Machine) {o : Obs} (ho : o.ofLife = true) :
    (S.note o).lives = o :: S.lives := by
  unfold lives
  rw [note_trace, List.filter_cons_of_pos ho]

theorem note_other (S : Machine) {o : Obs} (ho : o.ofLife = false) :
    (S.note o).lives = S.lives := by
  unfold lives
  rw [note_trace, List.filter_cons_of_neg (by simp [ho])]

theorem lives_congr (h : S'.trace = S.trace) : S'.lives = S.lives := by
  unfold lives
  rw [h]

/-! ## The rules -/

/-- The event wakes the process if it is blocked: by `sys_unblock`, by a semaphore in whose
queue it stands, or with the end of a process that has it in its `waitPid`. -/
def Rouses (S : Machine) (w : ℤ) (e : Event) : Prop :=
  (∃ semId ∈ S.posts e ++ S.destroys e, w ∈ S.waiters semId.toNat) ∨
  match e with
  | .call (.unblock pid) => pid = w
  | .call (.semSetValue semId value) => w ∈ (S.waiters semId.toNat).take
      (value - (S.sems.sems semId.toNat).value).toInt.toNat
  | .call (.kill pid) => (S.sched.processes pid).state ≠ EXITED ∧
      (S.sched.processes pid).waitPid = w
  | .resume => ∃ pid ∈ S.sched.currentProcess,
      S.frames pid = .exiting .wake ∧ (S.sched.processes pid).waitPid = w
  | _ => False

/-- Nobody that is blocked in `waitProcess` is woken while its target lives, but by a kill of
the target; a call for a process that is over finds that it returned zero, if it returned; and
nobody returns something else from a slot whose last result has not been read yet. -/
def keepsStatus (S : Machine) (e : Event) : Prop :=
  (∀ w p, S.Waits w p → (S.sched.processes p).state ≠ EXITED → e.victim ≠ some p →
    ¬S.Rouses w e) ∧
  match e with
  | .call (.wait target true) => (S.sched.processes target).state = EXITED →
      ∀ r, outcome target S.lives = some (some r) → r = 0
  | .exit r => ∀ c, S.sched.currentProcess = some c → ∀ w r', (S.frames w).wants = some c →
      fate w c S.lives = some (some r') → r' = r
  | _ => True

/-! ## What the actions leave -/

/-- What the actions record about the lives of processes. -/
def Act.lively : Act → Prop
  | .create _ | .returned _ _ | .kill _ | .waitBlock _ _ _ | .waitGone _ _ _ | .waitRead _ _ _ =>
      True
  | _ => False

theorem Does.lives (hd : S.Does a S') (ha : ¬Act.lively a) : S'.lives = S.lives := by
  cases hd with
  | create => exact absurd trivial ha
  | returned => exact absurd trivial ha
  | kill => exact absurd trivial ha
  | waitBlock => exact absurd trivial ha
  | waitGone => exact absurd trivial ha
  | waitRead => exact absurd trivial ha
  | killWake => exact lives_congr (killWake_trace _ _)
  | semCreate => exact note_other _ rfl
  | sleep => exact lives_congr (enlist_trace _ _ _)
  | take => exact note_other _ rfl
  | post => exact note_other _ rfl
  | set => exact note_other _ rfl
  | destroy => exact note_other _ rfl
  | @moved o ho =>
      apply note_other
      cases o <;> first | rfl | exact ho.elim
  | _ => rfl

/-- **Only `processLoader` writes a result**, and the next process in the slot keeps it. -/
theorem Does.waitReturnValue (hbase : S.Base) (hd : S.Does a S')
    (ha : ∀ r, a ≠ .returned p r) :
    (S'.sched.processes p).waitReturnValue = (S.sched.processes p).waitReturnValue := by
  have hset : ∀ {s : Sched} {q : ℤ} {b : Process},
      b.waitReturnValue = (s.processes q).waitReturnValue →
        ((s.setProcess q b).processes p).waitReturnValue = (s.processes p).waitReturnValue := by
    intro s q b hb
    by_cases hq : p = q
    · subst hq
      rw [Sched.setProcess_self, hb]
    · rw [Sched.setProcess_of_ne hq]
  cases hd with
  | @switch isYield =>
      exact (Sched.switchContext_quiet (s := { S.sched with isYield := isYield })
        hbase.sound.settled).waitReturnValue p
  | block hc _ hvalid =>
      exact ((Sched.blockProcess_quiet hc hvalid).waitReturnValue p).trans (hset rfl)
  | unblock => exact Sched.unblockProcess_waitReturnValue
  | @create q b _ _ _ hb =>
      change (((S.sched.setProcess q b).schedule q).processes p).waitReturnValue = _
      rw [Sched.schedule_processes]
      exact hset hb.waitReturnValue
  | @returned q r =>
      have hq : p ≠ q := by
        rintro rfl
        exact ha r rfl
      change ((S.sched.setProcess q _).processes p).waitReturnValue = _
      rw [Sched.setProcess_of_ne hq]
  | @kill c q stage =>
      change (((S.sched.unscheduleProcess q).setProcess q _).processes p).waitReturnValue = _
      refine (hset ?_).trans ?_
      · rfl
      · rw [Sched.unscheduleProcess_processes]
  | @killWake c q =>
      unfold Machine.killWake
      dsimp only
      split
      · rfl
      · rw [onSched_sched]
        refine (hset ?_).trans Sched.unblockProcess_waitReturnValue
        rfl
  | priority => exact hset rfl
  | @waitBlock q target wstatus hc hf =>
      have hquiet := Sched.blockProcess_quiet (s := S.sched.setProcess target
        { S.sched.processes target with waitPid := q }) hc (waitFor_valid hbase hc hf target)
      refine (hquiet.waitReturnValue p).trans ?_
      unfold Sched.setState
      refine (hset ?_).trans (hset ?_)
      · rfl
      · rfl
  | @sleep q semId k hc hf =>
      have hsched : (S.enlist q semId).sched.processes = S.sched.processes ∧
          (S.enlist q semId).sched.currentProcess = S.sched.currentProcess := by
        rcases enlist_sched S q semId with heq | heq <;> rw [heq] <;> exact ⟨rfl, rfl⟩
      have hquiet := Sched.blockProcess_quiet (hsched.2.trans hc) (enlist_valid hbase hc hf semId)
      refine (hquiet.waitReturnValue p).trans ?_
      unfold Sched.setState
      refine (hset ?_).trans ?_
      · rfl
      · rw [hsched.1]
  | wake => exact Sched.unblockProcess_waitReturnValue
  | _ => rfl

/-- Nobody gets into `waitProcess` but by a call, and who is in it goes on by itself only. -/
theorem Does.awaits (hd : S.Does a S') (ha : ∀ target wstatus, a ≠ .waitBlock w target wstatus)
    (h : (S'.frames w).awaits = some p) : (S.frames w).awaits = some p ∧
      (S'.frames w).wants = (S.frames w).wants ∧ (S'.frames w = S.frames w ∨ a = .frame w) := by
  have hkept : S'.frames w = S.frames w → (S.frames w).awaits = some p ∧
      (S'.frames w).wants = (S.frames w).wants ∧ (S'.frames w = S.frames w ∨ a = .frame w) := by
    intro heq
    rw [heq] at h ⊢
    exact ⟨h, rfl, .inl rfl⟩
  have hupdate : ∀ {q : ℤ} {f : Frame}, f.awaits = none →
      S'.frames = Function.update S.frames q f → S'.frames w = S.frames w := by
    intro q f hf hframes
    rw [hframes] at h ⊢
    by_cases hw : w = q
    · subst hw
      rw [Function.update_self, hf] at h
      exact absurd h (by simp)
    · rw [Function.update_of_ne hw]
  cases hd with
  | create => exact hkept (hupdate (f := .user) rfl rfl)
  | @kill c q stage => exact hkept (hupdate (f := .exiting stage) rfl rfl)
  | killWake => exact hkept (congrFun (killWake_frames _ _) w)
  | @waitBlock q target wstatus =>
      have hw : w ≠ q := by
        rintro rfl
        exact ha target wstatus rfl
      apply hkept
      exact Function.update_of_ne hw _ _
  | waitRead => exact hkept (hupdate (f := .user) rfl rfl)
  | @frame q f hc hf =>
      by_cases hw : w = q
      · subst hw
        rw [setFrame_frames, Function.update_self] at h ⊢
        generalize S.frames w = f₀ at hf
        cases hf with
        | work _ hg =>
            exfalso
            cases f <;> simp_all [Frame.awaits, Frame.working]
        | @forced target wstatus =>
            refine ⟨h, ?_, .inr rfl⟩
            cases wstatus <;> rfl
        | exiting => exact absurd h (by simp [Frame.awaits])
      · exact hkept (Function.update_of_ne hw _ _)
  | @sleep q semId k =>
      apply hkept
      apply hupdate (q := q) (f := .semWait semId k) rfl
      change Function.update (S.enlist q semId).frames q (.semWait semId k) = _
      rw [enlist_frames]
  | _ => exact hkept rfl

/-! ## The invariant -/

/-- The trace agrees with the table: who is alive was created and is not over, and what the
last process in a slot returned with is still there. Whoever waits for a process called for
it while it was alive, and finds its result as long as the process has returned one. -/
structure Known (S : Machine) (t : List Obs) : Prop where
  alive : ∀ p, (S.sched.processes p).state ≠ EXITED → .created p ∈ t ∧ outcome p t = none
  gone : ∀ p, (S.sched.processes p).state = EXITED → .created p ∈ t → outcome p t ≠ none
  value : ∀ p r, result p t = some r → (S.sched.processes p).waitReturnValue = r
  last : ∀ p f, outcome p t = some f → result p t = f
  waits : ∀ w p, (S.frames w).awaits = some p →
    (S.sched.processes w).state ≠ EXITED ∧ .waitCalled w p ∈ t ∧ .created p ∈ t
  wants : ∀ w p, (S.frames w).wants = some p → ∀ r, fate w p t = some (some r) →
    (S.sched.processes p).waitReturnValue = r

/-- Nothing changes that the trace speaks of, or somebody has just called `wait`. -/
theorem Known.move (h : S.Known t)
    (hover : ∀ p, (S'.sched.processes p).state = EXITED ↔ (S.sched.processes p).state = EXITED)
    (hvalue : ∀ p, (S'.sched.processes p).waitReturnValue = (S.sched.processes p).waitReturnValue)
    (hframes : ∀ w p, (S'.frames w).awaits = some p →
      (S.frames w).awaits = some p ∧ (S'.frames w).wants = (S.frames w).wants ∨
        (S.sched.processes w).state ≠ EXITED ∧ .waitCalled w p ∈ t ∧ .created p ∈ t ∧
          fate w p t = none) : S'.Known t := by
  constructor
  · intro p hp
    exact h.alive p ((not_congr (hover p)).mp hp)
  · intro p hp
    exact h.gone p ((hover p).mp hp)
  · intro p r hr
    exact (hvalue p).trans (h.value p r hr)
  · exact h.last
  · intro w p hw
    rcases hframes w p hw with ⟨hbefore, _⟩ | ⟨hlive, hcall, hmem, _⟩
    · obtain ⟨hlive, hrest⟩ := h.waits w p hbefore
      exact ⟨(not_congr (hover w)).mpr hlive, hrest⟩
    · exact ⟨(not_congr (hover w)).mpr hlive, hcall, hmem⟩
  · intro w p hw r hr
    rcases hframes w p (Frame.awaits_of_wants hw) with ⟨_, hsame⟩ | ⟨_, _, _, hnone⟩
    · rw [hsame] at hw
      exact (hvalue p).trans (h.wants w p hw r hr)
    · rw [hnone] at hr
      exact absurd hr (by simp)

/-- A call of `wait` or its return, and the caller waits for nobody else. -/
theorem Known.note {o : Obs} (h : S.Known t) (hcreated : ∀ p, o ≠ .created p)
    (hended : ∀ p, o ≠ .ended p) (hresult : ∀ p, o.result p = none)
    (hcalled : ∀ w p, (S.frames w).awaits = some p → o ≠ .waitCalled w p) : S.Known (o :: t) := by
  constructor
  · intro p hp
    rw [outcome_other (hcreated p) (hended p)]
    exact ⟨List.mem_cons_of_mem _ (h.alive p hp).1, (h.alive p hp).2⟩
  · intro p hp hmem
    rw [outcome_other (hcreated p) (hended p)]
    apply h.gone p hp
    exact (List.mem_cons.mp hmem).resolve_left fun heq => hcreated p heq.symm
  · intro p r hr
    rw [result_other (hcreated p) (hresult p)] at hr
    exact h.value p r hr
  · intro p f hf
    rw [outcome_other (hcreated p) (hended p)] at hf
    rw [result_other (hcreated p) (hresult p)]
    exact h.last p f hf
  · intro w p hw
    obtain ⟨hlive, hcall, hmem⟩ := h.waits w p hw
    exact ⟨hlive, List.mem_cons_of_mem _ hcall, List.mem_cons_of_mem _ hmem⟩
  · intro w p hw r hr
    have hawaits := Frame.awaits_of_wants hw
    rw [fate_other (h.waits w p hawaits).2.1 (hcalled w p hawaits) (hcreated p) (hended p)] at hr
    exact h.wants w p hw r hr

/-- A process is created: its result is not known yet, and the results of the last process in
the slot stay what they are for those that wait for it. -/
theorem Known.create (h : S.Known t) (hpid : (S.sched.processes pid).state = EXITED)
    (hlive : (S'.sched.processes pid).state ≠ EXITED)
    (hover : ∀ p, p ≠ pid →
      ((S'.sched.processes p).state = EXITED ↔ (S.sched.processes p).state = EXITED))
    (hvalue : ∀ p, (S'.sched.processes p).waitReturnValue = (S.sched.processes p).waitReturnValue)
    (hframes : ∀ w p, (S'.frames w).awaits = some p → (S.frames w).awaits = some p ∧
      (S'.frames w).wants = (S.frames w).wants) : S'.Known (.created pid :: t) := by
  have hold : ∀ p, p ≠ pid → Obs.created pid ≠ .created p := by
    intro p hp heq
    exact hp (Obs.created.inj heq).symm
  constructor
  · intro p hp
    by_cases heq : p = pid
    · subst heq
      exact ⟨List.mem_cons_self, outcome_created⟩
    · rw [outcome_other (hold p heq) (by simp)]
      obtain ⟨hmem, hnone⟩ := h.alive p ((not_congr (hover p heq)).mp hp)
      exact ⟨List.mem_cons_of_mem _ hmem, hnone⟩
  · intro p hp hmem
    have heq : p ≠ pid := by
      rintro rfl
      exact hlive hp
    rw [outcome_other (hold p heq) (by simp)]
    apply h.gone p ((hover p heq).mp hp)
    exact (List.mem_cons.mp hmem).resolve_left (hold p heq).symm
  · intro p r hr
    by_cases heq : p = pid
    · subst heq
      rw [result_created] at hr
      exact absurd hr (by simp)
    · rw [result_other (hold p heq) rfl] at hr
      exact (hvalue p).trans (h.value p r hr)
  · intro p f hf
    by_cases heq : p = pid
    · subst heq
      rw [outcome_created] at hf
      exact absurd hf (by simp)
    · rw [outcome_other (hold p heq) (by simp)] at hf
      rw [result_other (hold p heq) rfl]
      exact h.last p f hf
  · intro w p hw
    obtain ⟨halive, hcall, hmem⟩ := h.waits w p (hframes w p hw).1
    have hne : w ≠ pid := by
      rintro rfl
      exact halive hpid
    exact ⟨(not_congr (hover w hne)).mpr halive, List.mem_cons_of_mem _ hcall,
      List.mem_cons_of_mem _ hmem⟩
  · intro w p hw r hr
    obtain ⟨hawaits, hsame⟩ := hframes w p (Frame.awaits_of_wants hw)
    rw [hsame] at hw
    obtain ⟨halive, hcall, hmem⟩ := h.waits w p hawaits
    refine (hvalue p).trans (h.wants w p hw r ?_)
    by_cases heq : p = pid
    · -- the slot was free, so the one that was waited for is over
      subst heq
      cases hfate : fate w p t with
      | none => exact absurd (outcome_of_fate hcall hfate) (h.gone p hpid hmem)
      | some f => rw [← hr, fate_some (by simp) hfate]
    · rwa [fate_other hcall (by simp) (hold p heq) (by simp)] at hr

/-- A process is over: those that wait for it get what it returned with. -/
theorem Known.kill (h : S.Known t) (hpid : (S'.sched.processes pid).state = EXITED)
    (hover : ∀ p, p ≠ pid →
      ((S'.sched.processes p).state = EXITED ↔ (S.sched.processes p).state = EXITED))
    (hvalue : ∀ p, (S'.sched.processes p).waitReturnValue = (S.sched.processes p).waitReturnValue)
    (hself : (S'.frames pid).awaits = none)
    (hframes : ∀ w p, (S'.frames w).awaits = some p → (S.frames w).awaits = some p ∧
      (S'.frames w).wants = (S.frames w).wants) : S'.Known (.ended pid :: t) := by
  have hold : ∀ p, p ≠ pid → Obs.ended pid ≠ .ended p := by
    intro p hp heq
    exact hp (Obs.ended.inj heq).symm
  have hresult : ∀ p, result p (.ended pid :: t) = result p t := by
    intro p
    exact result_other (by simp) rfl
  constructor
  · intro p hp
    have heq : p ≠ pid := by
      rintro rfl
      exact hp hpid
    rw [outcome_other (by simp) (hold p heq)]
    obtain ⟨hmem, hnone⟩ := h.alive p ((not_congr (hover p heq)).mp hp)
    exact ⟨List.mem_cons_of_mem _ hmem, hnone⟩
  · intro p hp hmem
    by_cases heq : p = pid
    · subst heq
      rw [outcome_ended]
      simp
    · rw [outcome_other (by simp) (hold p heq)]
      exact h.gone p ((hover p heq).mp hp) ((List.mem_cons.mp hmem).resolve_left (by simp))
  · intro p r hr
    rw [hresult] at hr
    exact (hvalue p).trans (h.value p r hr)
  · intro p f hf
    rw [hresult]
    by_cases heq : p = pid
    · subst heq
      rw [outcome_ended] at hf
      exact Option.some.inj hf
    · rw [outcome_other (by simp) (hold p heq)] at hf
      exact h.last p f hf
  · intro w p hw
    obtain ⟨halive, hcall, hmem⟩ := h.waits w p (hframes w p hw).1
    have hne : w ≠ pid := by
      rintro rfl
      rw [hself] at hw
      exact absurd hw (by simp)
    exact ⟨(not_congr (hover w hne)).mpr halive, List.mem_cons_of_mem _ hcall,
      List.mem_cons_of_mem _ hmem⟩
  · intro w p hw r hr
    obtain ⟨hawaits, hsame⟩ := hframes w p (Frame.awaits_of_wants hw)
    rw [hsame] at hw
    obtain ⟨_, hcall, _⟩ := h.waits w p hawaits
    rw [hvalue p]
    by_cases heq : p = pid
    · subst heq
      cases hfate : fate w p t with
      | none =>
          rw [fate_cons (by simp), hfate, Option.none_or, outcome_ended] at hr
          exact h.value p r (Option.some.inj hr)
      | some f =>
          rw [fate_some (by simp) hfate] at hr
          exact h.wants w p hw r (hfate.trans hr)
    · rw [fate_other hcall (by simp) (by simp) (hold p heq)] at hr
      exact h.wants w p hw r hr

/-- A live process returns from its `entry`, and nobody still has to read another result
from its slot. -/
theorem Known.returned {r : Int32} (h : S.Known t) (hpid : (S.sched.processes pid).state ≠ EXITED)
    (hover : ∀ p, (S'.sched.processes p).state = EXITED ↔ (S.sched.processes p).state = EXITED)
    (hnew : (S'.sched.processes pid).waitReturnValue = r)
    (hvalue : ∀ p, p ≠ pid →
      (S'.sched.processes p).waitReturnValue = (S.sched.processes p).waitReturnValue)
    (hframes : S'.frames = S.frames)
    (hok : ∀ w r', (S.frames w).wants = some pid → fate w pid t = some (some r') → r' = r) :
    S'.Known (.returned pid r :: t) := by
  have hother : ∀ p, p ≠ pid → (Obs.returned pid r).result p = none := by
    intro p hp
    exact if_neg (Ne.symm hp)
  constructor
  · intro p hp
    rw [outcome_other (by simp) (by simp)]
    obtain ⟨hmem, hnone⟩ := h.alive p ((not_congr (hover p)).mp hp)
    exact ⟨List.mem_cons_of_mem _ hmem, hnone⟩
  · intro p hp hmem
    rw [outcome_other (by simp) (by simp)]
    exact h.gone p ((hover p).mp hp) ((List.mem_cons.mp hmem).resolve_left (by simp))
  · intro p r' hr
    by_cases heq : p = pid
    · subst heq
      rw [result_returned] at hr
      exact hnew.trans (Option.some.inj hr)
    · rw [result_other (by simp) (hother p heq)] at hr
      exact (hvalue p heq).trans (h.value p r' hr)
  · intro p f hf
    rw [outcome_other (by simp) (by simp)] at hf
    have heq : p ≠ pid := by
      rintro rfl
      rw [(h.alive p hpid).2] at hf
      exact absurd hf (by simp)
    rw [result_other (by simp) (hother p heq)]
    exact h.last p f hf
  · intro w p hw
    rw [hframes] at hw
    obtain ⟨halive, hcall, hmem⟩ := h.waits w p hw
    exact ⟨(not_congr (hover w)).mpr halive, List.mem_cons_of_mem _ hcall,
      List.mem_cons_of_mem _ hmem⟩
  · intro w p hw r' hr
    rw [hframes] at hw
    obtain ⟨_, hcall, _⟩ := h.waits w p (Frame.awaits_of_wants hw)
    rw [fate_other hcall (by simp) (by simp) (by simp)] at hr
    by_cases heq : p = pid
    · subst heq
      rw [hnew, hok w r' hw hr]
    · exact (hvalue p heq).trans (h.wants w p hw r' hr)

/-- A process in user mode calls `waitProcess`. -/
theorem Known.called (h : S.Known t) (hf : S.frames pid = .user) (target : ℤ) :
    S.Known (.waitCalled pid target :: t) := by
  refine h.note (by simp) (by simp) (fun _ => rfl) ?_
  rintro w p hw heq
  obtain ⟨rfl, rfl⟩ := Obs.waitCalled.inj heq
  rw [hf] at hw
  exact absurd hw (by simp [Frame.awaits])

/-! ## Every action -/

/-- **Every action** keeps what is known, but a result that somebody has not read yet must
not be written over. -/
theorem known_does (hbase : S.Base) (h : S.Known S.lives)
    (hok : ∀ p r, a = .returned p r → ∀ w r', (S.frames w).wants = some p →
      fate w p S.lives = some (some r') → r' = r) (hd : S.Does a S') : S'.Known S'.lives := by
  by_cases hlively : Act.lively a
  · cases a with
    | create pid =>
        have hover : ∀ p, p ≠ pid →
            ((S'.sched.processes p).state = EXITED ↔ (S.sched.processes p).state = EXITED) := by
          intro p hp
          exact hd.exited hbase (by simpa using hp.symm) (by simp)
        have hvalue := fun p => hd.waitReturnValue (p := p) hbase (by simp)
        have hframes := fun w p hw => hd.awaits (w := w) (p := p) (by simp) hw
        have hlive := hd.create_live
        cases hd with
        | create hpid hexited hc hb =>
            rw [note_lives _ rfl]
            exact h.create hexited hlive hover hvalue fun w p hw =>
              ⟨(hframes w p hw).1, (hframes w p hw).2.1⟩
    | returned pid r =>
        have hover : ∀ p, (S'.sched.processes p).state = EXITED ↔
            (S.sched.processes p).state = EXITED := fun p => hd.exited hbase (by simp) (by simp)
        have hvalue : ∀ p, p ≠ pid →
            (S'.sched.processes p).waitReturnValue = (S.sched.processes p).waitReturnValue := by
          intro p hp
          exact hd.waitReturnValue hbase (by simpa using fun heq => absurd heq.symm hp)
        cases hd with
        | returned hc hf =>
            have hlive : (S.sched.processes pid).state ≠ EXITED := by
              rw [hbase.running hc fun stage => by rw [hf]; simp]
              decide
            rw [note_lives _ rfl]
            refine h.returned hlive hover ?_ hvalue rfl (hok pid r rfl)
            rw [note_sched, onSched_sched, Sched.setProcess_self]
    | kill pid =>
        have hover : ∀ p, p ≠ pid →
            ((S'.sched.processes p).state = EXITED ↔ (S.sched.processes p).state = EXITED) := by
          intro p hp
          exact hd.exited hbase (by simp) (by simpa using hp.symm)
        have hvalue := fun p => hd.waitReturnValue (p := p) hbase (by simp)
        have hframes := fun w p hw => hd.awaits (w := w) (p := p) (by simp) hw
        cases hd with
        | @kill c _ stage hc hpid halive =>
            unfold Machine.killStart
            dsimp only
            rw [note_lives _ rfl]
            apply h.kill (killStart_state S pid stage) hover hvalue
            · change (Function.update S.frames pid (.exiting stage) pid).awaits = none
              rw [Function.update_self]
              rfl
            · exact fun w p hw => ⟨(hframes w p hw).1, (hframes w p hw).2.1⟩
    | waitBlock pid target wstatus =>
        have hover : ∀ p, (S'.sched.processes p).state = EXITED ↔
            (S.sched.processes p).state = EXITED := fun p => hd.exited hbase (by simp) (by simp)
        have hvalue := fun p => hd.waitReturnValue (p := p) hbase (by simp)
        have hframes : ∀ w p, w ≠ pid → (S'.frames w).awaits = some p →
            (S.frames w).awaits = some p ∧ (S'.frames w).wants = (S.frames w).wants := by
          intro w p hne hw
          have hboth :=
            hd.awaits (w := w) (p := p) (by simpa using fun heq => absurd heq.symm hne) hw
          exact ⟨hboth.1, hboth.2.1⟩
        cases hd with
        | waitBlock hc hf htarget halive =>
            obtain ⟨hmem, hnone⟩ := h.alive target halive
            have hlives :
                (S.waitFor pid target wstatus).lives = .waitCalled pid target :: S.lives :=
              note_lives S rfl
            rw [hlives]
            apply (h.called hf target).move hover hvalue
            intro w p hw
            by_cases hne : w = pid
            · subst hne
              change (Function.update S.frames w (.waitBlock target wstatus) w).awaits = _ at hw
              rw [Function.update_self] at hw
              obtain rfl : target = p := Option.some.inj hw
              refine .inr ⟨?_, List.mem_cons_self, List.mem_cons_of_mem _ hmem, ?_⟩
              · rw [hbase.running hc fun stage => by rw [hf]; simp]
                decide
              · rw [fate_called, hnone]
            · exact .inl (hframes w p hne hw)
    | waitGone pid target wstatus =>
        cases hd with
        | waitGone hc hf hexited =>
            rw [note_lives _ rfl, note_lives _ rfl]
            have hreturned := (h.called hf target).note (o := .waitReturned pid target
              (if wstatus then some 0 else none)) (by simp) (by simp) (fun _ => rfl) (by simp)
            exact hreturned.move (fun _ => Iff.rfl) (fun _ => rfl) fun w p hw => .inl ⟨hw, rfl⟩
    | waitRead pid target wstatus =>
        have hframes := fun w p hw => hd.awaits (w := w) (p := p) (by simp) hw
        cases hd with
        | waitRead hc hf =>
            unfold Machine.waitRead
            dsimp only
            rw [note_lives _ rfl]
            have hreturned := h.note (o := .waitReturned pid target (if wstatus then
              some (S.sched.processes target).waitReturnValue else none)) (by simp) (by simp)
                (fun _ => rfl) (by simp)
            refine hreturned.move (fun _ => Iff.rfl) (fun _ => rfl) fun w p hw => .inl ?_
            exact ⟨(hframes w p hw).1, (hframes w p hw).2.1⟩
    | _ => exact hlively.elim
  · have hplain : ∀ {b : Act}, Act.lively b → a ≠ b := by
      rintro b hb rfl
      exact hlively hb
    rw [hd.lives hlively]
    refine h.move (fun p => hd.exited hbase (hplain trivial) (hplain trivial))
      (fun p => hd.waitReturnValue hbase fun r => hplain trivial) fun w p hw => .inl ?_
    have hboth := hd.awaits (fun _ _ => hplain trivial) hw
    exact ⟨hboth.1, hboth.2.1⟩

/-- Only the end of `waitProcess` delivers a status. -/
theorem statusRight_does (h : StatusRight S.lives)
    (hgone : ∀ pid target wstatus, a ≠ .waitGone pid target wstatus)
    (hread : ∀ pid target wstatus, a ≠ .waitRead pid target wstatus) (hd : S.Does a S') :
    StatusRight S'.lives := by
  by_cases hlively : Act.lively a
  · cases hd with
    | create =>
        rw [note_lives _ rfl]
        exact h.cons (by simp)
    | returned =>
        rw [note_lives _ rfl]
        exact h.cons (by simp)
    | kill =>
        unfold Machine.killStart
        dsimp only
        rw [note_lives _ rfl]
        exact h.cons (by simp)
    | @waitBlock pid target wstatus =>
        have hlives : (S.waitFor pid target wstatus).lives = .waitCalled pid target :: S.lives :=
          note_lives S rfl
        rw [hlives]
        exact h.cons (by simp)
    | waitGone => exact absurd rfl (hgone _ _ _)
    | waitRead => exact absurd rfl (hread _ _ _)
    | _ => exact hlively.elim
  · rw [hd.lives hlively]
    exact h

/-! ## Every step -/

/-- Whoever waits for a process that is not over is blocked, and has not been woken. -/
def Asleep (S : Machine) : Prop :=
  ∀ w p, (S.frames w).awaits = some p → fate w p S.lives = none →
    (S.sched.processes w).state = BLOCKED ∧ ∃ wstatus, S.frames w = .waitBlock p wstatus

/-- Everything that holds behind each step of a run that keeps to the rules. -/
structure Told (S : Machine) : Prop where
  known : S.Known S.lives
  asleep : S.Asleep
  right : StatusRight S.lives

/-- A process that returns from its `entry` keeps the value, and is killed. -/
theorem step_exit {r : Int32} (hbase : S.Base) (hstep : S.Step (.exit r) S') : ∃ c M,
    S.sched.currentProcess = some c ∧ S.Does (.returned c r) M ∧ M.Does (.kill c) S' := by
  unfold Step step at hstep
  split at hstep
  · exact absurd hstep (by simp)
  · rename_i c hc
    dsimp only at hstep
    split at hstep
    · rename_i hf
      unfold exitProcess at hstep
      split at hstep
      · exact absurd hstep (by simp)
      · rename_i hinit
        have hrunning : (S.sched.processes c).state = RUNNING :=
          hbase.running hc fun stage => by rw [hf]; simp
        obtain ⟨_, hle⟩ := hbase.sound.current c hc
        rw [← Option.some.inj hstep]
        refine ⟨c, _, hc, .returned hc hf, .kill hc ⟨not_le.mp hinit, hle⟩ ?_⟩
        simp [hrunning]
    · exact absurd hstep (by simp)

/-- Unless somebody calls `wait`, nobody's target becomes one that is not over. -/
theorem Does.fate_none (hd : S.Does a S')
    (hblock : ∀ target wstatus, a ≠ .waitBlock w target wstatus)
    (hgone : ∀ target wstatus, a ≠ .waitGone w target wstatus)
    (h : fate w p S'.lives = none) : fate w p S.lives = none := by
  by_cases hlively : Act.lively a
  · cases hd with
    | create =>
        rw [note_lives _ rfl] at h
        exact BareKernel.Kernel.fate_none (by simp) h
    | returned =>
        rw [note_lives _ rfl] at h
        exact BareKernel.Kernel.fate_none (by simp) h
    | kill =>
        unfold Machine.killStart at h
        dsimp only at h
        rw [note_lives _ rfl] at h
        exact BareKernel.Kernel.fate_none (by simp) h
    | @waitBlock pid target wstatus =>
        have hlives : (S.waitFor pid target wstatus).lives = .waitCalled pid target :: S.lives :=
          note_lives S rfl
        rw [hlives] at h
        refine BareKernel.Kernel.fate_none ?_ h
        intro heq
        rw [Obs.waitCalled.injEq] at heq
        exact hblock target wstatus (by rw [heq.1])
    | @waitGone pid target wstatus =>
        rw [note_lives _ rfl, note_lives _ rfl] at h
        refine BareKernel.Kernel.fate_none ?_ (BareKernel.Kernel.fate_none (by simp) h)
        intro heq
        rw [Obs.waitCalled.injEq] at heq
        exact hgone target wstatus (by rw [heq.1])
    | waitRead =>
        unfold Machine.waitRead at h
        dsimp only at h
        rw [note_lives _ rfl] at h
        exact BareKernel.Kernel.fate_none (by simp) h
    | _ => exact hlively.elim
  · rwa [hd.lives hlively] at h

/-- Inside a step that is no call of `wait`, only the process that has the CPU gets on
in `waitProcess`. -/
theorem Path.awaits (hpath : Path (Allowed S e) S M)
    (he : ∀ target wstatus, e ≠ .call (.wait target wstatus))
    (hw : (M.frames w).awaits = some p) : (S.frames w).awaits = some p ∧
      (S.sched.currentProcess ≠ some w → M.frames w = S.frames w) ∧
        (fate w p M.lives = none → fate w p S.lives = none) := by
  refine hpath.invariant (I := fun M => (M.frames w).awaits = some p →
    (S.frames w).awaits = some p ∧ (S.sched.currentProcess ≠ some w → M.frames w = S.frames w) ∧
      (fate w p M.lives = none → fate w p S.lives = none)) (fun h => ⟨h, fun _ => rfl, id⟩) ?_ hw
  intro M a M' hM ha hd hw
  have hblock : ∀ target wstatus, a ≠ .waitBlock w target wstatus := by
    rintro target wstatus rfl
    exact he target wstatus ha.1
  have hgone : ∀ target wstatus, a ≠ .waitGone w target wstatus := by
    rintro target wstatus rfl
    exact he target wstatus ha.1
  obtain ⟨hbefore, _, hsame⟩ := hd.awaits hblock hw
  obtain ⟨hS, hframe, hfate⟩ := hM hbefore
  refine ⟨hS, fun hc => ?_, fun hnone => hfate (hd.fate_none hblock hgone hnone)⟩
  rcases hsame with hsame | rfl
  · exact hsame.trans (hframe hc)
  · exact absurd ha hc

/-- A slot is not given away while its process lives. -/
theorem step_not_created (hbase : S.Base) (hlive : (S.sched.processes p).state ≠ EXITED)
    (h : S.Step e S') : ¬S.Records S' (.created p) := by
  by_cases hcreate : ∃ params, e = .call (.createProcess params)
  · obtain ⟨params, rfl⟩ := hcreate
    obtain ⟨c, hc, hf, hcall⟩ := step_call h
    have hdone : S' = (S.createProcess params).2 := (Option.some.inj hcall).symm
    rcases createProcess_cases S params with
      ⟨outcomes, heq⟩ | ⟨given, name, pid, outcomes, -, -, hpid, heq⟩
    · rw [hdone, heq]
      exact not_records_same rfl
    · rw [hdone, heq]
      intro hrec
      have hnote := records_note_iff.mp (hrec.split _ |>.resolve_left (not_records_same rfl))
      obtain rfl := Obs.created.inj hnote
      exact hlive (getFreeProcess_some hpid).2
  · refine (step_path hbase h).invariant (I := fun M => ¬S.Records M (.created p))
      not_records_self ?_
    intro M a M' hM ha hd hrec
    have hrecords := hd.records ((hrec.split M).resolve_left hM)
    cases a with
    | create pid => exact hcreate ha
    | moved o => exact absurd hrecords.2 (hrecords.1 ▸ id)
    | _ => simp_all [Act.records]

theorem waiters_of_listed {semId : ℕ} (h : S.Listed w semId) : w ∈ S.waiters semId := by
  obtain ⟨q, hq, hw⟩ := h
  unfold waiters
  rw [hq]
  exact hw

/-- **What wakes a live process** can be told from the state before the step. -/
theorem rouses_of_wakes (hbase : S.Base) (hlive : (S.sched.processes w).state ≠ EXITED)
    (hstep : S.Step e S') (h : Wakes w S S' e) : S.Rouses w e := by
  rcases h with rfl | hcreated | ⟨semId, o, hlisted, ho, hrec⟩ | ⟨semId, value, q, rfl, hq, hw⟩ |
    ⟨q, hwait, ⟨rfl, hended⟩ | ⟨rfl, hc, hf⟩⟩
  · exact .inr rfl
  · exact absurd hcreated (step_not_created hbase hlive hstep)
  · exact .inl ⟨semId, step_touches hstep ho hrec, waiters_of_listed hlisted⟩
  · refine .inr (?_ : w ∈ (S.waiters semId.toNat).take _)
    unfold waiters
    rw [hq]
    exact hw
  · right
    refine ⟨?_, hwait⟩
    obtain ⟨c, hc, _, hcall⟩ := step_call hstep
    simp only [sysCall, Option.map_eq_map, Option.map_eq_some_iff, Prod.exists] at hcall
    obtain ⟨r, _, hkill, rfl⟩ := hcall
    rcases kill_cases hc hkill with ⟨rfl, -⟩ | ⟨-, halive, -⟩
    · exact absurd hended not_records_self
    · exact halive
  · exact .inr ⟨q, hc, hf, hwait⟩

/-- A kill ends the process that was alive, or does nothing. -/
theorem step_kill (hbase : S.Base) (hstep : S.Step (.call (.kill p)) S') :
    S' = S ∨ (S'.sched.processes p).state = EXITED := by
  obtain ⟨c, hc, _, hcall⟩ := step_call hstep
  simp only [sysCall, Option.map_eq_map, Option.map_eq_some_iff, Prod.exists] at hcall
  obtain ⟨r, _, hkill, rfl⟩ := hcall
  rcases kill_cases hc hkill with ⟨rfl, -⟩ | ⟨hrange, halive, S₁, hclose, rfl⟩
  · exact .inl rfl
  · right
    have hstart : S.Does (.kill p) (S.killStart p .leave) := .kill hc hrange halive
    have hbase₁ : S₁.Base := hclose.invariant (I := Base) (hbase.does hstart)
      fun _ _ _ hM _ hd => hM.does hd
    have hover : (S₁.sched.processes p).state = EXITED :=
      (closing_exited hclose p).mpr (killStart_state S p .leave)
    have hwake : S₁.Does (.killWake p) (S₁.killWake p) := .killWake (hclose.calm.1.trans hc) hover
    have hwoken : ((S₁.killWake p).sched.processes p).state = EXITED :=
      (hwake.exited hbase₁ (by simp) (by simp)).mpr hover
    split
    · exact ((switch_path _).exited (hbase₁.does hwake) (by simp) (by simp)).mpr hwoken
    · exact hwoken

theorem asleep_step (hbase : S.Base) (hbefore : S.Known S.lives) (h : S.Asleep)
    (hknown : S'.Known S'.lives) (he : ∀ target wstatus, e ≠ .call (.wait target wstatus))
    (hok : S.keepsStatus e) (hstep : S.Step e S') : S'.Asleep := by
  intro w p hw hnone
  obtain ⟨hawaits, hframe, hfate⟩ := (step_path hbase hstep).awaits he hw
  obtain ⟨hblocked, wstatus, hinside⟩ := h w p hawaits (hfate hnone)
  have hc : S.sched.currentProcess ≠ some w := by
    intro hc
    exact hbase.current_ne_blocked hc hblocked
  refine ⟨?_, wstatus, (hframe hc).trans hinside⟩
  -- the target is not over, neither before nor after
  obtain ⟨-, hcalled, hcreated⟩ := hbefore.waits w p hawaits
  have halive : (S.sched.processes p).state ≠ EXITED := fun hexited =>
    hbefore.gone p hexited hcreated (outcome_of_fate hcalled (hfate hnone))
  obtain ⟨hlive', hcalled', hcreated'⟩ := hknown.waits w p hw
  have halive' : (S'.sched.processes p).state ≠ EXITED := fun hexited =>
    hknown.gone p hexited hcreated' (outcome_of_fate hcalled' hnone)
  by_cases hkill : e.victim = some p
  · obtain rfl : e = .call (.kill p) := by
      unfold Event.victim at hkill
      split at hkill
      · rw [Option.some.inj hkill]
      · exact absurd hkill (by simp)
    rcases step_kill hbase hstep with rfl | hexited
    · exact hblocked
    · exact absurd hexited halive'
  · have hspared := hok.1 w p ⟨hblocked, hawaits⟩ halive hkill
    have hlive : (S.sched.processes w).state ≠ EXITED := by
      rw [hblocked]
      decide
    have hstopped := step_stopped hbase (.inl hblocked) hstep fun hwakes =>
      hspared (rouses_of_wakes hbase hlive hstep hwakes)
    exact hstopped.resolve_right hlive'

/-- The target is over: the call delivers zero. -/
theorem Told.waitGone {target : ℤ} {wstatus : Bool} (hbase : S.Base) (h : S.Told)
    (hexited : (S.sched.processes target).state = EXITED)
    (hok : wstatus = true → ∀ r, outcome target S.lives = some (some r) → r = 0)
    (hd : S.Does (.waitGone c target wstatus) S') : S'.Told := by
  have hknown := known_does hbase h.known (by simp) hd
  cases hd with
  | waitGone hc hf =>
      have hlives : ((S.note (.waitCalled c target)).note (.waitReturned c target
          (if wstatus then some 0 else none))).lives = .waitReturned c target
            (if wstatus then some 0 else none) :: .waitCalled c target :: S.lives := by
        rw [note_lives _ rfl, note_lives _ rfl]
      refine ⟨hknown, ?_, ?_⟩
      · intro w p hw hnone
        have hbefore : (S.frames w).awaits = some p := hw
        have hne : w ≠ c := by
          rintro rfl
          rw [hf] at hbefore
          exact absurd hbefore (by simp [Frame.awaits])
        rw [hlives] at hnone
        refine h.asleep w p hbefore (fate_none ?_ (fate_none (by simp) hnone))
        intro heq
        exact hne (Obs.waitCalled.inj heq).1.symm
      · rw [hlives]
        apply (h.right.cons (by simp)).cons
        intro w p status heq hmem
        obtain ⟨rfl, rfl, rfl⟩ := Obs.waitReturned.inj heq
        rw [fate_called]
        have hover := h.known.gone target hexited ((List.mem_cons.mp hmem).resolve_left (by simp))
        cases houtcome : outcome target S.lives with
        | none => exact absurd houtcome hover
        | some f =>
            refine ⟨f, rfl, ?_⟩
            rintro r rfl v hv
            cases wstatus with
            | false => exact absurd hv (by simp)
            | true => rw [hok rfl r houtcome, ← Option.some.inj hv]

/-- The caller falls asleep until its target is over. -/
theorem Told.waitBlock {target : ℤ} {wstatus : Bool} (hbase : S.Base) (h : S.Told)
    (hd : S.Does (.waitBlock c target wstatus) S') : S'.Told := by
  have hknown := known_does hbase h.known (by simp) hd
  have hright := statusRight_does h.right (by simp) (by simp) hd
  refine ⟨hknown, ?_, hright⟩
  have hawaits := fun w p hne hw => hd.awaits (w := w) (p := p)
    (by simpa using fun heq => absurd heq.symm hne) hw
  have hfate := fun w p hne hw => hd.fate_none (w := w) (p := p)
    (by simpa using fun heq => absurd heq.symm hne) (by simp) hw
  cases hd with
  | waitBlock hc hf htarget halive =>
      have hquiet := Sched.blockProcess_quiet (s := S.sched.setProcess target
        { S.sched.processes target with waitPid := c }) hc (waitFor_valid hbase hc hf target)
      intro w p hw hnone
      by_cases hne : w = c
      · subst hne
        change (Function.update S.frames w (.waitBlock target wstatus) w).awaits = some p at hw
        rw [Function.update_self] at hw
        obtain rfl : target = p := Option.some.inj hw
        refine ⟨(hquiet.blocked w).mpr Sched.setState_state, wstatus, ?_⟩
        change Function.update S.frames w (.waitBlock target wstatus) w = _
        rw [Function.update_self]
      · obtain ⟨hbefore, _, hsame⟩ := hawaits w p hne hw
        obtain ⟨hblocked, wstatus', hinside⟩ := h.asleep w p hbefore (hfate w p hne hnone)
        refine ⟨(hquiet.blocked w).mpr ?_, wstatus', ?_⟩
        · rw [Sched.setState, Sched.setProcess_of_ne hne]
          by_cases heq : w = target
          · subst heq
            rw [Sched.setProcess_self]
            exact hblocked
          · rw [Sched.setProcess_of_ne heq]
            exact hblocked
        · exact (hsame.resolve_right (by simp)).trans hinside

theorem Told.step (hbase : S.Base) (h : S.Told) (hok : S.keepsStatus e) (hstep : S.Step e S') :
    S'.Told := by
  by_cases hwait : ∃ target wstatus, e = .call (.wait target wstatus)
  · obtain ⟨target, wstatus, rfl⟩ := hwait
    obtain ⟨c, hc, hf, hcall⟩ := step_call hstep
    rw [← Option.some.inj hcall]
    unfold waitProcess
    split
    · exact h
    · rename_i htarget
      dsimp only
      split
      · rename_i hexited
        refine Told.waitGone hbase h hexited ?_ (.waitGone hc hf hexited)
        rintro rfl
        exact hok.2 hexited
      · rename_i halive
        rw [not_or, not_le, not_lt] at htarget
        exact h.waitBlock hbase (.waitBlock hc hf htarget halive)
  · have he : ∀ target wstatus, e ≠ .call (.wait target wstatus) :=
      fun target wstatus heq => hwait ⟨target, wstatus, heq⟩
    have hknown : S'.Known S'.lives := by
      by_cases hexit : ∃ r, e = .exit r
      · obtain ⟨r, rfl⟩ := hexit
        obtain ⟨c, M, hc, hreturned, hkill⟩ := step_exit hbase hstep
        refine known_does (hbase.does hreturned) (known_does hbase h.known ?_ hreturned)
          (by simp) hkill
        intro p r' heq
        obtain ⟨rfl, rfl⟩ := Act.returned.inj heq
        exact hok.2 c hc
      · refine ((step_path hbase hstep).invariant (I := fun M => M.Base ∧ M.Known M.lives)
          ⟨hbase, h.known⟩ ?_).2
        rintro M a M' ⟨hMbase, hM⟩ ha hd
        refine ⟨hMbase.does hd, known_does hMbase hM ?_ hd⟩
        rintro p r rfl
        exact absurd ⟨r, ha.1⟩ hexit
    refine ⟨hknown, asleep_step hbase h.known h.asleep hknown he hok hstep, ?_⟩
    by_cases hread : ∃ c target wstatus, S.sched.currentProcess = some c ∧
        S.frames c = .waitForced target wstatus ∧ e = .resume
    · obtain ⟨c, target, wstatus, hc, hf, rfl⟩ := hread
      have hresult := hstep
      unfold Step Machine.step at hresult
      rw [hc] at hresult
      dsimp only at hresult
      rw [hf] at hresult
      rw [← Option.some.inj hresult]
      unfold Machine.waitRead
      dsimp only
      rw [note_lives _ rfl]
      have hlives : (S.setFrame c .user).lives = S.lives := rfl
      rw [hlives]
      apply h.right.cons
      intro w p status heq hmem
      obtain ⟨rfl, rfl, rfl⟩ := Obs.waitReturned.inj heq
      have hawaits : (S.frames c).awaits = some target := by
        rw [hf]
        rfl
      cases hfate : fate c target S.lives with
      | none =>
          obtain ⟨_, _, hinside⟩ := h.asleep c target hawaits hfate
          rw [hf] at hinside
          exact absurd hinside (by simp)
      | some f =>
          refine ⟨f, rfl, ?_⟩
          rintro r rfl v hv
          cases wstatus with
          | false => exact absurd hv (by simp)
          | true =>
              have hwants : (S.frames c).wants = some target := by
                rw [hf]
                rfl
              rw [← Option.some.inj hv]
              exact h.known.wants c target hwants r hfate
    · refine (step_path hbase hstep).invariant (I := fun M => StatusRight M.lives) h.right ?_
      intro M a M' hM ha hd
      refine statusRight_does hM ?_ ?_ hd
      · rintro pid target wstatus rfl
        exact he target wstatus ha.1
      · rintro pid target wstatus rfl
        exact hread ⟨pid, target, wstatus, ha.2.1, ha.2.2, ha.1⟩

/-! ## Every run -/

theorem told_boot (nodes blocks : ℕ → Bool) : (boot nodes blocks).Told := by
  have hlives : (off nodes blocks).lives = [] := rfl
  have hnobody : ∀ w p, ((off nodes blocks).frames w).awaits ≠ some p := fun _ _ => by
    simp [off, Frame.awaits]
  have hoff : (off nodes blocks).Known (off nodes blocks).lives := by
    rw [hlives]
    have hexited : ∀ p, ((off nodes blocks).sched.processes p).state = EXITED := fun _ => rfl
    refine ⟨fun p hp => absurd (hexited p) hp, fun p _ hmem => absurd hmem List.not_mem_nil,
      fun p r hr => ?_, fun p f hf => ?_, fun w p hw => absurd hw (hnobody w p), fun w p hw =>
        absurd (Frame.awaits_of_wants hw) (hnobody w p)⟩
    · exact absurd hr (by simp [result])
    · exact absurd hf (by simp [outcome])
  have hright : StatusRight (off nodes blocks).lives := by
    rw [hlives]
    exact statusRight_nil
  -- nobody calls `wait` before the first process runs
  have hall := (boot_path : Path starting (off nodes blocks) (boot nodes blocks)).invariant
    (I := fun M => M.Base ∧ M.Known M.lives ∧ StatusRight M.lives ∧
      ∀ w p, (M.frames w).awaits ≠ some p) ⟨base_off, hoff, hright, hnobody⟩ <| by
    rintro M a M' ⟨hbase, hknown, hM, hfree⟩ ha hd
    have hne : ∀ {b : Act}, ¬starting b → a ≠ b := by
      rintro b hb rfl
      exact hb ha
    refine ⟨hbase.does hd, known_does hbase hknown (fun p r heq => absurd heq (hne id)) hd,
      statusRight_does hM (fun _ _ _ => hne id) (fun _ _ _ => hne id) hd, fun w p hw => ?_⟩
    exact hfree w p (hd.awaits (fun _ _ => hne id) hw).1
  obtain ⟨_, hknown, hboot, hfree⟩ := hall
  exact ⟨hknown, fun w p hw => absurd hw (hfree w p), hboot⟩

/-- **The status is right** in a run that keeps to the rules: `wait` returns behind the end of
the process that it waits for, with what that process returned. -/
theorem wait_status (nodes blocks : ℕ → Bool) (S : Machine)
    (h : Reaches Step keepsStatus (boot nodes blocks) S) : StatusRight S.lives := by
  have hrun := h.invariant (I := fun S => S.Base ∧ S.Told) ⟨base_boot, told_boot nodes blocks⟩
    fun S e S' hS hok hstep => ⟨hS.1.step hstep, hS.2.step hS.1 hok hstep⟩
  exact hrun.2.right

/-! ## The rules on a run that is given -/

/-- The processes that were created. -/
def newborns (S : Machine) : List ℤ :=
  S.lives.filterMap fun o => match o with
    | .created p => some p
    | _ => none

theorem mem_newborns (h : .created p ∈ S.lives) : p ∈ S.newborns :=
  List.mem_filterMap.mpr ⟨_, h, rfl⟩

instance (S : Machine) (w : ℤ) (e : Event) : Decidable (S.Rouses w e) := by
  unfold Rouses
  refine @instDecidableOr _ _ inferInstance ?_
  split <;> infer_instance

/-- The first rule, for the processes that were created. -/
def rousesNobody (S : Machine) (e : Event) : Bool :=
  S.newborns.all fun w => match (S.frames w).awaits with
    | none => true
    | some p => (S.sched.processes w).state ≠ BLOCKED ∨ (S.sched.processes p).state = EXITED ∨
        e.victim = some p ∨ ¬S.Rouses w e

/-- Nobody that was created waits for the status of the process that has the CPU. -/
def unwanted (S : Machine) : Bool :=
  S.newborns.all fun w => decide ((S.frames w).wants = none) ||
    decide ((S.frames w).wants ≠ S.sched.currentProcess) ||
      (S.sched.currentProcess.bind fun c => fate w c S.lives).isNone

theorem Known.newborn (h : S.Known S.lives) (hw : (S.frames w).awaits = some p) :
    w ∈ S.newborns :=
  mem_newborns (h.alive w (h.waits w p hw).1).1

theorem Known.rousesNobody (h : S.Known S.lives) (hcheck : S.rousesNobody e = true)
    (hw : S.Waits w p) (halive : (S.sched.processes p).state ≠ EXITED)
    (hkill : e.victim ≠ some p) : ¬S.Rouses w e := by
  have hone := List.all_eq_true.mp hcheck w (h.newborn hw.2)
  rw [hw.2] at hone
  dsimp only at hone
  rw [decide_eq_true_eq] at hone
  rcases hone with hawake | hexited | hvictim | hspared
  · exact absurd hw.1 hawake
  · exact absurd hexited halive
  · exact absurd hvictim hkill
  · exact hspared

theorem Known.unwanted (h : S.Known S.lives) (hcheck : S.unwanted = true)
    (hc : S.sched.currentProcess = some c) (hw : (S.frames w).wants = some c) :
    fate w c S.lives = none := by
  have hone := List.all_eq_true.mp hcheck w (h.newborn (Frame.awaits_of_wants hw))
  simpa [hc, hw] using hone

/-- An event that meets the rules: nobody is woken early, nobody calls for a process that is
over, and nobody waits for another result from a process that returns. -/
def checked (S : Machine) (e : Event) : Bool :=
  S.rousesNobody e && match e with
    | .exit _ => S.unwanted
    | .call (.wait target _) => decide ((S.sched.processes target).state ≠ EXITED)
    | _ => true

theorem Known.checked (h : S.Known S.lives) (hcheck : S.checked e = true) : S.keepsStatus e := by
  obtain ⟨hnobody, hrest⟩ := Bool.and_eq_true_iff.mp hcheck
  refine ⟨fun w p hw halive hkill => h.rousesNobody hnobody hw halive hkill, ?_⟩
  cases e with
  | exit r =>
      intro c hc w r' hw hfate
      rw [h.unwanted hrest hc hw] at hfate
      exact absurd hfate (by simp)
  | call call =>
      cases call with
      | wait target wstatus =>
          have halive := of_decide_eq_true hrest
          cases wstatus with
          | true => exact fun hexited => absurd hexited halive
          | false => trivial
      | _ => trivial
  | _ => trivial

/-- The shell waits for a worker that returns 5. -/
def waitsForWorker : List Event :=
  [.call (.createProcess (some workerParams)), .call (.wait 3 true), .exit 5, .resume, .resume,
    .resume, .resume, .resume, .resume]

/-- **The shell gets 5**, behind the end of the worker. -/
theorem wait_status_worker : ∃ S, Reaches Step keepsStatus booted S ∧
    S.lives.head? = some (.waitReturned shellPid 3 (some 5)) ∧ StatusRight S.lives := by
  obtain ⟨S, hS⟩ := Option.isSome_iff_exists.mp (by decide +kernel :
    (exec (fun S e => if checked S e = true then S.step e else none) booted
      waitsForWorker).isSome)
  have hafter : (exec (fun S e => if checked S e = true then S.step e else none) booted
      waitsForWorker).map (fun S => S.lives.head?) =
        some (some (.waitReturned shellPid 3 (some 5))) := by
    decide +kernel
  rw [hS, Option.map_some, Option.some.injEq] at hafter
  have hreach : Reaches Step (fun S e => checked S e = true) booted S := exec_guarded hS
  have hrun := hreach.invariant (I := fun S => S.Base ∧ S.Told ∧
    Reaches Step keepsStatus booted S) ⟨base_boot, told_boot _ _, Reaches.refl _⟩ <| by
    rintro M e M' ⟨hbase, htold, hM⟩ hok hstep
    have hrules := htold.known.checked hok
    exact ⟨hbase.step hstep, htold.step hbase hrules hstep, hM.tail hrules hstep⟩
  exact ⟨S, hrun.2.2, hafter, wait_status _ _ S hrun.2.2⟩

/-- The worker is created, and returns 5 before the shell waits for it. -/
def waitsTooLate : List Event :=
  [.call (.createProcess (some workerParams)), .call (.changePriority 2 2), .call .yield, .exit 5,
    .resume, .resume, .resume, .resume, .call (.wait 3 true)]

/-- **A late call gets zero**, and not the 5 that the worker has returned. -/
theorem late_status_lost : ¬∀ nodes blocks S,
    Reaches Step always (boot nodes blocks) S → StatusRight S.lives := by
  intro hall
  obtain ⟨S, hS⟩ := Option.isSome_iff_exists.mp (by decide +kernel :
    (exec step booted waitsTooLate).isSome)
  have hafter : (exec step booted waitsTooLate).map (fun S => S.lives) = some
      [.waitReturned shellPid 3 (some 0), .waitCalled shellPid 3, .ended 3, .returned 3 5,
        .created 3, .created shellPid, .created initPid] := by
    decide +kernel
  rw [hS, Option.map_some, Option.some.injEq] at hafter
  have hright := hall _ _ S (exec_always hS fun _ _ _ => trivial)
  rw [hafter] at hright
  obtain ⟨f, hf, hstatus⟩ := hright shellPid 3 (some 0) _ (List.suffix_refl _) (by decide)
  obtain rfl : some 5 = f := by
    rw [fate_called] at hf
    exact Option.some.inj hf
  exact absurd (hstatus 5 rfl 0 rfl) (by decide)

end Machine

end BareKernel.Kernel
