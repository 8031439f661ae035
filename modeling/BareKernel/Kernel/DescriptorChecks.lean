import BareKernel.Kernel.FileSteps

/-!
# Descriptors that nobody checks

`sys_read` and `sys_write` hand a descriptor on without looking at it. They have
no way to refuse a call, since neither of their loops ever returns a negative
number, and a write clears `eof` before anything else.
-/

namespace BareKernel.Kernel

open ProcessState Runs

/-- Inside `readFromFD` and `writeToFD`, with a number of bytes that is not negative. -/
def Frame.counting : Frame → Prop
  | .reading r | .semWait _ (.take r) => 0 ≤ r.sizeRead
  | .writing _ | .semWait _ (.store _) => True
  | _ => False

namespace Machine

variable {S S' S₁ : Machine} {e : Event} {c pid fd count v : ℤ} {buf : List UInt8}
  {nodes blocks : ℕ → Bool}

/-- What the caller gets from the step with which it comes back to user mode. -/
def answer (S S' : Machine) (pid : ℤ) : ℤ :=
  match S.frames pid, S'.trace with
  | .writing w, _ => w.written
  | _, .readReturned _ _ _ sizeRead _ :: _ => sizeRead
  | _, _ => 0

/-- What a call returns that comes back in its first step: bytes that were printed,
or that were not read. -/
def firstAnswer : Syscall → ℤ
  | .write _ buf => buf.length
  | _ => 0

/-- The process goes on, without giving up the CPU, until its call returns. -/
inductive ComesBack (pid : ℤ) : Machine → ℤ → Machine → Prop where
  | last {S S' : Machine} (hc : S.sched.currentProcess = some pid) (hstep : S.Step .resume S')
      (hf : S'.frames pid = .user) : ComesBack pid S (S.answer S' pid) S'
  | next {S S₁ S' : Machine} {v : ℤ} (hc : S.sched.currentProcess = some pid)
      (hstep : S.Step .resume S₁) (h : ComesBack pid S₁ v S') : ComesBack pid S v S'

/-- The process that has the CPU makes a call, which returns before anybody else runs. -/
def Calls (S : Machine) (call : Syscall) (v : ℤ) (S' : Machine) : Prop :=
  ∃ pid S₁, S.sched.currentProcess = some pid ∧ S.Step (.call call) S₁ ∧
    (S₁.frames pid = .user ∧ v = firstAnswer call ∧ S' = S₁ ∨
      S₁.frames pid ≠ .user ∧ ComesBack pid S₁ v S')

/-- The call is refused: it returns a negative number, and nothing has changed. -/
def Refused (S : Machine) (call : Syscall) : Prop :=
  ∃ v S', S.Calls call v S' ∧ v < 0 ∧ S'.streams = S.streams ∧ S'.sems = S.sems ∧
    ∀ p, (S'.sched.processes p).state = (S.sched.processes p).state

/-- The descriptor is in range and open, and its mode is not the other one. -/
def OpenUnless (S : Machine) (fd : ℤ) (mode : FdMode) : Prop :=
  (0 ≤ fd ∧ fd < maxFds) ∧ (S.fileDescriptors fd).isOpen ∧ (S.fileDescriptors fd).mode ≠ mode

/-- The process is still counting, or it is back with a number that is not negative. -/
def Counts (S S' : Machine) (pid : ℤ) : Prop :=
  (S'.frames pid).counting ∨ S'.frames pid = .user ∧ 0 ≤ S.answer S' pid

theorem takeByte_counts {r : Reader} (hf : ∀ w, S.frames pid ≠ .writing w) (hr : 0 ≤ r.sizeRead)
    (h : S₁.takeByte pid r = some S') : S.Counts S' pid := by
  have hanswer : ∀ M : Machine, ∀ nl n, 0 ≤ n → 0 ≤ S.answer
      (M.note (.readReturned pid r.stream r.count n nl)) pid := by
    intro M nl n hn
    unfold answer
    cases hS : S.frames pid with
    | writing w => exact absurd hS (hf w)
    | _ => exact hn
  obtain ⟨st, -, ⟨-, r₁, S₂, hpost, rfl⟩ | ⟨-, rfl⟩⟩ := takeByte_cases h
  · split
    · exact .inr ⟨Function.update_self _ _ _, hanswer _ _ _ (by omega)⟩
    · left
      rw [setFrame_frames, Function.update_self]
      change 0 ≤ r.sizeRead + 1
      omega
  · exact .inr ⟨Function.update_self _ _ _, hanswer _ _ _ hr⟩

/-- Behind `semWait` a read or a write is still counting, or it is back. -/
theorem afterWait_counts {semId : ℕ} {k : AfterWait} (hf : ∀ w, S.frames pid ≠ .writing w)
    (hk : (Frame.semWait semId k).counting) (h : S₁.afterWait pid k = some S') :
    S.Counts S' pid := by
  cases k with
  | take r => exact takeByte_counts hf hk h
  | store w =>
      obtain ⟨st, byte, r₁, S₂, -, -, -, rfl⟩ := storeByte_cases h
      left
      rw [setFrame_frames, Function.update_self]
      trivial
  | done => exact absurd hk id
  | readAt stream pos => exact absurd hk id

theorem semWaitLoop_counts {semId : ℕ} {k : AfterWait} (hk : (Frame.semWait semId k).counting)
    (h : S₁.semWaitLoop pid semId k = some (false, S')) : S.Counts S' pid := by
  rcases semWaitLoop_cases h with ⟨-, -, -, rfl⟩ | ⟨htaken, -⟩
  · left
    rw [fallAsleep_frames, Function.update_self]
    exact hk
  · exact absurd htaken (by simp)

theorem waitThen_counts {semId : ℤ} {k : AfterWait} (hf : ∀ w, S.frames pid ≠ .writing w)
    (hk : (Frame.semWait semId.toNat k).counting) (h : S₁.waitThen pid semId k = some S') :
    S.Counts S' pid := by
  rcases waitThen_cases h with ⟨S₂, -, hafter⟩ | hwait
  · exact afterWait_counts hf hk hafter
  · rcases semWait_cases hwait with ⟨hback, -⟩ | ⟨-, -, -, hloop⟩
    · exact absurd hback (by simp)
    · exact semWaitLoop_counts hk hloop

/-- **One round** of a read or a write keeps the count. -/
theorem resume_counts (hc : S.sched.currentProcess = some pid) (hf : (S.frames pid).counting)
    (h : S.Step .resume S') : S.Counts S' pid := by
  unfold Step step at h
  rw [hc] at h
  dsimp only at h
  generalize hframe : S.frames pid = f at hf h
  cases f with
  | semWait semId k =>
      have hne : ∀ w, S.frames pid ≠ .writing w := by
        intro w
        rw [hframe]
        simp
      simp only [resume, Option.bind_eq_bind, Option.bind_eq_some_iff, Prod.exists] at h
      obtain ⟨taken, S₂, hloop, h⟩ := h
      cases taken with
      | false =>
          obtain rfl := Option.some.inj h
          exact semWaitLoop_counts hf hloop
      | true => exact afterWait_counts hne hf h
  | reading r =>
      have hne : ∀ w, S.frames pid ≠ .writing w := by
        intro w
        rw [hframe]
        simp
      rcases readRound_cases h with ⟨-, rfl⟩ | ⟨-, st, S₂, -, -, hwait⟩
      · refine .inr ⟨Function.update_self _ _ _, ?_⟩
        unfold answer
        rw [hframe]
        exact hf
      · exact waitThen_counts (k := .take r) hne hf hwait
  | writing w =>
      rcases writeRound_cases h with ⟨-, rfl⟩ | ⟨-, st, -, hwait⟩
      · refine .inr ⟨Function.update_self _ _ _, ?_⟩
        unfold answer
        rw [hframe]
        exact Int.natCast_nonneg _
      · rcases waitThen_cases hwait with ⟨S₂, -, hafter⟩ | hwait
        · obtain ⟨_, byte, r₁, S₃, -, -, -, rfl⟩ := storeByte_cases hafter
          left
          rw [setFrame_frames, Function.update_self]
          trivial
        · rcases semWait_cases hwait with ⟨hback, -⟩ | ⟨-, -, -, hloop⟩
          · exact absurd hback (by simp)
          · exact semWaitLoop_counts (k := .store w) trivial hloop
  | _ => exact absurd hf id

theorem user_resumes (hc : S.sched.currentProcess = some pid) (hf : S.frames pid = .user) :
    ¬S.Step .resume S' := by
  unfold Step step
  rw [hc]
  dsimp only
  rw [hf]
  simp [resume]

/-- Whoever goes on with a read or a write never gets a negative number. -/
theorem returns_nonneg (hf : (S.frames pid).counting) (h : ComesBack pid S v S') : 0 ≤ v := by
  induction h with
  | last hc hstep hback =>
      rcases resume_counts hc hf hstep with hcount | ⟨-, hv⟩
      · rw [hback] at hcount
        exact absurd hcount id
      · exact hv
  | next hc hstep h ih =>
      rcases resume_counts hc hf hstep with hcount | ⟨hback, -⟩
      · exact ih hcount
      · -- who is back does not go on
        cases h with
        | last hc' hstep' => exact absurd hstep' (user_resumes hc' hback)
        | next hc' hstep' => exact absurd hstep' (user_resumes hc' hback)

/-- The calls of `sys_read` and `sys_write`. -/
def Transfer : Syscall → Prop
  | .read _ _ | .write _ _ => True
  | _ => False

/-- **No read or write is refused**, whatever its descriptor. -/
theorem not_refused {call : Syscall} (hcall : Transfer call) : ¬S.Refused call := by
  rintro ⟨v, S', ⟨pid, S₁, hc, hstep, hback⟩, hneg, -⟩
  obtain ⟨c, hc', hf, hsys⟩ := step_call hstep
  obtain rfl := Option.some.inj (hc.symm.trans hc')
  rcases hback with ⟨-, rfl, -⟩ | ⟨hworking, hreturns⟩
  · cases call with
    | write fd buf => exact absurd hneg (not_lt.mpr (Int.natCast_nonneg _))
    | read fd count => exact absurd hneg (lt_irrefl 0)
    | _ => exact hcall
  · refine absurd hneg (not_lt.mpr (returns_nonneg ?_ hreturns))
    cases call with
    | write fd buf =>
        rcases writeToFD_cases hsys with ⟨-, rfl⟩ | ⟨_, _, -, -, rfl⟩
        · exact absurd hf hworking
        · rw [setFrame_frames, Function.update_self]
          trivial
    | read fd count =>
        rcases readFromFD_cases hsys with rfl | ⟨-, _, -, rfl⟩
        · exact absurd hf hworking
        · rw [setFrame_frames, Function.update_self]
          exact le_refl (0 : ℤ)
    | _ => exact absurd hcall id

/-- **No invalid descriptor is refused** by `sys_read` or `sys_write`, in any state
and for any count. A write to one clears `eof` of the stream that it leads to. -/
theorem descriptors_unchecked (nodes blocks : ℕ → Bool) (S : Machine)
    (h : Reaches Step always (boot nodes blocks) S) (fd count : ℤ) (buf : List UInt8) :
    (¬S.OpenUnless fd .W → fd ≠ stdin ∧ ¬S.Refused (.read fd count)) ∧
      (¬S.OpenUnless fd .R → (fd ≠ stdout ∧ fd ≠ stderr) ∧ ¬S.Refused (.write fd buf) ∧
        ∀ S', S.Step (.call (.write fd buf)) S' → ∃ id st, S.resource fd = some id ∧
          S.streams id = some st ∧ S'.streams id = some { st with eof := false }) := by
  have hstandard : ∀ fd < 3, S.fileDescriptors fd = (off nodes blocks).fileDescriptors fd :=
    fun fd => standard_run h
  refine ⟨fun hbad => ⟨?_, not_refused trivial⟩, fun hbad => ?_⟩
  · rintro rfl
    refine hbad ⟨by decide, ?_⟩
    rw [hstandard stdin (by decide)]
    exact ⟨rfl, by simp [off]⟩
  · have hout : fd ≠ stdout := by
      rintro rfl
      refine hbad ⟨by decide, ?_⟩
      rw [hstandard stdout (by decide)]
      exact ⟨rfl, by simp [off, stdout, stdin]⟩
    have herr : fd ≠ stderr := by
      rintro rfl
      refine hbad ⟨by decide, ?_⟩
      rw [hstandard stderr (by decide)]
      exact ⟨rfl, by simp [off, stderr, stdin]⟩
    refine ⟨⟨hout, herr⟩, not_refused trivial, fun S' hstep => ?_⟩
    obtain ⟨pid, -, -, hwrite⟩ := step_call hstep
    rcases writeToFD_cases hwrite with ⟨hfd, -⟩ | ⟨id, st, hid, hst, rfl⟩
    · rcases hfd with rfl | rfl
      · exact absurd rfl hout
      · exact absurd rfl herr
    · exact ⟨id, st, hid, hst, Function.update_self _ _ _⟩

/-- The shell makes a pipe and closes its write end, which sets `eof`. -/
def writeEndClosed : List Event := [.call (.pipe fun _ => 0), .call (.close 4)]

theorem descriptors_unchecked_closed : ∃ S, exec step booted writeEndClosed = some S ∧
    ¬S.OpenUnless 4 .R ∧ ¬S.Refused (.write 4 [65]) := by
  obtain ⟨S, hS⟩ := Option.isSome_iff_exists.mp (by decide +kernel :
    (exec step booted writeEndClosed).isSome)
  have hend : (exec step booted writeEndClosed).map (fun S => (S.fileDescriptors 4).isOpen) =
      some false := by
    decide +kernel
  rw [hS, Option.map_some, Option.some.injEq] at hend
  have hclosed : ¬S.OpenUnless 4 .R := fun hopen => absurd hopen.2.1 (by simp [hend])
  have hrun : Reaches Step always booted S := exec_always hS fun _ _ _ => trivial
  exact ⟨S, hS, hclosed, ((descriptors_unchecked _ _ S hrun 4 0 [65]).2 hclosed).2.1⟩

/-- **A byte goes into a pipe whose write end is closed**, and the end of the stream
is forgotten. -/
theorem write_after_close : ¬∀ nodes blocks S, Reaches Step always (boot nodes blocks) S →
    ∀ fd buf, ¬S.OpenUnless fd .R → (∃ S', S.Step (.call (.write fd buf)) S') →
      S.Refused (.write fd buf) := by
  intro hall
  obtain ⟨S, hS⟩ := Option.isSome_iff_exists.mp (by decide +kernel :
    (exec step booted writeEndClosed).isSome)
  obtain ⟨S', hS'⟩ := Option.isSome_iff_exists.mp (by decide +kernel :
    ((exec step booted writeEndClosed).bind fun S => S.step (.call (.write 4 [65]))).isSome)
  have hend : (exec step booted writeEndClosed).map (fun S => (S.fileDescriptors 4).isOpen) =
      some false := by
    decide +kernel
  rw [hS, Option.map_some, Option.some.injEq] at hend
  rw [hS, Option.bind_some] at hS'
  have hrefused := hall _ _ S (exec_always hS fun _ _ _ => trivial) 4 [65]
    (fun hopen => absurd hopen.2.1 (by simp [hend])) ⟨S', hS'⟩
  have hnot : ¬S.Refused (.write 4 [65]) := not_refused trivial
  exact hnot hrefused

end Machine

end BareKernel.Kernel
