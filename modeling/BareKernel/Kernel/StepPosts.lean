import BareKernel.Kernel.FileSteps

/-!
# The semaphores that a step posts and destroys

Both follow from the state before the step: from the call, from the frame in which
a process goes on, and from the ends that the streams of closed descriptors still have.
-/

namespace BareKernel.Kernel

open ProcessState Runs

/-- Only semaphores in `P` are posted, and only those in `D` are destroyed. -/
def Obs.inside (P D : ℤ → Prop) : Obs → Prop
  | .semPosted _ semId _ => P semId
  | .semDestroyed semId => D semId
  | _ => True

theorem Obs.inside_of_quiet {P D : ℤ → Prop} {o : Obs} (h : ∀ semId, ¬o.Touches semId) :
    o.inside P D := by
  cases o with
  | semPosted pid semId before => exact absurd rfl (h semId)
  | semDestroyed semId => exact absurd rfl (h semId)
  | _ => trivial

namespace Machine

variable {S S' S₁ M : Machine} {e : Event} {c pid fd : ℤ} {st : Stream} {P D : ℤ → Prop}

/-! ## What is posted and destroyed -/

/-- What `closeFD` leaves of the stream of a descriptor. -/
def closedEnd (S : Machine) (fd : ℤ) : Option Stream :=
  let d := S.fileDescriptors fd
  if fd < 0 ∨ fd = stdin ∨ fd = stdout ∨ fd = stderr ∨ fd ≥ maxFds ∨ !d.isOpen then none
  else (d.resource.bind S.streams).map fun st => st.dropEnd d.mode

/-- Without a writer the readers get tokens. -/
def eofPosts (S : Machine) (fd : ℤ) : List ℤ :=
  match S.closedEnd fd with
  | some st => if st.readers > 0 ∧ st.writers ≤ 0 then [st.readSem] else []
  | none => []

/-- Without both ends the semaphores of the stream are destroyed. -/
def lastEnds (S : Machine) (fd : ℤ) : List ℤ :=
  match S.closedEnd fd with
  | some st => if st.readers = 0 ∧ st.writers = 0 then [st.readSem, st.writeSem] else []
  | none => []

/-- What an event closes, one descriptor after the other. -/
def overClosings (S : Machine) (f : Machine → ℤ → List ℤ) : Event → List ℤ
  | .call (.close fd) => f S fd
  | .call (.kill pid) =>
      if (initPid < pid ∧ pid ≤ maxPid) ∧ (S.sched.processes pid).state ≠ EXITED then
        let fds := (S.sched.processes pid).fds
        f S fds.1 ++ f (S.withoutEnd fds.1) fds.2
      else []
  | .resume =>
      match S.sched.currentProcess with
      | some c =>
          match S.frames c with
          | .exiting .closeIn => f S (S.sched.processes c).fds.1
          | .exiting .closeOut => f S (S.sched.processes c).fds.2
          | _ => []
      | none => []
  | _ => []

/-- A process that has taken a byte posts to the writers, and one that has stored one to
the readers. -/
def transferPosts (S : Machine) : AfterWait → List ℤ
  | .take r => (S.streams r.stream).elim [] fun st => [st.writeSem]
  | .store w => (S.streams w.stream).elim [] fun st => [st.readSem]
  | .done | .readAt _ _ => []

/-- At the end of the stream a reader also gives itself a token. -/
def framePosts (S : Machine) : Frame → List ℤ
  | .semWait _ k => S.transferPosts k
  | .reading r =>
      ((S.streams r.stream).elim [] fun st => if st.eof then [st.readSem] else []) ++
        S.transferPosts (.take r)
  | .writing w => S.transferPosts (.store w)
  | _ => []

/-- The semaphores that a step may post to. -/
def posts (S : Machine) : Event → List ℤ
  | .call (.semPost semId) => [semId]
  | .resume =>
      (match S.sched.currentProcess with
        | some c => S.framePosts (S.frames c)
        | none => []) ++ S.overClosings eofPosts .resume
  | e => S.overClosings eofPosts e

/-- The semaphores that a step destroys. -/
def destroys (S : Machine) : Event → List ℤ
  | .call (.semDestroy semId) => [semId]
  | e => S.overClosings lastEnds e

/-! ## Every operation -/

/-- What is recorded between the two states posts only to `P` and destroys only `D`. -/
def Logs (P D : ℤ → Prop) (S S' : Machine) : Prop := ∀ o, S.Records S' o → o.inside P D

theorem Logs.same (h : S'.trace = S.trace) : Logs P D S S' :=
  fun _ hrec => absurd hrec (not_records_same h)

theorem Logs.trans (h : Logs P D S M) (h' : Logs P D M S') : Logs P D S S' :=
  fun o hrec => (hrec.split M).elim (h o) (h' o)

theorem Logs.note {o : Obs} (ho : o.inside P D) : Logs P D S (S.note o) :=
  fun _ hrec => records_note_iff.mp hrec ▸ ho

theorem Aside.logs (h : Aside S S') : Logs P D S S' :=
  fun o hrec => Obs.inside_of_quiet fun semId ho => h.quiet semId o ho hrec

theorem semPost_logs {semId : ℤ} {r : Int32} (hP : P semId)
    (h : S.semPost semId = some (r, S')) : Logs P D S S' := by
  rcases semPost_cases h with ⟨rfl, -⟩ | ⟨⟨hpos, -⟩, -, pids, -, rfl⟩
  · exact .same rfl
  · have hpost : Obs.inside P D (.semPosted S.sched.currentProcess semId.toNat
        (S.sems.sems semId.toNat).value) := by
      change P (semId.toNat : ℤ)
      rwa [Int.toNat_of_nonneg hpos]
    exact ((Logs.same rfl).trans (.note hpost)).trans (.same rfl)

theorem semDestroy_logs {semId : ℤ} {r : Int32} (hD : D semId)
    (h : S.semDestroy semId = some (r, S')) : Logs P D S S' := by
  obtain ⟨⟨hpos, -⟩, pids, -, rfl⟩ := semDestroy_cases h
  have hdestroy : Obs.inside P D (.semDestroyed semId.toNat) := by
    change D (semId.toNat : ℤ)
    rwa [Int.toNat_of_nonneg hpos]
  exact ((Logs.same rfl).trans (.note hdestroy)).trans (.same rfl)

theorem semSetValue_logs {semId : ℤ} {value r : Int32}
    (h : S.semSetValue semId value = some (r, S')) : Logs P D S S' := by
  rcases semSetValue_cases h with rfl | ⟨-, _, pids, rfl⟩
  · exact .same rfl
  · have hset : Obs.inside P D (.semSet semId.toNat value) := trivial
    exact ((Logs.same rfl).trans (.note hset)).trans (.same rfl)

theorem semCreate_logs {name : CString} {value : Int32} {semId : ℤ}
    (h : S.semCreate pid name value = (semId, S')) : Logs P D S S' := by
  rcases semCreate_free h with ⟨-, rfl⟩ | ⟨_, -, -, -, -, -, haside⟩
  · exact .same rfl
  · exact haside.logs

theorem fallAsleep_logs (S : Machine) (pid : ℤ) (semId : ℕ) (k : AfterWait) :
    Logs P D S (S.fallAsleep pid semId k) := by
  apply Logs.same
  unfold fallAsleep
  rw [onSched_trace, setFrame_trace, enlist_trace]

theorem semWaitLoop_logs {semId : ℕ} {k : AfterWait} {taken : Bool}
    (h : S.semWaitLoop pid semId k = some (taken, S')) : Logs P D S S' := by
  rcases semWaitLoop_cases h with ⟨-, -, -, rfl⟩ | ⟨-, -, rfl⟩
  · exact fallAsleep_logs S pid semId k
  · have htake : Obs.inside P D (.semWaited pid semId) := trivial
    exact (Logs.same rfl).trans (.note htake)

theorem semWait_logs {semId : ℤ} {k : AfterWait} {returned : Bool}
    (h : S.semWait pid semId k = some (returned, S')) : Logs P D S S' := by
  rcases semWait_cases h with ⟨-, rfl⟩ | ⟨-, -, -, hloop⟩
  · exact .same rfl
  · exact semWaitLoop_logs hloop

theorem takeByte_logs {r : Reader} (hP : ∀ semId ∈ S.transferPosts (.take r), P semId)
    (h : S.takeByte pid r = some S') : Logs P D S S' := by
  obtain ⟨st, hst, ⟨-, r₁, S₁, hpost, rfl⟩ | ⟨-, rfl⟩⟩ := takeByte_cases h
  · have hwrite : P st.writeSem := hP _ (by simp [transferPosts, hst])
    have htook : Logs P D S ((S.setStream r.stream st.advance).note
        (.took r.stream (st.buffer st.readPos))) := (Logs.same rfl).trans (.note trivial)
    have hposted := htook.trans (semPost_logs hwrite hpost)
    split
    · exact (hposted.trans (.same rfl)).trans (.note trivial)
    · exact hposted.trans (.same rfl)
  · exact ((Logs.same rfl).trans (.same rfl)).trans (.note trivial)

theorem storeByte_logs {w : Writer} (hP : ∀ semId ∈ S.transferPosts (.store w), P semId)
    (h : S.storeByte pid w = some S') : Logs P D S S' := by
  obtain ⟨st, byte, r₁, S₁, hst, -, hpost, rfl⟩ := storeByte_cases h
  have hread : P st.readSem := hP _ (by simp [transferPosts, hst])
  have hstored : Logs P D S ((S.setStream w.stream (st.put byte)).note (.stored w.stream byte)) :=
    (Logs.same rfl).trans (.note trivial)
  exact (hstored.trans (semPost_logs hread hpost)).trans (.same rfl)

theorem finishReadAt_logs {stream pos : ℕ} (h : S.finishReadAt pid stream pos = some S') :
    Logs P D S S' := by
  obtain ⟨st, -, rfl⟩ := finishReadAt_cases h
  exact .same rfl

theorem afterWait_logs {k : AfterWait} (hP : ∀ semId ∈ S.transferPosts k, P semId)
    (h : S.afterWait pid k = some S') : Logs P D S S' := by
  cases k with
  | done => exact Option.some.inj h ▸ .same rfl
  | take r => exact takeByte_logs hP h
  | store w => exact storeByte_logs hP h
  | readAt stream pos => exact finishReadAt_logs h

theorem transferPosts_congr (h : SameFiles S S') (k : AfterWait) :
    S'.transferPosts k = S.transferPosts k := by
  cases k <;> simp [transferPosts, h.2.1]

theorem waitThen_logs {semId : ℤ} {k : AfterWait} (hP : ∀ semId ∈ S.transferPosts k, P semId)
    (h : S.waitThen pid semId k = some S') : Logs P D S S' := by
  rcases waitThen_cases h with ⟨S₁, hwait, hafter⟩ | hwait
  · rw [← transferPosts_congr (semWait_files hwait)] at hP
    exact (semWait_logs hwait).trans (afterWait_logs hP hafter)
  · exact semWait_logs hwait

theorem readRound_logs {r : Reader} (hP : ∀ semId ∈ S.framePosts (.reading r), P semId)
    (h : S.readRound pid r = some S') : Logs P D S S' := by
  rcases readRound_cases h with ⟨-, rfl⟩ | ⟨-, st, S₁, hst, htoken, hwait⟩
  · exact (Logs.same rfl).trans (.note trivial)
  · have htransfer : ∀ semId ∈ S.transferPosts (.take r), P semId := fun semId hmem =>
      hP semId (List.mem_append_right _ hmem)
    rcases htoken with ⟨-, rfl⟩ | ⟨heof, r₁, hpost⟩
    · exact waitThen_logs htransfer hwait
    · have hread : P st.readSem := hP _ (by simp [framePosts, hst, heof])
      rw [← transferPosts_congr (semPost_files hpost)] at htransfer
      exact (semPost_logs hread hpost).trans (waitThen_logs htransfer hwait)

theorem writeRound_logs {w : Writer} (hP : ∀ semId ∈ S.framePosts (.writing w), P semId)
    (h : S.writeRound pid w = some S') : Logs P D S S' := by
  rcases writeRound_cases h with ⟨-, rfl⟩ | ⟨-, st, -, hwait⟩
  · exact .same rfl
  · have htransfer : ∀ semId ∈ S.transferPosts (.store w), P semId := hP
    exact waitThen_logs htransfer hwait

/-! ## Closing -/

theorem closedEnd_some {id : ℕ} (hgood : S.Closable fd) (hfd : fd ≠ stdin)
    (hid : (S.fileDescriptors fd).resource = some id) (hst : S.streams id = some st) :
    S.closedEnd fd = some (st.dropEnd (S.fileDescriptors fd).mode) := by
  obtain ⟨⟨hpos, hlt⟩, ⟨hout, herr⟩, hopen⟩ := hgood
  unfold closedEnd
  rw [if_neg (by simp [not_lt.mpr hpos, hfd, hout, herr, not_le.mpr hlt, hopen]), hid,
    Option.bind_some, hst, Option.map_some]

/-- What the two lists depend on. -/
theorem closedEnd_congr (hfds : S'.fileDescriptors = S.fileDescriptors)
    (hstreams : ∀ id, (S'.streams id).map ends = (S.streams id).map ends) (fd : ℤ) :
    (S'.closedEnd fd).map ends = (S.closedEnd fd).map ends := by
  unfold closedEnd
  rw [hfds]
  dsimp only
  split
  · rfl
  · cases hid : (S.fileDescriptors fd).resource with
    | none => rfl
    | some id =>
        have hsame := hstreams id
        rw [Option.bind_some, Option.bind_some, Option.map_map, Option.map_map]
        cases hst : S.streams id with
        | none =>
            rw [hst] at hsame
            rw [Option.map_eq_none_iff.mp hsame]
        | some st =>
            rw [hst] at hsame
            obtain ⟨st', hst', hends⟩ := Option.map_eq_some_iff.mp hsame
            obtain ⟨hr, hw, hrs, hws⟩ := ends_eq hends
            rw [hst']
            cases (S.fileDescriptors fd).mode <;> simp [ends, Stream.dropEnd, hr, hw, hrs, hws]

theorem eofPosts_eq (S : Machine) (fd : ℤ) : S.eofPosts fd =
    ((S.closedEnd fd).map ends).elim [] fun x => if x.1 > 0 ∧ x.2.1 ≤ 0 then [x.2.2.1] else [] := by
  unfold eofPosts
  cases S.closedEnd fd <;> rfl

theorem lastEnds_eq (S : Machine) (fd : ℤ) : S.lastEnds fd = ((S.closedEnd fd).map ends).elim []
    fun x => if x.1 = 0 ∧ x.2.1 = 0 then [x.2.2.1, x.2.2.2] else [] := by
  unfold lastEnds
  cases S.closedEnd fd <;> rfl

theorem closes_congr (hfds : S'.fileDescriptors = S.fileDescriptors)
    (hstreams : ∀ id, (S'.streams id).map ends = (S.streams id).map ends) (fd : ℤ) :
    S'.eofPosts fd = S.eofPosts fd ∧ S'.lastEnds fd = S.lastEnds fd := by
  rw [eofPosts_eq, eofPosts_eq, lastEnds_eq, lastEnds_eq, closedEnd_congr hfds hstreams]
  exact ⟨rfl, rfl⟩

theorem postTimes_logs {semId : ℤ} (hP : P semId) : ∀ {n : ℕ} {S : Machine},
    postTimes n S semId = some S' → Logs P D S S'
  | 0, _, h => Option.some.inj h ▸ .same rfl
  | n + 1, S, h => by
      simp only [postTimes, Option.bind_eq_bind, Option.bind_eq_some_iff, Prod.exists] at h
      obtain ⟨r, S₁, hpost, hrest⟩ := h
      exact (semPost_logs hP hpost).trans (postTimes_logs hP hrest)

/-- **What a close posts and destroys.** -/
theorem closeFD_logs {r : Int32} (hP : ∀ semId ∈ S.eofPosts fd, P semId)
    (hD : ∀ semId ∈ S.lastEnds fd, D semId) (h : S.closeFD fd = some (r, S')) :
    Logs P D S S' := by
  rcases closeFD_cases h with ⟨-, -, rfl⟩ | ⟨hgood, -, id, st, hid, hst, ⟨-, rfl⟩ | ⟨hfd, hend⟩⟩
  · exact .same rfl
  · exact .same rfl
  · obtain ⟨-, S₁, S₂, hsignal, hfree, rfl⟩ := closeEnd_cases hend
    have hleft := closedEnd_some hgood hfd hid hst
    unfold eofPosts at hP
    unfold lastEnds at hD
    rw [hleft] at hP hD
    dsimp only at hP hD
    generalize st.dropEnd (S.fileDescriptors fd).mode = st' at *
    have hsignalled : Logs P D S S₁ := by
      rcases signalEof_cases hsignal with ⟨hwriters, hposts⟩ | ⟨-, rfl⟩
      · rw [if_pos hwriters] at hP
        have hpost := postTimes_logs (D := D) (hP _ (List.mem_singleton_self _)) hposts
        exact (Logs.same rfl).trans hpost
      · exact .same rfl
    have hfreed : Logs P D S₁ S₂ := by
      rcases freeStream_cases hfree with ⟨hends, _, M, _, M', hread, hwrite, rfl⟩ | ⟨-, rfl⟩
      · rw [if_pos hends] at hD
        have hfirst := semDestroy_logs (P := P) (hD _ (by simp)) hread
        exact (hfirst.trans (semDestroy_logs (hD _ (by simp)) hwrite)).trans (.same rfl)
      · exact .same rfl
    exact (hsignalled.trans hfreed).trans (.same rfl)

/-- The second close of a kill finds what the first has left. -/
theorem kill_closings {r : Int32}
    (halive : (initPid < pid ∧ pid ≤ maxPid) ∧ (S.sched.processes pid).state ≠ EXITED)
    (hin : (S.killStart pid .leave).closeFD (S.sched.processes pid).fds.1 = some (r, S₁)) :
    S.overClosings eofPosts (.call (.kill pid)) =
        (S.killStart pid .leave).eofPosts (S.sched.processes pid).fds.1 ++
          S₁.eofPosts (S.sched.processes pid).fds.2 ∧
      S.overClosings lastEnds (.call (.kill pid)) =
        (S.killStart pid .leave).lastEnds (S.sched.processes pid).fds.1 ++
          S₁.lastEnds (S.sched.processes pid).fds.2 := by
  have hstart : (S.killStart pid .leave).fileDescriptors = S.fileDescriptors := rfl
  have hfirst := closes_congr hstart (fun _ => rfl) (S.sched.processes pid).fds.1
  obtain ⟨hfds, hstreams⟩ := closeFD_withoutEnd hin
  obtain ⟨hfds', hstreams'⟩ : ((S.killStart pid .leave).withoutEnd
      (S.sched.processes pid).fds.1).fileDescriptors =
        (S.withoutEnd (S.sched.processes pid).fds.1).fileDescriptors ∧
      ((S.killStart pid .leave).withoutEnd (S.sched.processes pid).fds.1).streams =
        (S.withoutEnd (S.sched.processes pid).fds.1).streams :=
    withoutEnd_congr hstart rfl
  have hsecond := closes_congr (S := S.withoutEnd (S.sched.processes pid).fds.1)
    (hfds.trans hfds') (fun id => by rw [hstreams id, hstreams']) (S.sched.processes pid).fds.2
  unfold overClosings
  dsimp only
  rw [if_pos halive, if_pos halive, hfirst.1, hfirst.2, hsecond.1, hsecond.2]
  exact ⟨rfl, rfl⟩

/-! ## Every step -/

/-- **A step posts and destroys** only what the state before it says. -/
theorem Uses.logs (hc : S.sched.currentProcess = some c) (h : S.Uses c e S') :
    Logs (· ∈ S.posts e) (· ∈ S.destroys e) S S' := by
  cases h with
  | semWait hwait => exact waitThen_logs (by simp [transferPosts]) hwait
  | semPost hpost => exact semPost_logs (by simp [posts]) hpost
  | semSetValue hset => exact semSetValue_logs hset
  | semDestroy hdestroy => exact semDestroy_logs (by simp [destroys]) hdestroy
  | @pipe fresh _ _ hpipe =>
      rcases createPipe_cases hpipe with ⟨-, rfl | ⟨fd, -, rfl⟩⟩ |
        ⟨-, fd1, fd2, _, _, S₁, S₂, -, hread, hwrite, rfl⟩
      · exact .same rfl
      · exact .same rfl
      · have hreserved : Logs (· ∈ S.posts (.call (.pipe fresh)))
            (· ∈ S.destroys (.call (.pipe fresh))) S (S.reserve fd1 fd2) := .same rfl
        have hboth := (hreserved.trans (semCreate_logs hread)).trans (semCreate_logs hwrite)
        exact hboth.trans (.same rfl)
  | close hclose => exact closeFD_logs (fun _ => id) (fun _ => id) hclose
  | @kill pid r₁ r₂ S₁ S₂ _ halive hin hout hend =>
      have hstart : Aside S (S.killStart pid .leave) := .killStart S pid .leave
      obtain ⟨hposts, hends⟩ := kill_closings halive hin
      have hclosedIn : Logs (· ∈ S.posts (.call (.kill pid))) (· ∈ S.destroys (.call (.kill pid)))
          (S.killStart pid .leave) S₁ :=
        closeFD_logs (fun _ hmem => by simp [posts, hposts, hmem])
          (fun _ hmem => by simp [destroys, hends, hmem]) hin
      have hclosedOut : Logs (· ∈ S.posts (.call (.kill pid)))
          (· ∈ S.destroys (.call (.kill pid))) S₁ S₂ :=
        closeFD_logs (fun _ hmem => by simp [posts, hposts, hmem])
          (fun _ hmem => by simp [destroys, hends, hmem]) hout
      exact ((hstart.logs.trans hclosedIn).trans hclosedOut).trans hend.logs
  | closeIn hf hclose =>
      have hclosed : Logs (· ∈ S.posts .resume) (· ∈ S.destroys .resume) S _ :=
        closeFD_logs (fun _ hmem => by simp [posts, overClosings, hc, hf, hmem])
          (fun _ hmem => by simp [destroys, overClosings, hc, hf, hmem]) hclose
      exact hclosed.trans (.same rfl)
  | closeOut hf hclose =>
      have hclosed : Logs (· ∈ S.posts .resume) (· ∈ S.destroys .resume) S _ :=
        closeFD_logs (fun _ hmem => by simp [posts, overClosings, hc, hf, hmem])
          (fun _ hmem => by simp [destroys, overClosings, hc, hf, hmem]) hclose
      exact hclosed.trans (.same rfl)
  | read hread =>
      rcases readFromFD_cases hread with rfl | ⟨-, stream, -, rfl⟩
      · exact .same rfl
      · exact .same rfl
  | write hwrite =>
      rcases writeToFD_cases hwrite with ⟨-, rfl⟩ | ⟨stream, st, -, -, rfl⟩
      · exact .same rfl
      · exact .same rfl
  | readAt hread =>
      rcases readFromFDAt_cases hread with rfl | ⟨-, stream, st, -, -, ⟨-, hwait⟩ | ⟨-, hfinish⟩⟩
      · exact .same rfl
      · exact waitThen_logs (by simp [transferPosts]) hwait
      · exact finishReadAt_logs hfinish
  | reading hf hread =>
      exact readRound_logs (fun semId hmem => by simp [posts, hc, hf, hmem]) hread
  | writing hf hwrite =>
      exact writeRound_logs (fun semId hmem => by simp [posts, hc, hf, hmem]) hwrite
  | @woken semId k taken S₁ _ hf hloop hnext =>
      have hP : ∀ i ∈ S.transferPosts k, i ∈ S.posts .resume := fun i hmem => by
        simp [posts, hc, hf, framePosts, hmem]
      rcases hnext with ⟨-, rfl⟩ | ⟨-, hafter⟩
      · exact semWaitLoop_logs hloop
      · rw [← transferPosts_congr (semWaitLoop_files hloop)] at hP
        exact (semWaitLoop_logs hloop).trans (afterWait_logs hP hafter)

theorem step_logs (h : S.Step e S') : Logs (· ∈ S.posts e) (· ∈ S.destroys e) S S' := by
  rcases step_uses h with haside | ⟨c, hc, huses⟩
  · exact haside.logs
  · exact huses.logs hc

/-- The waiters that a step takes off a queue are those of what it posts or destroys. -/
theorem step_touches {semId : ℕ} {o : Obs} (h : S.Step e S') (ho : o.Touches semId)
    (hrec : S.Records S' o) : (semId : ℤ) ∈ S.posts e ++ S.destroys e := by
  have hin := step_logs h o hrec
  cases o with
  | semPosted pid i before =>
      obtain rfl : i = semId := ho
      exact List.mem_append_left _ hin
  | semDestroyed i =>
      obtain rfl : i = semId := ho
      exact List.mem_append_right _ hin
  | _ => exact ho.elim

end Machine

end BareKernel.Kernel
