import BareKernel.Kernel.PipeCredits

/-!
# A pipe is a lossless bounded queue

While the read end stays open, and the write end is closed only when nobody writes
any more, a short read happens at the end of the stream alone. What the readers took
is then all that the writers stored.
-/

namespace BareKernel.Kernel

open ProcessState Runs

/-- Inside `writeToFD` on the stream. -/
def Frame.writes (id : ℕ) : Frame → Prop
  | .writing w => w.stream = id
  | .semWait _ (.store w) => w.stream = id
  | _ => False

theorem Frame.idle.not_writes {f : Frame} {id : ℕ} (h : f.idle) : ¬f.writes id := by
  cases f <;> first | exact h.elim | exact not_false

namespace Machine

variable {S S' S₁ M : Machine} {e : Event} {c pid fd count : ℤ} {buf : List UInt8} {P : Pipe}
  {st st' : Stream} {nodes blocks : ℕ → Bool} {o : Obs}

/-- Some `readFromFD` on the stream returned fewer than `count` bytes, and no newline. -/
def Short (S : Machine) (id : ℕ) : Prop :=
  ∃ p count n, n < count ∧ .readReturned p id count n false ∈ S.history id

theorem Short.of_same {id : ℕ} (h : S'.Short id) (hsame : S'.history id = S.history id) :
    S.Short id := by
  obtain ⟨p, count, n, hless, hmem⟩ := h
  exact ⟨p, count, n, hless, hsame ▸ hmem⟩

/-- A record is a short read, or it changes nothing. -/
theorem Short.of_note {id : ℕ} (h : (S.note o).Short id) :
    S.Short id ∨ ∃ p count n, n < count ∧ o = .readReturned p id count n false := by
  obtain ⟨p, count, n, hless, hmem⟩ := h
  rcases List.mem_cons.mp (List.mem_of_mem_filter hmem) with heq | hmem'
  · exact .inr ⟨p, count, n, hless, heq.symm⟩
  · refine .inl ⟨p, count, n, hless, List.mem_filter.mpr ⟨hmem', ?_⟩⟩
    exact (List.mem_filter.mp hmem).2

/-- The read end is open, `eof` comes with the last writer, and behind a short read
there is neither a writer nor a byte. -/
structure Flow (P : Pipe) (S : Machine) (st : Stream) : Prop where
  readers : st.readers = 1
  writers : st.eof = false → 0 < st.writers
  short : S.Short P.id → st.writers = 0 ∧ st.dataAvailable ≤ 0

/-- The stream is there, with `n` writers. -/
def Flows (P : Pipe) (S : Machine) (n : ℤ) : Prop :=
  ∃ st, S.streams P.id = some st ∧ Flow P S st ∧ st.writers = n

theorem Flow.same (h : Flow P S st) (hhistory : S'.history P.id = S.history P.id) : Flow P S' st :=
  ⟨h.readers, h.writers, fun hshort => h.short (hshort.of_same hhistory)⟩

theorem Flow.flows (h : Flow P S st) (hst : S.streams P.id = some st)
    (hstreams : S'.streams P.id = S.streams P.id) (hhistory : S'.history P.id = S.history P.id) :
    Flows P S' st.writers :=
  ⟨st, hstreams.trans hst, h.same hhistory, rfl⟩

theorem Flow.local {A : ℤ → Prop} (h : Flow P S st) (hst : S.streams P.id = some st)
    (hlocal : Local (· ≠ P.id) A S S') : Flows P S' st.writers :=
  h.flows hst (hlocal.streams P.id (not_not.mpr rfl)) (hlocal.history P.id (not_not.mpr rfl))

/-! ## Reading -/

/-- A reader takes a byte, or it finds the end of the stream. -/
theorem takeByte_flows {r : Reader} (hr : r.stream = P.id) (hfd : r.fd ≠ stdin)
    (hst : S.streams P.id = some st)
    (hcredits : S.Credits P 1 0 st) (h : Flow P S st) (htake : S.takeByte pid r = some S') :
    Flows P S' st.writers := by
  obtain ⟨stream, n, m, k⟩ := r
  obtain rfl : n = P.id := hr
  obtain ⟨st₁, hst₁, hcases⟩ := takeByte_cases htake
  obtain rfl : st = st₁ := Option.some.inj (hst.symm.trans hst₁)
  rcases hcases with ⟨hgo, r₁, S₁, hpost, rfl⟩ | ⟨⟨heof, hnone⟩, rfl⟩
  · have hdata := hcredits.someData hgo
    have hlocal : Local (fun _ => False) (fun _ => True) _ S₁ := semPost_local trivial hpost
    have hstream : S₁.streams P.id = some st.advance := by
      rw [hlocal.streams P.id not_false]
      exact Function.update_self _ _ _
    -- nobody has come to the end while there is a byte
    have hnot : ¬S₁.Short P.id := by
      intro hshort
      rcases (hshort.of_same (hlocal.history P.id not_false)).of_note with
        hold | ⟨p, count, n, -, heq⟩
      · exact absurd (h.short hold).2 (not_le.mpr hdata)
      · exact absurd heq (by simp)
    have hflow : Flow P S₁ st.advance :=
      ⟨h.readers, h.writers, fun hshort => absurd hshort hnot⟩
    split
    · refine ⟨_, hstream, ⟨h.readers, h.writers, fun hshort => ?_⟩, rfl⟩
      rcases hshort.of_note with hold | ⟨p, count, n, -, heq⟩
      · exact absurd hold hnot
      · exact absurd heq (by simp)
    · exact ⟨_, hstream, hflow.same rfl, rfl⟩
  · obtain ⟨hwriters, hempty⟩ := hnone.resolve_left hfd
    exact ⟨{ st with eof := true }, Function.update_self _ _ _,
      ⟨h.readers, fun hnot => absurd hnot (by simp), fun _ => ⟨hwriters, hempty⟩⟩, rfl⟩

theorem take_flows {r : Reader} (hP : Slots P) (hr : r.stream = P.id) (hfd : r.fd ≠ stdin)
    (hst : S.streams P.id = some st) (hcredits : S.Credits P 0 0 st) (h : Flow P S st)
    (htake : S.Resumes pid P.readSem (.take r) S') : Flows P S' st.writers := by
  obtain ⟨taken, S₁, hloop, hnext⟩ := htake
  rcases semWaitLoop_cases hloop with ⟨rfl, -, -, rfl⟩ | ⟨rfl, hvalue, rfl⟩
  · obtain rfl := (hnext.resolve_right fun htrue => absurd htrue.1 (by simp)).2
    exact h.local (A := fun _ => True) hst (fallAsleep_local S pid P.readSem (.take r))
  · have hafter : (S.takeOne pid P.readSem).takeByte pid r = some S' :=
      (hnext.resolve_left fun hfalse => absurd hfalse.1 (by simp)).2
    have hlocal : Local (fun _ => False) (fun _ => True) S (S.takeOne pid P.readSem) :=
      takeOne_local trivial
    exact takeByte_flows (S := S.takeOne pid P.readSem) hr hfd hst (hcredits.waitRead hP hvalue)
      (h.same (hlocal.history P.id not_false)) hafter

/-- A round of `readFromFD`. -/
theorem readRound_flows {r : Reader} (hP : Slots P) (hr : r.stream = P.id) (hfd : r.fd ≠ stdin)
    (hst : S.streams P.id = some st) (hcredits : S.Credits P 0 0 st) (h : Flow P S st)
    (hread : S.readRound pid r = some S') : Flows P S' st.writers := by
  rcases readRound_cases hread with ⟨hdone, rfl⟩ | ⟨-, st₁, S₁, hst₁, htoken, hwait⟩
  · refine ⟨st, hst, ⟨h.readers, h.writers, fun hshort => ?_⟩, rfl⟩
    rcases hshort.of_note with hold | ⟨p, count, n, hless, heq⟩
    · exact h.short hold
    · -- a reader that has got all its bytes did not come too short
      rw [Obs.readReturned.injEq] at heq
      obtain ⟨-, -, rfl, rfl, -⟩ := heq
      exact absurd hless (not_lt.mpr hdone)
  · rw [hr] at hst₁
    obtain rfl : st = st₁ := Option.some.inj (hst.symm.trans hst₁)
    rw [hcredits.sems.1] at htoken hwait
    have htaken : S₁.streams P.id = some st ∧ S₁.Credits P 0 0 st ∧ Flow P S₁ st := by
      rcases htoken with ⟨-, rfl⟩ | ⟨heof, r₁, hpost⟩
      · exact ⟨hst, hcredits, h⟩
      · have hlocal : Local (fun _ => False) (fun _ => True) S S₁ := semPost_local trivial hpost
        have hposted := hcredits.postRead hP (fun hnot => absurd (hnot.symm.trans heof) (by simp))
          hpost
        exact ⟨(hlocal.streams P.id not_false).trans hst, hposted.ofEof heof,
          h.same (hlocal.history P.id not_false)⟩
    obtain ⟨hstream, hlawful, hflow⟩ := htaken
    exact take_flows hP hr hfd hstream hlawful hflow (waitThen_resumes hP.2.1 hlawful.used.1 hwait)

/-! ## Writing -/

/-- A writer stores a byte, so nobody has come to the end. -/
theorem storeByte_flows {w : Writer} (hw : w.stream = P.id) (hst : S.streams P.id = some st)
    (hwriters : 0 < st.writers) (h : Flow P S st) (hstore : S.storeByte pid w = some S') :
    Flows P S' st.writers := by
  obtain ⟨n, buf, written⟩ := w
  obtain rfl : n = P.id := hw
  obtain ⟨st₁, byte, r₁, S₁, hst₁, -, hpost, rfl⟩ := storeByte_cases hstore
  obtain rfl : st = st₁ := Option.some.inj (hst.symm.trans hst₁)
  have hlocal : Local (fun _ => False) (fun _ => True) _ S₁ := semPost_local trivial hpost
  refine ⟨st.put byte, ?_, ⟨h.readers, h.writers, fun hshort => ?_⟩, rfl⟩
  · change S₁.streams P.id = _
    rw [hlocal.streams P.id not_false]
    exact Function.update_self _ _ _
  · have hshort : S₁.Short P.id := hshort.of_same rfl
    rcases (hshort.of_same (hlocal.history P.id not_false)).of_note with
      hold | ⟨p, count, n, -, heq⟩
    · exact absurd (h.short hold).1 hwriters.ne'
    · exact absurd heq (by simp)

theorem store_flows {w : Writer} (hw : w.stream = P.id) (hst : S.streams P.id = some st)
    (hwriters : 0 < st.writers) (h : Flow P S st)
    (hstore : S.Resumes pid P.writeSem (.store w) S') : Flows P S' st.writers := by
  obtain ⟨taken, S₁, hloop, hnext⟩ := hstore
  rcases semWaitLoop_cases hloop with ⟨rfl, -, -, rfl⟩ | ⟨rfl, hvalue, rfl⟩
  · obtain rfl := (hnext.resolve_right fun htrue => absurd htrue.1 (by simp)).2
    exact h.local (A := fun _ => True) hst (fallAsleep_local S pid P.writeSem (.store w))
  · have hafter : (S.takeOne pid P.writeSem).storeByte pid w = some S' :=
      (hnext.resolve_left fun hfalse => absurd hfalse.1 (by simp)).2
    have hlocal : Local (fun _ => False) (fun _ => True) S (S.takeOne pid P.writeSem) :=
      takeOne_local trivial
    exact storeByte_flows (S := S.takeOne pid P.writeSem) hw hst hwriters
      (h.same (hlocal.history P.id not_false)) hafter

/-- A round of `writeToFD`. -/
theorem writeRound_flows {w : Writer} (hP : Slots P) (hw : w.stream = P.id)
    (hst : S.streams P.id = some st) (hcredits : S.Credits P 0 0 st) (hwriters : 0 < st.writers)
    (h : Flow P S st) (hwrite : S.writeRound pid w = some S') : Flows P S' st.writers := by
  rcases writeRound_cases hwrite with ⟨-, rfl⟩ | ⟨-, st₁, hst₁, hwait⟩
  · exact h.flows hst rfl rfl
  · rw [hw] at hst₁
    obtain rfl : st = st₁ := Option.some.inj (hst.symm.trans hst₁)
    rw [hcredits.sems.2] at hwait
    exact store_flows hw hst hwriters h (waitThen_resumes hP.2.2 hcredits.used.2 hwait)

/-- A write starts while there is a writer, so there is no end to forget. -/
theorem writeToFD_flows (hst : S.streams P.id = some st) (hcredits : S.Credits P 0 0 st)
    (hok : S.resource fd = some P.id → 0 < st.writers) (h : Flow P S st)
    (hwrite : S.writeToFD pid fd buf = some S') : Flows P S' st.writers := by
  rcases writeToFD_cases hwrite with ⟨-, rfl⟩ | ⟨stream, st₁, hstream, hst₁, rfl⟩
  · exact h.flows hst rfl rfl
  · by_cases hid : stream = P.id
    · subst hid
      obtain rfl : st = st₁ := Option.some.inj (hst.symm.trans hst₁)
      have hwriters := hok hstream
      exact ⟨{ st with eof := false }, Function.update_self _ _ _,
        ⟨h.readers, fun _ => hwriters, h.short⟩, rfl⟩
    · exact h.flows hst (Function.update_of_ne (Ne.symm hid) _ _) rfl

/-! ## Closing -/

/-- **Closing the write end** sets `eof` behind the last writer; the read end is not
closed. -/
theorem closeFD_flows {r : Int32} (hst : S.streams P.id = some st) (h : Flow P S st)
    (hinput : (S.fileDescriptors stdin).resource ≠ some P.id)
    (hok : S.Closable fd → (S.fileDescriptors fd).resource = some P.id →
      (S.fileDescriptors fd).mode = .W ∧ 0 < st.writers)
    (hclose : S.closeFD fd = some (r, S')) :
    ∃ n, Flows P S' n ∧ (¬S.WriteEnd P fd → n = st.writers) := by
  by_cases hid : S.Closable fd ∧ (S.fileDescriptors fd).resource = some P.id
  · obtain ⟨hgood, hid⟩ := hid
    obtain ⟨hmode, hwriters⟩ := hok hgood hid
    refine ⟨st.writers - 1, ?_, fun hno => absurd ⟨hgood, hid, hmode⟩ hno⟩
    rcases closeFD_cases hclose with ⟨hbad, -, -⟩ | ⟨-, -, id, st₁, hres, hst₁, hcases⟩
    · exact absurd hgood hbad
    · obtain rfl : P.id = id := Option.some.inj (hid.symm.trans hres)
      obtain rfl : st = st₁ := Option.some.inj (hst.symm.trans hst₁)
      have hend := (hcases.resolve_left fun hin => hinput (hin.1 ▸ hid)).2
      obtain ⟨-, S₁, S₂, hsignal, hfree, rfl⟩ := closeEnd_cases hend
      rw [hmode] at hsignal hfree
      have hreaders : (st.dropEnd .W).readers = 1 := h.readers
      have hnot : ¬S.Short P.id := fun hshort => absurd (h.short hshort).1 hwriters.ne'
      -- the stream has a reader, and stays
      obtain rfl : S₂ = S₁ := by
        rcases freeStream_cases hfree with ⟨hnone, -⟩ | ⟨-, heq⟩
        · exact absurd (hreaders.symm.trans hnone.1) (by decide)
        · exact heq
      rcases signalEof_cases hsignal with ⟨-, hposts⟩ | ⟨hmore, rfl⟩
      · have hlocal : Local (fun _ => False) (fun _ => True) _ S₂ := postTimes_local trivial hposts
        refine ⟨{ st.dropEnd .W with eof := true }, ?_,
          ⟨hreaders, fun hnot' => absurd hnot' (by simp), fun hshort => absurd ?_ hnot⟩, rfl⟩
        · exact (hlocal.streams P.id not_false).trans (Function.update_self _ _ _)
        · have hshort : S₂.Short P.id := hshort.of_same rfl
          exact hshort.of_same (hlocal.history P.id not_false)
      · refine ⟨st.dropEnd .W, Function.update_self _ _ _, ⟨hreaders, fun _ => ?_, fun hshort =>
          absurd (hshort.of_same rfl) hnot⟩, rfl⟩
        exact not_le.mp fun hnone => hmore ⟨hreaders ▸ zero_lt_one, hnone⟩
  · have hlocal : Local (· ≠ P.id) (fun _ => True) S S' := by
      refine closeFD_local (fun i hgood hi => ?_) (fun _ _ _ _ => ⟨trivial, trivial⟩) hclose
      rintro rfl
      exact hid ⟨hgood, hi⟩
    exact ⟨st.writers, h.local hst hlocal, fun _ => rfl⟩

/-! ## Steps -/

/-- The pipe has one write end. -/
def OneWriteEnd (P : Pipe) (S : Machine) : Prop :=
  ∀ fd fd', (S.fileDescriptors fd).resource = some P.id → (S.fileDescriptors fd).mode = .W →
    (S.fileDescriptors fd').resource = some P.id → (S.fileDescriptors fd').mode = .W → fd = fd'

/-- The semaphores are left to the pipe, it is not read by `readFromFDAt`, and its read
end stays open. Its write end is closed once, when nobody writes and nobody will. -/
def ordered (P : Pipe) (S : Machine) (e : Event) : Prop :=
  leavesSems P e ∧
    (∀ fd st, S.Closes e fd → S.Closable fd → (S.fileDescriptors fd).resource = some P.id →
      S.streams P.id = some st → (S.fileDescriptors fd).mode = .W ∧ 0 < st.writers ∧
        ∀ q, (∀ p, e = .call (.kill p) → q ≠ p) → ¬(S.frames q).writes P.id) ∧
    match e with
    | .call (.readAt fd) => (S.fileDescriptors fd).isOpen → (S.fileDescriptors fd).mode ≠ .W →
        (S.fileDescriptors fd).resource ≠ some P.id
    | .call (.write fd _) => ∀ st, S.resource fd = some P.id → S.streams P.id = some st →
        0 < st.writers
    | _ => True

structure Flowing (P : Pipe) (S : Machine) : Prop where
  intact : Intact P S
  one : OneWriteEnd P S
  flows : ∃ st, S.streams P.id = some st ∧ Flow P S st
  busy : ∀ q st, S.streams P.id = some st → (S.frames q).writes P.id → 0 < st.writers

/-- Used in this way the pipe keeps its credits. -/
theorem Flowing.conserves (h : Flowing P S) (hok : S.ordered P e) : S.conserves P e := by
  obtain ⟨hleaves, hends, hkeeps⟩ := hok
  obtain ⟨st, hst, hflow⟩ := h.flows
  refine fun _ =>
    ⟨hleaves, ⟨fun fd st' hcloses hend hst' => ?_, fun fd fd' _ _ hend hend' => ?_⟩, ?_⟩
  · exact (hends fd st' hcloses hend.1 hend.2.1 hst').2.1
  · exact h.one fd fd' hend.2.1 hend.2.2 hend'.2.1 hend'.2.2
  · cases e with
    | call call =>
        cases call with
        | readAt fd =>
            intro st' hopen hmode hres
            exact absurd hres (hkeeps hopen hmode)
        | write fd buf =>
            intro st' hres hst' heof
            exact absurd ((h.intact.lawful st' hst').ended heof) (hkeeps st' hres hst').ne'
        | _ => trivial
    | _ => trivial

/-- **What every use of semaphores and files leaves of the pipe.** -/
theorem uses_flows (h : Flowing P S) (hst : S.streams P.id = some st) (hflow : Flow P S st)
    (hok : S.ordered P e) (hc : S.sched.currentProcess = some c) (huses : S.Uses c e S') :
    ∃ n, Flows P S' n ∧ ((∀ fd, S.Closes e fd → ¬S.WriteEnd P fd) → n = st.writers) := by
  obtain ⟨-, hends, hkeeps⟩ := hok
  have hcredits := h.intact.lawful st hst
  have hA : Serves (· ≠ P.id) (fun _ => True) S := fun _ _ _ _ => ⟨trivial, trivial⟩
  have hsame : ∀ {M : Machine}, Flows P M st.writers → ∃ n, Flows P M n ∧
      ((∀ fd, S.Closes e fd → ¬S.WriteEnd P fd) → n = st.writers) :=
    fun hflows => ⟨_, hflows, fun _ => rfl⟩
  have hlocal : ∀ {M : Machine}, Local (· ≠ P.id) (fun _ => True) S M → ∃ n, Flows P M n ∧
      ((∀ fd, S.Closes e fd → ¬S.WriteEnd P fd) → n = st.writers) :=
    fun hM => hsame (hflow.local hst hM)
  have hframe : ∀ {M : Machine} {f : Frame} {n : ℤ}, Flows P M n → Flows P (M.setFrame c f) n :=
    fun ⟨st', hst', hflow', hn⟩ => ⟨st', hst', hflow'.same rfl, hn⟩
  cases huses with
  | semWait hwait =>
      refine hlocal (waitThen_local trivial (fun i hi => ?_) hA hwait)
      exact absurd hi (by simp [AfterWait.stream])
  | semPost hpost => exact hlocal (semPost_local trivial hpost)
  | semSetValue hset => exact hlocal (semSetValue_local trivial hset)
  | semDestroy hdestroy => exact hlocal (semDestroy_local trivial hdestroy)
  | pipe hpipe =>
      exact hsame (hflow.flows hst (createPipe_stream h.intact.made hpipe)
        (createPipe_history hpipe P.id))
  | close hclose =>
      obtain ⟨n, hflows, hn⟩ := closeFD_flows hst hflow h.intact.input (fun hgood hres =>
        have hend := hends _ st rfl hgood hres hst
        ⟨hend.1, hend.2.1⟩) hclose
      exact ⟨n, hflows, fun hno => hn (hno _ rfl)⟩
  | @kill pid r₁ r₂ S₁ S₂ _ halive hin hout hend =>
      have hfirst : S.Closes (.call (.kill pid)) (S.sched.processes pid).fds.1 :=
        ⟨halive, .inl rfl⟩
      have hsecond : S.Closes (.call (.kill pid)) (S.sched.processes pid).fds.2 :=
        ⟨halive, .inr rfl⟩
      have hstart : Flow P (S.killStart pid .leave) st :=
        hflow.same ((Aside.killStart S pid .leave).history P.id)
      obtain ⟨n, ⟨st₁, hst₁, hflow₁, rfl⟩, hn⟩ := closeFD_flows (S := S.killStart pid .leave) hst
        hstart h.intact.input
        (fun hgood hres =>
          have hend := hends _ st hfirst hgood hres hst
          ⟨hend.1, hend.2.1⟩) hin
      have hinput : (S₁.fileDescriptors stdin).resource ≠ some P.id := by
        rw [closeFD_resource hin]
        exact h.intact.input
      have hok : S₁.Closable (S.sched.processes pid).fds.2 →
          (S₁.fileDescriptors (S.sched.processes pid).fds.2).resource = some P.id →
            (S₁.fileDescriptors (S.sched.processes pid).fds.2).mode = .W ∧ 0 < st₁.writers := by
        intro hgood hres
        obtain ⟨⟨hwas, hsame'⟩, hclosed⟩ := closeFD_closable hin hgood
        rw [hsame'] at hres ⊢
        obtain ⟨hmode, hwriters, -⟩ := hends _ st hsecond hwas hres hst
        refine ⟨hmode, ?_⟩
        by_cases hboth : (S.killStart pid .leave).WriteEnd P (S.sched.processes pid).fds.1
        · -- two write ends would be one, which is closed by now
          have heq := h.one _ _ hboth.2.1 hboth.2.2 hres hmode
          refine absurd hboth.1 (hclosed heq ?_)
          rintro hin
          exact h.intact.input (hin ▸ hboth.2.1)
        · rw [hn hboth]
          exact hwriters
      obtain ⟨n, ⟨st₂, hst₂, hflow₂, rfl⟩, hn₂⟩ := closeFD_flows hst₁ hflow₁ hinput hok hout
      refine ⟨_, hflow₂.flows hst₂ (congrFun hend.files.2.1 _) (hend.history _), fun hno => ?_⟩
      rw [hn₂ fun hw => hno _ hsecond (closeFD_writeEnd hin hw).1, hn (hno _ hfirst)]
  | closeIn hf hclose =>
      have hcloses : S.Closes .resume (S.sched.processes c).fds.1 := ⟨c, hc, .inl ⟨hf, rfl⟩⟩
      obtain ⟨n, hflows, hn⟩ := closeFD_flows hst hflow h.intact.input (fun hgood hres =>
        have hend := hends _ st hcloses hgood hres hst
        ⟨hend.1, hend.2.1⟩) hclose
      exact ⟨n, hframe hflows, fun hno => hn (hno _ hcloses)⟩
  | closeOut hf hclose =>
      have hcloses : S.Closes .resume (S.sched.processes c).fds.2 := ⟨c, hc, .inr ⟨hf, rfl⟩⟩
      obtain ⟨n, hflows, hn⟩ := closeFD_flows hst hflow h.intact.input (fun hgood hres =>
        have hend := hends _ st hcloses hgood hres hst
        ⟨hend.1, hend.2.1⟩) hclose
      exact ⟨n, hframe hflows, fun hno => hn (hno _ hcloses)⟩
  | read hread =>
      rcases readFromFD_cases hread with rfl | ⟨-, stream, -, rfl⟩
      · exact hsame (hflow.flows hst rfl rfl)
      · exact hsame (hflow.flows hst rfl rfl)
  | write hwrite =>
      exact hsame (writeToFD_flows hst hcredits (fun hres => hkeeps st hres hst) hflow hwrite)
  | @readAt fd _ hread =>
      rcases readFromFDAt_cases hread
        with rfl | ⟨⟨-, hopen, hmode⟩, stream, st₁, hstream, hst₁, hcases⟩
      · exact hsame (hflow.flows hst rfl rfl)
      · have hid : stream ≠ P.id := by
          rintro rfl
          exact hkeeps hopen hmode hstream
        rcases hcases with ⟨-, hwait⟩ | ⟨-, hfinish⟩
        · refine hlocal (waitThen_local trivial (fun i hi => ?_) hA hwait)
          exact Option.some.inj hi ▸ hid
        · exact hlocal (finishReadAt_local hid hfinish)
  | @reading r _ hf hread =>
      by_cases hr : r.stream = P.id
      · have hadmits := h.intact.frames (by rw [hst]; rfl) c
        rw [hf] at hadmits
        exact hsame (readRound_flows h.intact.slots hr (hadmits hr) hst hcredits hflow hread)
      · exact hlocal (readRound_local hr hA hread)
  | @writing w _ hf hwrite =>
      by_cases hw : w.stream = P.id
      · have hwriters := h.busy c st hst (by rw [hf]; exact hw)
        exact hsame (writeRound_flows h.intact.slots hw hst hcredits hwriters hflow hwrite)
      · exact hlocal (writeRound_local hw hA hwrite)
  | @woken semId k taken S₁ _ hf hloop hnext =>
      have hadmits := h.intact.frames (by rw [hst]; rfl) c
      rw [hf] at hadmits
      have hother : (∀ i, k.stream = some i → i ≠ P.id) → ∃ n, Flows P S' n ∧
          ((∀ fd, S.Closes .resume fd → ¬S.WriteEnd P fd) → n = st.writers) := by
        intro hj
        have hfirst : Local (· ≠ P.id) (fun _ => True) S S₁ := semWaitLoop_local trivial hloop
        rcases hnext with ⟨-, rfl⟩ | ⟨-, hafter⟩
        · exact hlocal hfirst
        · exact hlocal (hfirst.trans (afterWait_local hj (hfirst.serves hA) hafter))
      cases k with
      | done => exact hother fun _ hi => absurd hi (by simp [AfterWait.stream])
      | take r =>
          rcases hadmits with ⟨hr, hsem, hfd⟩ | ⟨hr, -⟩
          · obtain rfl : semId = P.readSem := hsem
            exact hsame (take_flows h.intact.slots hr hfd hst hcredits hflow
              ⟨taken, S₁, hloop, hnext⟩)
          · exact hother fun i hi => Option.some.inj hi ▸ hr
      | store w =>
          rcases hadmits with ⟨hw, hsem⟩ | ⟨hw, -⟩
          · obtain rfl : semId = P.writeSem := hsem
            have hwriters := h.busy c st hst (by rw [hf]; exact hw)
            exact hsame (store_flows hw hst hwriters hflow ⟨taken, S₁, hloop, hnext⟩)
          · exact hother fun i hi => Option.some.inj hi ▸ hw
      | readAt stream pos => exact hother fun i hi => Option.some.inj hi ▸ hadmits.1

/-! ## Writers -/

/-- Who is inside `writeToFD` was so before, or has just called it. -/
theorem moves_writes {q : ℤ} {id : ℕ} (hmoves : S.Moves c e S') (hq : (S'.frames q).writes id) :
    (S.frames q).writes id ∨ ∃ fd buf, e = .call (.write fd buf) ∧ S.resource fd = some id := by
  rcases hmoves q with heq | hidle | ⟨rfl, hfollows⟩
  · exact .inl (heq ▸ hq)
  · exact absurd hq hidle.not_writes
  · generalize S'.frames q = f at hq hfollows
    cases hfollows with
    | idle hidle => exact absurd hq hidle.not_writes
    | semWait hpos => exact hq.elim
    | read hfd hres => exact hq.elim
    | write hres =>
        obtain rfl : _ = id := hq
        exact .inr ⟨_, _, rfl, hres⟩
    | readAt hres => exact hq.elim
    | take hf => exact hq.elim
    | taken n hf => exact hq.elim
    | store hf => exact .inl (by rw [hf]; exact hq)
    | stored n hf =>
        rcases hf with hf | ⟨semId, hf⟩
        · exact .inl (by rw [hf]; exact hq)
        · exact .inl (by rw [hf]; exact hq)

/-- A process that is killed is not inside `writeToFD`. -/
theorem kill_not_writes {id : ℕ} (hkill : S.Uses c (.call (.kill pid)) S') :
    ¬(S'.frames pid).writes id := by
  cases hkill with
  | @kill pid r₁ r₂ S₁ S₂ _ halive hin hout hend =>
      have hclosed : S₂.frames pid = .exiting .leave := by
        rw [closeFD_frames hout, closeFD_frames hin]
        exact Function.update_self _ _ _
      rcases hend.frames pid with heq | hidle
      · rw [heq, hclosed]
        exact not_false
      · exact hidle.not_writes

/-- The mode of a descriptor stays, until its number gets a new stream. -/
theorem step_mode {i : ℕ} (h : S.Step e S') (hi : (S'.fileDescriptors fd).resource = some i)
    (hlt : i < S.nextStream) : (S.fileDescriptors fd).resource = some i ∧
      (S'.fileDescriptors fd).mode = (S.fileDescriptors fd).mode := by
  refine ⟨(step_resource h hi).resolve_right fun hnew => absurd hnew.1 hlt.ne, ?_⟩
  have hopen : ∀ (M : Machine) fd' b,
      ((M.setOpen fd' b).fileDescriptors fd).mode = (M.fileDescriptors fd).mode := by
    intro M fd' b
    rw [setOpen_fileDescriptors]
    by_cases hfd : fd = fd'
    · subst hfd
      rw [Function.update_self]
    · rw [Function.update_of_ne hfd]
  have hclosed : ∀ {M M' : Machine} {fd' : ℤ} {r : Int32}, M.closeFD fd' = some (r, M') →
      (M'.fileDescriptors fd).mode = (M.fileDescriptors fd).mode := by
    intro M M' fd' r hclose
    rcases closeFD_fds hclose with ⟨-, heq⟩ | ⟨-, heq⟩
    · rw [heq]
    · rw [heq, hopen]
  rcases step_table h with heq | ⟨c, -, htable⟩
  · rw [heq]
  · cases htable with
    | pipe hpipe =>
        rcases createPipe_fds hpipe with ⟨-, heq | ⟨fd₁, -, heq⟩⟩ | ⟨-, fd1, fd2, -, heq⟩
        · rw [heq]
        · rw [heq, hopen]
        · rw [heq] at hi ⊢
          dsimp only [withEnds] at hi ⊢
          by_cases hsecond : fd = fd2
          · subst hsecond
            rw [Function.update_self] at hi
            exact absurd (Option.some.inj hi) hlt.ne'
          · rw [Function.update_of_ne hsecond] at hi ⊢
            by_cases hfirst : fd = fd1
            · subst hfirst
              rw [Function.update_self] at hi
              exact absurd (Option.some.inj hi) hlt.ne'
            · rw [Function.update_of_ne hfirst, hopen, hopen]
    | close hclose => exact hclosed hclose
    | @kill pid r₁ r₂ S₁ S₂ _ halive hin hout hend =>
        have hfiles : S'.fileDescriptors = S₂.fileDescriptors := by
          rcases hend with rfl | rfl
          · exact (killWake_files S₂ pid).1
          · exact (killWake_files S₂ pid).1
        rw [hfiles, hclosed hout, hclosed hin]
        rfl
    | closeIn hf hclose =>
        have hmode := hclosed hclose
        exact hmode
    | closeOut hf hclose =>
        have hmode := hclosed hclose
        exact hmode

/-- **Every step keeps the queue.** -/
theorem flowing_step (h : Flowing P S) (hok : S.ordered P e) (hstep : S.Step e S') :
    Flowing P S' := by
  obtain ⟨st, hst, hflow⟩ := h.flows
  refine ⟨intact_step h.intact (h.conserves hok) hstep,
    fun fd fd' hres hmode hres' hmode' => ?_, ?_, fun q st' hst' hq => ?_⟩
  · obtain ⟨hwas, hsame⟩ := step_mode hstep hres h.intact.made
    obtain ⟨hwas', hsame'⟩ := step_mode hstep hres' h.intact.made
    exact h.one fd fd' hwas (hsame ▸ hmode) hwas' (hsame' ▸ hmode')
  · rcases step_uses hstep with haside | ⟨c, hc, huses⟩
    · obtain ⟨st', hst', hflow', -⟩ := hflow.flows hst (congrFun haside.files.2.1 _)
        (haside.history _)
      exact ⟨st', hst', hflow'⟩
    · obtain ⟨n, ⟨st', hst', hflow', -⟩, -⟩ := uses_flows h hst hflow hok hc huses
      exact ⟨st', hst', hflow'⟩
  · -- whoever writes saw a writer, and closing waits for the end of all writing
    obtain ⟨d, hmoves⟩ := step_moves hstep
    have hwriters : 0 < st.writers := by
      rcases moves_writes hmoves hq with hwas | ⟨fd, buf, rfl, hres⟩
      · exact h.busy q st hst hwas
      · exact hok.2.2 st hres hst
    rcases step_uses hstep with haside | ⟨c, hc, huses⟩
    · rw [haside.files.2.1] at hst'
      exact Option.some.inj (hst.symm.trans hst') ▸ hwriters
    · have hno : ∀ fd, S.Closes e fd → ¬S.WriteEnd P fd := by
        intro fd hcloses hend
        obtain ⟨-, -, hnobody⟩ := hok.2.1 fd st hcloses hend.1 hend.2.1 hst
        rcases moves_writes hmoves hq with hwas | ⟨fd, buf, rfl, hres⟩
        · refine hnobody q (fun p he => ?_) hwas
          rintro rfl
          subst he
          exact kill_not_writes huses hq
        · exact hcloses
      obtain ⟨n, ⟨st₁, hst₁, -, hn⟩, hkept⟩ := uses_flows h hst hflow hok hc huses
      obtain rfl : st₁ = st' := Option.some.inj (hst₁.symm.trans hst')
      rw [hn, hkept hno]
      exact hwriters

/-! ## Every run -/

/-- A new pipe has one write end, nobody at it, and no history. -/
theorem flowing_makes (hnamed : S.Named) (hinput : (S.fileDescriptors stdin).resource = some 0)
    (hmakes : Makes P S S') (hsole : Sole P S') : Flowing P S' := by
  have hintact := intact_makes hnamed hinput hmakes hsole
  obtain ⟨c, fresh, hstep, hpipe, hid, hstream⟩ := hmakes
  refine ⟨hintact, ?_, ⟨_, hstream, rfl, fun _ => zero_lt_one, fun hshort => ?_⟩,
    fun q st _ hq => ?_⟩
  · rcases createPipe_fds hpipe with ⟨hr, -⟩ | ⟨-, fd1, fd2, hfinds, heq⟩
    · exact absurd hr (by decide)
    · -- the two numbers are the only ones with the new stream
      have hwrite : ∀ fd, (S'.fileDescriptors fd).resource = some P.id →
          (S'.fileDescriptors fd).mode = .W → fd = fd2 := by
        intro fd hres hmode
        by_contra hsecond
        rw [heq] at hres hmode
        dsimp only [withEnds] at hres hmode
        rw [Function.update_of_ne hsecond] at hres hmode
        by_cases hfirst : fd = fd1
        · subst hfirst
          rw [Function.update_self] at hmode
          exact absurd hmode (by simp)
        · rw [Function.update_of_ne hfirst, setOpen_resource, setOpen_resource] at hres
          exact absurd (hnamed.resource fd _ hres) (by omega)
      intro fd fd' hres hmode hres' hmode'
      exact (hwrite fd hres hmode).trans (hwrite fd' hres' hmode').symm
  · obtain ⟨p, count, n, -, hmem⟩ := hshort
    rw [createPipe_history hpipe, hnamed.history _ hid.ge] at hmem
    exact absurd hmem (by simp)
  · rw [createPipe_frames hpipe] at hq
    have hbusy : (S.frames q).stream = some P.id := by
      generalize S.frames q = f at hq
      cases f with
      | writing w => exact congrArg some hq
      | semWait semId k =>
          cases k with
          | store w => exact congrArg some hq
          | _ => exact hq.elim
      | _ => exact hq.elim
    exact absurd (hnamed.frames q _ hbusy) (by omega)

theorem flowing_run (h : Reaches Step (ordered P) S S') (hS : Flowing P S) : Flowing P S' :=
  h.invariant hS fun _ _ _ hM hok hstep => flowing_step hM hok hstep

/-- A bounded queue: what was stored is what was taken and what is still in the ring,
and only at the end of it has anybody got too little. -/
structure Fifo (P : Pipe) (S : Machine) (st : Stream) : Prop where
  order : S.tookBytes P.id <+: S.storedBytes P.id
  bounds : 0 ≤ st.dataAvailable ∧ st.dataAvailable ≤ bufferSize
  kept : S.storedBytes P.id = S.tookBytes P.id ++ st.unread
  short : ∀ p count n, n < count → .readReturned p P.id count n false ∈ S.trace →
    st.writers = 0 ∧ S.tookBytes P.id = S.storedBytes P.id

/-- **A pipe is a lossless bounded queue** from its creation on, whoever reads and
writes, while its semaphores are its own, the read end stays open, and the write end is
closed when nobody writes and nobody will. -/
theorem pipe_fifo (nodes blocks : ℕ → Bool) (P : Pipe) (S₀ S₁ S : Machine)
    (h₀ : Reaches Step always (boot nodes blocks) S₀) (hmakes : Makes P S₀ S₁) (hsole : Sole P S₁)
    (h : Reaches Step (ordered P) S₁ S) : ∃ st, S.streams P.id = some st ∧ S.Fifo P st := by
  have hinput : (S₀.fileDescriptors stdin).resource = some 0 := by
    rw [standard_run h₀ (by decide)]
    rfl
  have hflowing := flowing_run h (flowing_makes (named_run h₀) hinput hmakes hsole)
  obtain ⟨st, hst, hflow⟩ := hflowing.flows
  have hcredits := hflowing.intact.lawful st hst
  refine ⟨st, hst, ?_, hcredits.available, hcredits.fifo, fun p count n hless hmem => ?_⟩
  · rw [hcredits.fifo]
    exact List.prefix_append _ _
  · have hshort : S.Short P.id :=
      ⟨p, count, n, hless, List.mem_filter.mpr ⟨hmem, decide_eq_true rfl⟩⟩
    obtain ⟨hwriters, hempty⟩ := hflow.short hshort
    have hzero : st.dataAvailable.toNat = 0 := by omega
    have hnone : st.unread = [] := by
      unfold Stream.unread
      rw [hzero]
      rfl
    rw [hcredits.fifo, hnone, List.append_nil]
    exact ⟨hwriters, rfl⟩

/-- Two bytes are written, and one is read. -/
theorem pipe_fifo_relay : ∃ S₁ S st, Makes firstPipe booted S₁ ∧
    Reaches Step (ordered firstPipe) S₁ S ∧ S.streams 1 = some st ∧ st.dataAvailable = 1 ∧
      S.storedBytes 1 = [65, 66] ∧ S.tookBytes 1 = [65] ∧ S.Fifo firstPipe st := by
  obtain ⟨S₁, S, st, ⟨hmakes, hsole⟩, hrun, hst, ⟨-, hdata⟩, hstored, htook⟩ := relay_boot
  have hrun' : Reaches Step (ordered firstPipe) S₁ S := by
    refine hrun.mono fun M e h => ⟨relaying_leaves h, fun fd st' hcloses =>
      absurd hcloses (relaying_closes h), ?_⟩
    cases e with
    | call call =>
        cases call with
        | write fd bytes =>
            intro st' _ hst'
            rw [(relaying_open h hst').2]
            decide
        | readAt => exact absurd h (by simp [relaying])
        | _ => trivial
    | _ => trivial
  obtain ⟨st', hst', hfifo⟩ :=
    pipe_fifo _ _ firstPipe booted S₁ S (Reaches.refl _) hmakes hsole hrun'
  obtain rfl : st = st' := Option.some.inj (hst.symm.trans hst')
  exact ⟨S₁, S, st, hmakes, hrun', hst, hdata, hstored, htook, hfifo⟩

end Machine

end BareKernel.Kernel
