import BareKernel.Kernel.InitProcess
import BareKernel.Kernel.PipeCredits
import Mathlib.Algebra.BigOperators.Group.Finset.Basic
import Mathlib.Algebra.Order.BigOperators.Group.Finset

/-!
# Writers without a reader

A place in the ring comes back when a byte is read. When the last read end of a pipe is closed,
`closeFD` wakes nobody on the write semaphore, and no later `writeToFD` is told that nobody reads.
The writers go on if there is a place for every byte that they still have.
-/

namespace BareKernel.Kernel

open ProcessState Runs

/-- The bytes that a process still has to store on the pipe. -/
def Pipe.pending (P : Pipe) : Frame → ℕ
  | .writing w | .semWait _ (.store w) => if w.stream = P.id then w.buf.length - w.written else 0
  | _ => 0

/-- The process goes on with a byte for the pipe. -/
def AfterWait.stores (P : Pipe) : AfterWait → Prop
  | .store w => w.stream = P.id
  | _ => False

/-- Those inside `semWait` for the write semaphore have a byte for the pipe, and nobody else has. -/
def Pipe.Queues (P : Pipe) : Frame → Prop
  | .semWait semId k => (semId = P.writeSem ↔ k.stores P) ∧
      (k.stores P → 0 < P.pending (.semWait semId k))
  | _ => True

theorem Frame.idle.pending {f : Frame} (h : f.idle) (P : Pipe) : P.pending f = 0 := by
  cases f <;> first | rfl | exact h.elim

namespace Machine

variable {S S' S₁ M : Machine} {e : Event} {c pid fd count : ℤ} {buf : List UInt8} {P : Pipe}
  {st st' : Stream} {victim : Option ℤ} {nodes blocks : ℕ → Bool}

/-- An open read end of the pipe. -/
def ReadEnd (P : Pipe) (S : Machine) (fd : ℤ) : Prop :=
  S.Closable fd ∧ (S.fileDescriptors fd).resource = some P.id ∧ (S.fileDescriptors fd).mode = .R

/-- The bytes that are still to be stored on the pipe, by others than `victim`. -/
def owed (P : Pipe) (S : Machine) (victim : Option ℤ) : ℕ :=
  ∑ q ∈ pids.toFinset.filter (fun q => victim ≠ some q), P.pending (S.frames q)

/-- Nobody but `victim` sleeps on the write semaphore, and there is a place for every byte that the
others still have. -/
structure RoomFor (P : Pipe) (S : Machine) (victim : Option ℤ) : Prop where
  awake : ∀ q k, victim ≠ some q → S.frames q = .semWait P.writeSem k →
    (S.sched.processes q).state ≠ BLOCKED
  room : (S.owed P victim : ℤ) ≤ S.valueOf P.writeSem

/-- The event takes the last read end away, and a writer is left. -/
def strands (P : Pipe) (S : Machine) (e : Event) (st : Stream) : Prop :=
  (0 < st.readers ∧ ∃ fd, S.Closes e fd ∧ S.ReadEnd P fd) ∧
    ¬(st.writers = 0 ∧ (∀ fd, S.Closes e fd → ¬S.WriteEnd P fd) ∨
      st.writers = 1 ∧ ∃ fd, S.Closes e fd ∧ S.WriteEnd P fd)

/-- Whoever goes to a frame of its own owes what that frame says. -/
theorem owed_update {f : Frame} (hc : c ∈ pids) (h : S'.frames = Function.update S.frames c f) :
    S'.owed P none + P.pending (S.frames c) = S.owed P none + P.pending f := by
  have hmem : c ∈ pids.toFinset.filter (fun q => (none : Option ℤ) ≠ some q) :=
    Finset.mem_filter.mpr ⟨List.mem_toFinset.mpr hc, by simp⟩
  have hrest : ∑ q ∈ (pids.toFinset.filter (fun q => (none : Option ℤ) ≠ some q)).erase c,
      P.pending (S'.frames q) = ∑ q ∈ (pids.toFinset.filter
        (fun q => (none : Option ℤ) ≠ some q)).erase c, P.pending (S.frames q) := by
    apply Finset.sum_congr rfl
    intro q hq
    rw [h, Function.update_of_ne (Finset.ne_of_mem_erase hq)]
  unfold owed
  rw [← Finset.add_sum_erase _ _ hmem, ← Finset.add_sum_erase _ _ hmem, hrest, h,
    Function.update_self]
  omega

/-- One process does not owe more than all of them. -/
theorem pending_le_owed (hc : c ∈ pids) : P.pending (S.frames c) ≤ S.owed P none :=
  Finset.single_le_sum (f := fun q => P.pending (S.frames q)) (fun _ _ => Nat.zero_le _)
    (Finset.mem_filter.mpr ⟨List.mem_toFinset.mpr hc, by simp⟩)

/-! ## What is left of the pipe -/

/-- The stream keeps its semaphores, and `n` places come free. -/
structure Left (P : Pipe) (n : ℤ) (S : Machine) (st : Stream) (S' : Machine) (st' : Stream) :
    Prop where
  sems : st'.readSem = st.readSem ∧ st'.writeSem = st.writeSem
  used : (S.sems.sems P.writeSem).used = true → (S'.sems.sems P.writeSem).used = true
  places : (S.sems.sems P.writeSem).used = true → 0 ≤ S.valueOf P.writeSem →
    0 ≤ S.valueOf P.writeSem + n → S.valueOf P.writeSem + n < 2 ^ 31 →
      S'.valueOf P.writeSem = S.valueOf P.writeSem + n

theorem valueOf_lt (S : Machine) (semId : ℕ) : S.valueOf semId < 2 ^ 31 :=
  Int32.toInt_lt _

/-- Nothing comes free, and then `n` places do. -/
theorem Left.trans {n : ℤ} {st₁ : Stream} (h : Left P 0 S st S₁ st₁) (h' : Left P n S₁ st₁ S' st') :
    Left P n S st S' st' := by
  refine ⟨⟨h'.sems.1.trans h.sems.1, h'.sems.2.trans h.sems.2⟩, fun hused => h'.used (h.used hused),
    fun hused hpos hlow hhigh => ?_⟩
  have hsame := h.places hused hpos (by rwa [add_zero]) (by rw [add_zero]; exact S.valueOf_lt _)
  rw [add_zero] at hsame
  rw [← hsame] at hpos hlow hhigh ⊢
  exact h'.places (h.used hused) hpos hlow hhigh

/-- The ends of the pipe stay as they are, and `n` places come free. -/
def Works (P : Pipe) (n : ℤ) (S S' : Machine) : Prop :=
  ∀ st', S'.streams P.id = some st' → ∃ st, S.streams P.id = some st ∧
    (st'.readers = st.readers ∧ st'.writers = st.writers) ∧ Left P n S st S' st'

theorem Works.trans {n : ℤ} (h : Works P 0 S S₁) (h' : Works P n S₁ S') : Works P n S S' := by
  intro st' hst'
  obtain ⟨st₁, hst₁, hends₁, hleft₁⟩ := h' st' hst'
  obtain ⟨st, hst, hends, hleft⟩ := h st₁ hst₁
  exact ⟨st, hst, ⟨hends₁.1.trans hends.1, hends₁.2.trans hends.2⟩, hleft.trans hleft₁⟩

/-- The stream of the pipe and its write semaphore stay as they are. -/
theorem Works.same (hstream : S'.streams P.id = S.streams P.id)
    (hsem : (S.sems.sems P.writeSem).used = true → (S'.sems.sems P.writeSem).used = true ∧
      (S'.sems.sems P.writeSem).value = (S.sems.sems P.writeSem).value) : Works P 0 S S' := by
  intro st' hst'
  refine ⟨st', hstream ▸ hst', ⟨rfl, rfl⟩, ⟨rfl, rfl⟩, fun hused => (hsem hused).1,
    fun hused _ _ _ => ?_⟩
  unfold valueOf
  rw [(hsem hused).2, add_zero]

/-- What is done elsewhere. -/
theorem Local.works (h : Local (· ≠ P.id) (· ≠ (P.writeSem : ℤ)) S S') : Works P 0 S S' := by
  obtain ⟨hused, hvalue⟩ := h.sems P.writeSem (not_not.mpr rfl)
  exact Works.same (h.streams P.id (not_not.mpr rfl)) fun h => ⟨hused.trans h, hvalue⟩

theorem Aside.works (h : Aside S S') : Works P 0 S S' :=
  Works.same (by rw [h.files.2.1]) (h.sems P.writeSem)

/-- The stream changes, but not its ends. -/
theorem Works.setStream {i : ℕ} (hst : S.streams i = some st)
    (hends : st'.readers = st.readers ∧ st'.writers = st.writers)
    (hsems : st'.readSem = st.readSem ∧ st'.writeSem = st.writeSem) :
    Works P 0 S (S.setStream i st') := by
  intro st₁ hst₁
  by_cases hi : P.id = i
  · subst hi
    obtain rfl := setStream_self hst₁
    exact ⟨st, hst, hends, hsems, id, fun _ _ _ _ => (add_zero _).symm⟩
  · rw [setStream_streams, Function.update_of_ne hi] at hst₁
    exact ⟨st₁, hst₁, ⟨rfl, rfl⟩, ⟨rfl, rfl⟩, id, fun _ _ _ _ => (add_zero _).symm⟩

theorem Works.setFrame {f : Frame} : Works P 0 S (S.setFrame pid f) := .same rfl fun h => ⟨h, rfl⟩

theorem Works.note {o : Obs} : Works P 0 S (S.note o) := .same rfl fun h => ⟨h, rfl⟩

/-! ## The write semaphore -/

/-- A post to the write semaphore gives a place back. -/
theorem Works.post {r : Int32} (hlt : P.writeSem < maxSems)
    (hpost : S.semPost P.writeSem = some (r, S')) : Works P 1 S S' := by
  intro st' hst'
  rw [(semPost_files hpost).2.1] at hst'
  refine ⟨st', hst', ⟨rfl, rfl⟩, ⟨rfl, rfl⟩, fun hused => (semPost_value hlt hused hpost).1,
    fun hused hpos _ hhigh => ?_⟩
  have hvalue := (semPost_value hlt hused hpost).2
  unfold valueOf at *
  rw [hvalue, Int32.toInt_add]
  change ((S.sems.sems P.writeSem).value.toInt + 1).bmod (2 ^ 32) = _
  rw [Int.bmod_eq_of_le] <;> omega

/-- A wait on the write semaphore takes a place. -/
theorem Works.take : Works P (-1) S (S.takeOne c P.writeSem) := by
  intro st' hst'
  refine ⟨st', hst', ⟨rfl, rfl⟩, ⟨rfl, rfl⟩, fun hused => (takeOne_value c hused).1,
    fun hused hpos hlow _ => ?_⟩
  have hvalue := (takeOne_value c hused).2
  unfold valueOf at *
  rw [hvalue, Int32.toInt_sub]
  change ((S.sems.sems P.writeSem).value.toInt - 1).bmod (2 ^ 32) = _
  have hbound := Int32.toInt_lt (S.sems.sems P.writeSem).value
  rw [Int.bmod_eq_of_le] <;> omega

/-- The pipe has its write semaphore for itself. -/
structure Alone (P : Pipe) (S : Machine) : Prop where
  own : ∀ st, S.streams P.id = some st → st.readSem ≠ P.writeSem ∧ st.writeSem = P.writeSem
  others : Serves (· ≠ P.id) (· ≠ (P.writeSem : ℤ)) S

theorem Alone.local {J : ℕ → Prop} {A : ℤ → Prop} (h : Alone P S) (hlocal : Local J A S S') :
    Alone P S' := by
  refine ⟨fun st' hst' => ?_, hlocal.serves h.others⟩
  obtain ⟨st, hst, hread, hwrite⟩ := hlocal.own P.id st' hst'
  rw [hread, hwrite]
  exact h.own st hst

/-! ## Transfers -/

/-- The step of `c` leaves it with nothing to store on the pipe, and gives back a place at most. -/
def Takes (P : Pipe) (c : ℤ) (S S' : Machine) : Prop :=
  ∃ n f, (n = 0 ∨ n = 1) ∧ Works P n S S' ∧ S'.frames = Function.update S.frames c f ∧
    P.pending f = 0 ∧ P.Queues f ∧ ∀ k, f ≠ .semWait P.writeSem k

theorem Takes.after (h : Takes P c S₁ S') (hworks : Works P 0 S S₁)
    (hframes : S₁.frames = S.frames) :
    Takes P c S S' := by
  obtain ⟨n, f, hn, hgain, hf, hrest⟩ := h
  exact ⟨n, f, hn, hworks.trans hgain, hframes ▸ hf, hrest⟩

/-- In the step of `c`, which leaves it at `f`, `n` places come free. It only falls asleep on the
write semaphore with a byte for the pipe, if there is no place. -/
structure Turn (P : Pipe) (c : ℤ) (S S' : Machine) (n : ℤ) (f : Frame) : Prop where
  small : -1 ≤ n ∧ n ≤ 1
  works : Works P n S S'
  frames : S'.frames = Function.update S.frames c f
  queues : P.Queues f
  sleeps : ∀ k, f = .semWait P.writeSem k → S.valueOf P.writeSem = 0 ∧ 0 < P.pending (S.frames c)

/-- What the step takes from the places it takes from what `c` owes. -/
def Turns (P : Pipe) (c : ℤ) (S S' : Machine) : Prop :=
  ∃ n f, Turn P c S S' n f ∧ (P.pending f : ℤ) ≤ P.pending (S.frames c) + n

theorem Takes.turns (h : Takes P c S S') : Turns P c S S' := by
  obtain ⟨n, f, hn, hworks, hframes, hnone, hqueues, hawake⟩ := h
  refine ⟨n, f, ⟨by omega, hworks, hframes, hqueues, fun k hk => absurd hk (hawake k)⟩, ?_⟩
  rw [hnone]
  omega

/-- The step gives nobody anything to store, and the pipe keeps its places. A reader is only lost to
an event that strands the writers. -/
structure Settles (P : Pipe) (S : Machine) (e : Event) (S' : Machine) : Prop where
  frames : ∀ q, S'.frames q = S.frames q ∨ (S'.frames q).idle
  places : ∀ st', S'.streams P.id = some st' → ∃ st, S.streams P.id = some st ∧
    Left P 0 S st S' st' ∧ (st'.readers ≤ 0 → st.readers ≤ 0 ∨
      S.strands P e st ∧ ∀ q, e.victim = some q → (S'.frames q).idle)

theorem Settles.setFrame {f : Frame} (h : Settles P S e S') (hf : f.idle)
    (hvictim : e.victim = none) : Settles P S e (S'.setFrame c f) := by
  refine ⟨fun q => ?_, fun st' hst' => ?_⟩
  · by_cases hq : q = c
    · subst hq
      right
      rw [setFrame_frames, Function.update_self]
      exact hf
    · rw [setFrame_frames, Function.update_of_ne hq]
      exact h.frames q
  · obtain ⟨st, hst, hleft, hlast⟩ := h.places st' hst'
    refine ⟨st, hst, ⟨hleft.sems, hleft.used, hleft.places⟩, fun hnone => ?_⟩
    refine (hlast hnone).imp_right fun hstrands => ⟨hstrands.1, fun q hq => ?_⟩
    exact absurd (hvictim.symm.trans hq) (by simp)

/-- As long as the pipe exists it has its write semaphore for itself, and without a reader there is
room for the writers. -/
structure Piped (P : Pipe) (S : Machine) : Prop where
  base : S.Base
  slot : P.writeSem < maxSems
  made : P.id < S.nextStream
  input : (S.fileDescriptors stdin).resource ≠ some P.id
  alone : (S.streams P.id).isSome → Alone P S
  used : (S.streams P.id).isSome → (S.sems.sems P.writeSem).used = true
  queues : (S.streams P.id).isSome → ∀ q, P.Queues (S.frames q)
  room : ∀ st, S.streams P.id = some st → st.readers ≤ 0 → S.RoomFor P none

/-- Who waits on the write semaphore waited there before, and does not fall asleep. -/
def StaysAwake (P : Pipe) (S S' : Machine) (q : ℤ) : Prop :=
  ∀ k, S'.frames q = .semWait P.writeSem k → S.frames q = .semWait P.writeSem k ∧
    ((S'.sched.processes q).state = BLOCKED → (S.sched.processes q).state = BLOCKED)

theorem pending_of {q : ℤ} (h : S'.frames q = S.frames q ∨ (S'.frames q).idle) :
    P.pending (S'.frames q) ≤ P.pending (S.frames q) := by
  rcases h with heq | hidle
  · rw [heq]
  · rw [hidle.pending]
    exact Nat.zero_le _

/-- **A step that settles keeps the room.** -/
theorem RoomFor.settle (h : S.RoomFor P victim)
    (hframes : ∀ q, S'.frames q = S.frames q ∨ (S'.frames q).idle)
    (hvictim : ∀ q, victim = some q → (S'.frames q).idle) (hawake : ∀ q, StaysAwake P S S' q)
    (hvalue : S'.valueOf P.writeSem = S.valueOf P.writeSem) : S'.RoomFor P none := by
  constructor
  · intro q k _ hf hblocked
    obtain ⟨hsame, hwas⟩ := hawake q k hf
    refine h.awake q k ?_ hsame (hwas hblocked)
    intro hq
    have hidle := hvictim q hq
    rw [hf] at hidle
    exact hidle
  · rw [hvalue]
    refine le_trans ?_ h.room
    have hless : S'.owed P none ≤ S.owed P victim := by
      unfold owed
      refine le_trans (Finset.sum_le_sum_of_ne_zero fun q hq hsome => ?_)
        (Finset.sum_le_sum fun q _ => pending_of (hframes q))
      refine Finset.mem_filter.mpr ⟨(Finset.mem_filter.mp hq).1, fun hdead => ?_⟩
      exact hsome ((hvictim q hdead).pending P)
    exact_mod_cast hless

/-- **A turn keeps the room**, if what it takes was there. -/
theorem Turn.room {n : ℤ} {f : Frame} (h : Turn P c S S' n f) (hc : c ∈ pids)
    (hroom : S.RoomFor P none) (hused : (S.sems.sems P.writeSem).used = true)
    (hst' : S'.streams P.id = some st') (hvalue : S.valueOf P.writeSem < 2 ^ 31 - 1)
    (hbalance : (S.owed P none : ℤ) + P.pending f ≤
      S.valueOf P.writeSem + n + P.pending (S.frames c))
    (hplace : 0 ≤ S.valueOf P.writeSem + n) (hawake : ∀ q, q ≠ c → StaysAwake P S S' q) :
    S'.RoomFor P none := by
  have hmine : P.pending (S.frames c) ≤ S.owed P none := pending_le_owed hc
  have hroom' := hroom.room
  obtain ⟨st, -, -, hleft⟩ := h.works st' hst'
  have hgain := hleft.places hused (by omega) hplace (by have := h.small; omega)
  constructor
  · intro q k _ hf hblocked
    by_cases hq : q = c
    · subst hq
      rw [h.frames, Function.update_self] at hf
      obtain ⟨hzero, hmore⟩ := h.sleeps k hf
      omega
    · obtain ⟨hsame, hwas⟩ := hawake q hq k hf
      exact hroom.awake q k (by simp) hsame (hwas hblocked)
  · have howed := owed_update (P := P) hc h.frames
    rw [hgain]
    omega

theorem Turns.room (h : Turns P c S S') (hc : c ∈ pids) (hroom : S.RoomFor P none)
    (hused : (S.sems.sems P.writeSem).used = true) (hst' : S'.streams P.id = some st')
    (hvalue : S.valueOf P.writeSem < 2 ^ 31 - 1) (hawake : ∀ q, q ≠ c → StaysAwake P S S' q) :
    S'.RoomFor P none := by
  obtain ⟨n, f, hturn, hbalance⟩ := h
  have hmine : P.pending (S.frames c) ≤ S.owed P none := pending_le_owed hc
  have hroom' := hroom.room
  exact hturn.room hc hroom hused hst' hvalue (by omega) (by omega) hawake

/-- What a turn keeps besides. -/
theorem Turn.keeps {n : ℤ} {f : Frame} (h : Turn P c S S' n f)
    (hqueues : ∀ q, P.Queues (S.frames q)) (hst' : S'.streams P.id = some st') :
    ∃ st, S.streams P.id = some st ∧ st'.readers = st.readers ∧
      ((S.sems.sems P.writeSem).used = true → (S'.sems.sems P.writeSem).used = true) ∧
        ∀ q, P.Queues (S'.frames q) := by
  obtain ⟨st, hst, hends, hleft⟩ := h.works st' hst'
  refine ⟨st, hst, hends.1, hleft.used, fun q => ?_⟩
  rw [h.frames]
  by_cases hq : q = c
  · subst hq
    rw [Function.update_self]
    exact h.queues
  · rw [Function.update_of_ne hq]
    exact hqueues q

/-- The pipe keeps its write semaphore for itself. -/
theorem alone_step (h : Piped P S) (hsome : (S.streams P.id).isSome) (hstep : S.Step e S') :
    Alone P S' := by
  have halone := h.alone hsome
  rcases step_uses hstep with haside | ⟨c, -, huses⟩
  · refine ⟨fun st hst => halone.own st ?_, fun i st hi hst => halone.others i st hi ?_⟩
    · rw [← haside.files.2.1]
      exact hst
    · rw [← haside.files.2.1]
      exact hst
  · rcases huses.local (J := fun _ => True) (fun _ _ _ => trivial) (fun _ _ => trivial) with
      ⟨fresh, r, hpipe⟩ | hlocal
    · refine ⟨fun st hst => halone.own st ?_, fun i st hi hst => ?_⟩
      · rw [← createPipe_stream h.made hpipe]
        exact hst
      · rcases (createPipe_other (h.used hsome) hpipe).2 i st hst with hold | hnew
        · exact halone.others i st hi hold
        · exact hnew
    · exact halone.local hlocal

variable {n : ℕ}

theorem semWait_takes {k : AfterWait} {semId : ℕ} (hlt : semId < maxSems)
    (hused : (S.sems.sems semId).used = true) (hvalue : (S.sems.sems semId).value ≠ 0) :
    S.semWait pid semId k = some (true, S.takeOne pid semId) := by
  unfold semWait semWaitLoop
  rw [if_neg (by omega), if_neg (by omega), Int.toNat_natCast, hused, if_neg (by decide)]
  exact if_neg hvalue

theorem semWait_sleeps {k : AfterWait} {semId : ℕ} {q : List ℤ} (hlt : semId < maxSems)
    (hused : (S.sems.sems semId).used = true) (hvalue : (S.sems.sems semId).value = 0)
    (hwaiting : (S.sems.sems semId).waiting = .queue q) :
    S.semWait pid semId k = some (false, S.fallAsleep pid semId k) := by
  unfold semWait semWaitLoop fallAsleep enlist
  rw [if_neg (by omega), if_neg (by omega), Int.toNat_natCast, hused, if_neg (by decide)]
  dsimp only
  rw [if_pos hvalue, hwaiting]

/-- Nobody is woken. -/
theorem semPost_idle {semId : ℕ} (hlt : semId < maxSems)
    (hused : (S.sems.sems semId).used = true) (hwaiting : (S.sems.sems semId).waiting = .queue []) :
    S.semPost semId = some (0, S.bump semId) := by
  unfold semPost bump
  rw [if_neg (by omega), Int.toNat_natCast]
  dsimp only
  rw [hused, if_neg (by decide), hwaiting]
  simp only [WaitQueue.elements, WaitQueue.drop, List.length_nil, List.drop_nil, ← hwaiting]
  rfl

/-- The bytes that the shell writes, of which `n` are stored. -/
def letters (n : ℕ) : Writer := { stream := 1, buf := List.replicate 2049 65, written := n }

theorem letters_next (hn : n < 2049) : (letters n).buf[(letters n).written]? = some 65 := by
  unfold letters
  rw [List.getElem?_replicate, if_pos hn]

theorem letters_left (hn : n < 2049) : (letters n).written < (letters n).buf.length := by
  unfold letters
  rwa [List.length_replicate]

/-- The shell has stored `n` bytes on a pipe without a reader. -/
structure Filling (n : ℕ) (S : Machine) : Prop where
  current : S.sched.currentProcess = some shellPid
  alive : (S.sched.processes shellPid).state ≠ EXITED
  frame : S.frames shellPid = .writing (letters n)
  used : (S.sems.sems 3).used = true ∧ (S.sems.sems 4).used = true
  waiting : (S.sems.sems 3).waiting = .queue [] ∧ (S.sems.sems 4).waiting = .queue []
  value : S.valueOf 4 + n = 2048
  stream : ∃ st, S.streams 1 = some st ∧ st.readers = 0 ∧ st.readSem = 3 ∧ st.writeSem = 4

/-- Of the loop of `writeToFD` one round is left to `semWait`. -/
theorem Filling.round (h : Filling n S) (hn : n < 2049) (hst : S.streams 1 = some st)
    (hwrite : st.writeSem = 4) :
    S.step .resume = S.waitThen shellPid (4 : ℕ) (.store (letters n)) := by
  unfold Machine.step
  rw [h.current]
  dsimp only
  rw [h.frame]
  unfold resume writeRound
  dsimp only
  rw [if_pos (letters_left hn), show S.streams (letters n).stream = some st from hst,
    Option.bind_eq_bind, Option.bind_some, hwrite]
  rfl

/-- While there is a place the next byte is stored. -/
theorem Filling.next (h : Filling n S) (hn : n < 2048) :
    ∃ S', S.Step .resume S' ∧ Filling (n + 1) S' := by
  obtain ⟨st, hst, hreaders, hread, hwrite⟩ := h.stream
  have hvalue := h.value
  have hne : (S.sems.sems 4).value ≠ 0 := by
    intro hzero
    unfold valueOf at hvalue
    rw [hzero] at hvalue
    change (0 : ℤ) + n = 2048 at hvalue
    omega
  let M := ((S.takeOne shellPid 4).setStream 1 (st.put 65)).note (.stored 1 65)
  have hpost : M.semPost (3 : ℕ) = some (0, M.bump 3) :=
    semPost_idle (by decide) h.used.1 h.waiting.1
  have hstep : S.step .resume =
      some ((M.bump 3).setFrame shellPid (.writing (letters (n + 1)))) := by
    rw [h.round (by omega) hst hwrite]
    unfold waitThen
    rw [semWait_takes (by decide) h.used.2 hne, Option.bind_eq_bind, Option.bind_some]
    dsimp only
    rw [if_pos rfl]
    unfold afterWait storeByte
    dsimp only
    rw [show (S.takeOne shellPid 4).streams (letters n).stream = some st from hst,
      letters_next (by omega)]
    simp only [Option.bind_eq_bind, Option.bind_some, hread]
    change Option.bind (M.semPost (3 : ℕ)) _ = _
    rw [hpost]
    rfl
  have hsub := toInt_sub_one (v := (S.sems.sems 4).value) (by unfold valueOf at hvalue; omega)
    (by unfold valueOf at hvalue; omega)
  refine ⟨_, hstep, h.current, h.alive, ?_, ⟨h.used.1, h.used.2⟩, ⟨h.waiting.1, h.waiting.2⟩, ?_,
    ⟨st.put 65, ?_, hreaders, hread, hwrite⟩⟩
  · rw [setFrame_frames, Function.update_self]
  · change ((S.sems.sems 4).value - 1).toInt + ((n + 1 : ℕ) : ℤ) = 2048
    unfold valueOf at hvalue
    rw [hsub]
    push_cast
    omega
  · change Function.update S.streams 1 (some (st.put 65)) 1 = _
    exact Function.update_self ..

/-- The shell stores as many bytes as there are places. -/
theorem Filling.run (ok : Machine → Event → Prop) (hok : ∀ S, ok S .resume) (h : Filling 0 S) :
    ∀ n ≤ 2048, ∃ S', Reaches Step ok S S' ∧ Filling n S'
  | 0, _ => ⟨S, .refl S, h⟩
  | n + 1, hn => by
      obtain ⟨M, hrun, hM⟩ := Filling.run ok hok h n (by omega)
      obtain ⟨S', hstep, hS'⟩ := hM.next (by omega)
      exact ⟨S', hrun.tail (hok M) hstep, hS'⟩

/-- With the next byte it falls asleep. -/
theorem Filling.asleep (h : Filling 2048 S) : ∃ S', S.Step .resume S' ∧
    (S'.sched.processes shellPid).state = BLOCKED ∧
      S'.frames shellPid = .semWait 4 (.store (letters 2048)) ∧ S'.streams = S.streams := by
  obtain ⟨st, hst, -, -, hwrite⟩ := h.stream
  have hzero : (S.sems.sems 4).value = 0 := by
    have hvalue := h.value
    have hint : (S.sems.sems 4).value.toInt = (0 : Int32).toInt := by
      change _ = (0 : ℤ)
      unfold valueOf at hvalue
      omega
    exact Int32.toInt_inj.mp hint
  have hstep : S.step .resume = some (S.fallAsleep shellPid 4 (.store (letters 2048))) := by
    rw [h.round (by omega) hst hwrite]
    unfold waitThen
    rw [semWait_sleeps (by decide) h.used.2 hzero h.waiting.2]
    rfl
  have hvalid : S.sched.isValidPID shellPid := by
    unfold Sched.isValidPID
    exact decide_eq_true ⟨by decide, by decide, h.alive⟩
  refine ⟨_, hstep, ?_, ?_, (fallAsleep_files S shellPid 4 _).2.1⟩
  · have henlist : (S.enlist shellPid 4).sched.currentProcess = some shellPid ∧
        (S.enlist shellPid 4).sched.isValidPID shellPid = true := by
      rcases enlist_sched S shellPid 4 with heq | heq <;> rw [heq]
      · exact ⟨h.current, hvalid⟩
      · exact ⟨h.current, hvalid⟩
    exact ((Sched.blockProcess_quiet henlist.1 henlist.2).blocked shellPid).mpr
      Sched.setState_state
  · rw [fallAsleep_frames, Function.update_self]

/-- The shell starts to write. -/
theorem Filling.start (hcurrent : S.sched.currentProcess = some shellPid)
    (halive : (S.sched.processes shellPid).state ≠ EXITED) (huser : S.frames shellPid = .user)
    (hfd : S.resource 4 = some 1)
    (hused : (S.sems.sems 3).used = true ∧ (S.sems.sems 4).used = true)
    (hwaiting : (S.sems.sems 3).waiting = .queue [] ∧ (S.sems.sems 4).waiting = .queue [])
    (hvalue : S.valueOf 4 = 2048) (hst : S.streams 1 = some st)
    (hends : st.readers = 0 ∧ st.readSem = 3 ∧ st.writeSem = 4) :
    ∃ S', S.Step (.call (.write 4 (letters 0).buf)) S' ∧ Filling 0 S' := by
  have hstep : S.step (.call (.write 4 (letters 0).buf)) =
      some ((S.setStream 1 { st with eof := false }).setFrame shellPid (.writing (letters 0))) := by
    unfold Machine.step
    rw [hcurrent]
    dsimp only
    rw [if_pos huser]
    unfold sysCall writeToFD
    dsimp only
    rw [if_neg (by decide), hfd, Option.bind_eq_bind, Option.bind_some, hst]
    rfl
  refine ⟨_, hstep, hcurrent, halive, ?_, hused, hwaiting, ?_, { st with eof := false }, ?_, hends⟩
  · rw [setFrame_frames, Function.update_self]
  · change S.valueOf 4 + 0 = 2048
    rw [hvalue, add_zero]
  · change Function.update S.streams 1 _ 1 = _
    exact Function.update_self ..

end Machine

end BareKernel.Kernel
