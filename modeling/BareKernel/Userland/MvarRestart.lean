import BareKernel.Kernel.Steps
import BareKernel.Userland.MvarTokens
import Mathlib.Tactic.IntervalCases

/-!
# Starting mvar again

A semaphore found under its name keeps the value that the earlier run left in
it. What a killed process had taken is gone, and a letter that nobody took back
leaves its token in `full`.
-/

namespace BareKernel.Mvar

open Kernel Shell Runs Rounds

variable {T : SemTable} {R R₀ N : Run}

/-! ## Where a process was killed -/

namespace MvarProcess

/-- Between `semWait` and `semPost` of the mutex. -/
def inSection (p : MvarProcess) : Bool :=
  p.place.done.contains (.semWait .mutex) && !p.place.done.contains (.semPost .mutex)

/-- Behind the first `semWait` of a round, as a writer. -/
def writing (p : MvarProcess) : Bool := p.place.done.contains (.semWait .empty)

/-- Behind the first `semWait` of a round, as a reader. -/
def reading (p : MvarProcess) : Bool := p.place.done.contains (.semWait .full)

end MvarProcess

namespace Run

/-- Rounds of writers and of readers. -/
def handed (R : Run) : ℕ := R.rounds.countP (· ≠ .reader)

def returned (R : Run) : ℕ := R.rounds.count .reader

end Run

theorem place_cases (x : Place Role.body) :
    (∃ letter, ∃ n < 6, x.done = (mvarWriter letter).take n ∧ (mvarWriter letter)[n]? = some x.op) ∨
      ∃ n < 7, x.done = mvarReader.take n ∧ mvarReader[n]? = some x.op := by
  obtain ⟨role, pc⟩ := x
  have hop : role.body[pc.val]? = some (role.body.get pc) := List.getElem?_eq_getElem pc.isLt
  cases role with
  | writer letter => exact .inl ⟨letter, pc.val, pc.isLt, rfl, hop⟩
  | reader => exact .inr ⟨pc.val, pc.isLt, rfl, hop⟩

/-- What a process has taken where it stands. -/
theorem weigh_takes (p : MvarProcess) : weigh (takes .mutex) p.place.done = p.inSection.toNat ∧
    weigh (takes .empty) p.place.done = p.writing.toNat ∧
    weigh (takes .full) p.place.done = p.reading.toNat := by
  unfold MvarProcess.inSection MvarProcess.writing MvarProcess.reading
  obtain ⟨letter, n, hn, hdone, _⟩ | ⟨n, hn, hdone, _⟩ := place_cases p.place <;> rw [hdone] <;>
    interval_cases n <;> exact ⟨rfl, rfl, rfl⟩

theorem sum_toNat {α : Type*} (f : α → Bool) (l : List α) :
    (l.map fun a => ((f a).toNat : ℤ)).sum = l.countP f := by
  induction l with
  | nil => rfl
  | cons a l ih =>
      rw [List.map_cons, List.sum_cons, ih, List.countP_cons]
      cases f a with
      | false => simp
      | true =>
          simp
          ring

theorem sum_rounds (rounds : List Role) :
    (rounds.map fun i => weigh (takes .mutex) i.body).sum = 0 ∧
    (rounds.map fun i => weigh (takes .empty) i.body).sum =
      rounds.countP (· ≠ .reader) - (rounds.count .reader : ℤ) ∧
    (rounds.map fun i => weigh (takes .full) i.body).sum =
      rounds.count .reader - (rounds.countP (· ≠ .reader) : ℤ) := by
  induction rounds with
  | nil => exact ⟨rfl, rfl, rfl⟩
  | cons role rounds ih =>
      obtain ⟨hmutex, hempty, hfull⟩ := ih
      simp only [List.map_cons, List.sum_cons, hmutex, hempty, hfull]
      cases role with
      | writer letter =>
          have hone : weigh (takes .mutex) (Role.writer letter).body = 0 ∧
            weigh (takes .empty) (Role.writer letter).body = 1 ∧
            weigh (takes .full) (Role.writer letter).body = -1 := ⟨rfl, rfl, rfl⟩
          simp [hone]
          constructor <;> ring
      | reader =>
          have hone : weigh (takes .mutex) Role.reader.body = 0 ∧
            weigh (takes .empty) Role.reader.body = -1 ∧
            weigh (takes .full) Role.reader.body = 1 := ⟨rfl, rfl, rfl⟩
          simp [hone]
          constructor <;> ring

/-- **What is missing when everybody is dead.** -/
theorem Run.Dead.total (h : R.Dead) :
    R.history.total (takes .mutex) = R.killed.countP (·.inSection) ∧
    R.history.total (takes .empty) =
      R.killed.countP (·.writing) + (R.handed - R.returned : ℤ) ∧
    R.history.total (takes .full) =
      R.killed.countP (·.reading) + (R.returned - R.handed : ℤ) := by
  have hkilled : ∀ (k : Semaphore) (f : MvarProcess → Bool),
      (∀ p : MvarProcess, weigh (takes k) p.place.done = (f p).toNat) →
      (R.killed.map fun p => weigh (takes k) p.place.done).sum = R.killed.countP f := by
    intro k f hf
    rw [← sum_toNat]
    simp only [hf]
  obtain ⟨hmutex, hempty, hfull⟩ := sum_rounds R.rounds
  simp only [History.total, Run.history, h.1, List.map_nil, List.sum_nil, List.map_map,
    Function.comp_def, zero_add]
  rw [hkilled .mutex _ fun p => (weigh_takes p).1, hkilled .empty _ fun p => (weigh_takes p).2.1,
    hkilled .full _ fun p => (weigh_takes p).2.2, hmutex, hempty, hfull]
  exact ⟨add_zero _, rfl, rfl⟩

/-! ## The new run -/

/-- The three values are right, and in the new run no letter is read before one
is written. -/
def Restarts (N : Run) : Prop :=
  (∀ k, N.value k = k.initial) ∧
    ∀ N', Reaches Step always N N' → N'.read ≠ [] → N'.wrote ≠ []

/-- What the earlier run left is right for its own semaphore: in the mutex, as
many were killed inside the section as its first value exceeds 1, and in the two
others what the writers and the readers handed each other, with those killed in
their rounds. The sums are those of `int`. -/
def LeftRight (R₀ R : Run) : Semaphore → Prop
  | .mutex => R₀.value .mutex = 1 + Int32.ofNat (R.killed.countP (·.inSection))
  | .empty => R₀.value .empty + Int32.ofNat R.returned =
      1 + Int32.ofNat R.handed + Int32.ofNat (R.killed.countP (·.writing))
  | .full => R₀.value .full + Int32.ofNat R.handed =
      Int32.ofNat R.returned + Int32.ofNat (R.killed.countP (·.reading))

/-- Every semaphore that is found was left right, or it is another one by that
name, and its value is right. -/
def Renewed (R₀ R : Run) : Prop :=
  ∀ k i, R.table.findSemByName k.name = some i →
    if i = R.shared.sem k then LeftRight R₀ R k else (R.table.sems i).value = k.initial

/-- The value that is left is the right one exactly when the run left it right. -/
theorem leftRight_iff (h : Accounts R₀.value R) (hdead : R.Dead) (k : Semaphore) :
    R.value k = k.initial ↔ LeftRight R₀ R k := by
  obtain ⟨hmutex, hempty, hfull⟩ := hdead.total
  rw [h.value]
  cases k with
  | mutex =>
      rw [hmutex]
      simp only [LeftRight, Semaphore.initial, Int32.ofInt_sub, Int32.ofInt_toInt,
        Int32.ofInt_eq_ofNat]
      constructor <;> intro heq <;> grind
  | empty =>
      rw [hempty]
      simp only [LeftRight, Semaphore.initial, Int32.ofInt_sub, Int32.ofInt_add,
        Int32.ofInt_toInt, Int32.ofInt_eq_ofNat]
      constructor <;> intro heq <;> grind
  | full =>
      rw [hfull]
      simp only [LeftRight, Semaphore.initial, Int32.ofInt_sub, Int32.ofInt_add,
        Int32.ofInt_toInt, Int32.ofInt_eq_ofNat]
      constructor <;> intro heq <;> grind

/-- Who is inside the section is inside a round. -/
theorem inSection_round (p : MvarProcess) (h : p.inSection = true) :
    p.writing = true ∨ p.reading = true := by
  unfold MvarProcess.inSection at h
  unfold MvarProcess.writing MvarProcess.reading
  obtain ⟨letter, n, hn, hdone, _⟩ | ⟨n, hn, hdone, _⟩ := place_cases p.place <;>
    rw [hdone] at h ⊢ <;> interval_cases n <;> first
      | exact absurd h (by decide)
      | exact .inl rfl
      | exact .inr rfl
      | exact absurd h Bool.false_ne_true

/-- **A run that began with new semaphores** leaves them right if and only if
nobody was killed inside a round and every letter was taken back. -/
theorem leftRight_fresh (h : Covered R) (hfresh : R₀.value = Semaphore.initial) (hdead : R.Dead) :
    (∀ k, LeftRight R₀ R k) ↔
      (∀ p ∈ R.killed, p.writing = false ∧ p.reading = false) ∧ R.handed = R.returned := by
  have haccounts : Accounts R₀.value R := hfresh ▸ h.accounts
  obtain ⟨hmutex, hempty, hfull⟩ := hdead.total
  have hiff : (∀ k, LeftRight R₀ R k) ↔ ∀ k, R.value k = k.initial :=
    forall_congr' fun k => (leftRight_iff haccounts hdead k).symm
  rw [hiff]
  constructor
  · intro hvalue
    have hone : (Semaphore.initial .empty).toInt = 1 := rfl
    have hzero : (Semaphore.initial .full).toInt = 0 := by decide
    have htakenEmpty := h.taken .empty
    have htakenFull := h.taken .full
    rw [hempty, hone] at htakenEmpty
    rw [hfull, hzero] at htakenFull
    -- the token is back in `empty`, so nobody took it away
    have hne : R.history.total (takes .empty) ≠ 1 := by
      intro htaken
      have hvalueEmpty := hvalue .empty
      rw [h.accounts.value, hone, htaken] at hvalueEmpty
      exact absurd hvalueEmpty (by decide)
    rw [hempty] at hne
    have hwriting : R.killed.countP (·.writing) = 0 := by omega
    have hreading : R.killed.countP (·.reading) = 0 := by omega
    rw [List.countP_eq_zero] at hwriting hreading
    refine ⟨fun p hp => ⟨?_, ?_⟩, by omega⟩
    · exact Bool.not_eq_true _ ▸ hwriting p hp
    · exact Bool.not_eq_true _ ▸ hreading p hp
  · rintro ⟨hout, hletters⟩ k
    have hnone : ∀ f : MvarProcess → Bool, (∀ p ∈ R.killed, f p = false) →
        R.killed.countP f = 0 := by
      intro f hf
      rw [List.countP_eq_zero]
      intro p hp
      rw [hf p hp]
      exact Bool.false_ne_true
    have hsection : ∀ p ∈ R.killed, p.inSection = false := by
      intro p hp
      by_contra hin
      rw [Bool.not_eq_false] at hin
      rcases inSection_round p hin with hw | hr
      · exact absurd hw (by rw [(hout p hp).1]; decide)
      · exact absurd hr (by rw [(hout p hp).2]; decide)
    have htotal : R.history.total (takes k) = 0 := by
      cases k with
      | mutex => rw [hmutex, hnone _ hsection, Nat.cast_zero]
      | empty => rw [hempty, hnone _ fun p hp => (hout p hp).1, hletters]; simp
      | full => rw [hfull, hnone _ fun p hp => (hout p hp).2, hletters]; simp
    rw [h.accounts.value, htotal, sub_zero, Int32.ofInt_toInt]

/-- **Starting mvar again**: after any earlier run whose processes were all killed,
a call of the wrapper that gets past its checks starts the new run right if and
only if the old one left right every semaphore that is found. -/
theorem mvar_restarts {pid pid' : ℤ} {argv argv' : List CStr} {allocated allocated' : Bool}
    {waiting waiting' : Semaphore → WaitQueue}
    (hstart : mvarWrapper T pid argv allocated waiting = .ok R₀)
    (hrun : Reaches Step always R₀ R) (hdead : R.Dead)
    (hagain : mvarWrapper R.table pid' argv' allocated' waiting' = .ok N) :
    Restarts N ↔ Renewed R₀ R := by
  have haccounts := (mvarWrapper_starts hstart).run hrun
  have hnew := mvarWrapper_starts hagain
  have hslot : ∀ k i, R.table.findSemByName k.name = some i → (N.value k = k.initial ↔
      if i = R.shared.sem k then LeftRight R₀ R k else (R.table.sems i).value = k.initial) := by
    intro k i hi
    rw [(hnew.found k i hi).2]
    split
    · rename_i heq
      rw [heq]
      exact leftRight_iff haccounts hdead k
    · rfl
  constructor
  · rintro ⟨hvalue, _⟩ k i hi
    exact (hslot k i hi).mp (hvalue k)
  · intro hrenewed
    have hvalue : ∀ k, N.value k = k.initial := by
      intro k
      cases hfind : R.table.findSemByName k.name with
      | none => exact hnew.created k hfind
      | some i => exact (hslot k i hfind).mpr (hrenewed k i hfind)
    refine ⟨hvalue, fun N' hN' hread hwrote => ?_⟩
    have hle := (hnew.run_covered hvalue hN').read_le
    rw [hwrote, List.length_nil, Nat.le_zero, List.length_eq_zero_iff] at hle
    exact hread hle

/-! ## A writer that dies with the token -/

/-- A first `semWait` on a value that is not zero. -/
theorem waits_takes {p : MvarProcess} {semId : ℕ} (hp : p.waiting = false) (hlt : semId < maxSems)
    (hused : (T.sems semId).used = true) (hvalue : (T.sems semId).value ≠ 0) :
    Waits p semId T true
      (T.setSem semId { T.sems semId with value := (T.sems semId).value - 1 }) := by
  let M : Machine := { Machine.booted with sems := T }
  refine ⟨M, (M.setSem semId { T.sems semId with value := (T.sems semId).value - 1 }).note
    (.semWaited p.pid semId), rfl, rfl, ?_⟩
  rw [hp]
  have hin : ¬(semId : ℤ) ≥ (maxSems : ℕ) := by omega
  simp only [Bool.false_eq_true, if_false, Machine.semWait, Int.toNat_natCast,
    Machine.semWaitLoop, M, hused, Bool.not_true, if_neg hvalue, if_neg hin]
  rw [if_neg (by omega)]

/-- The run that a call started, or one without processes. -/
def startedRun : Except SemTable Run → Run
  | .ok R => R
  | .error T => ⟨T, ⟨0, 1, 0, 0, 0⟩, [], [], [], [], [], [], []⟩

/-- `mvar 1 1` in a system without semaphores. -/
def firstCall : Except SemTable Run :=
  mvarWrapper (Registry.boot 0).table 3 [[109, 118, 97, 114], [49], [49]] true fun _ => .queue []

theorem startedRun_eq {result : Except SemTable Run} (h : result.isOk = true) :
    result = .ok (startedRun result) := by
  cases result with
  | ok R => rfl
  | error T => exact absurd h Bool.false_ne_true

def firstRun : Run := startedRun firstCall

theorem firstCall_eq : firstCall = .ok firstRun := startedRun_eq (by decide +kernel)

/-- A writer and a reader are created, the writer takes the token of `empty`, and
both are killed. -/
theorem killed_inside {letter : UInt8} (hpending : R₀.pending = [.writer letter, .reader])
    (halive : R₀.alive = [])
    (hwaits : Waits ⟨4, (Role.writer letter).start, false, 0⟩ (R₀.shared.sem .empty) R₀.table
      true T) : ∃ R, Reaches Step always R₀ R ∧ R.Dead ∧ R.table = T := by
  let w : MvarProcess := ⟨4, (Role.writer letter).start, false, 0⟩
  let r : MvarProcess := ⟨5, Role.reader.start, false, 0⟩
  let v : MvarProcess := { w with place := w.place.next }
  let R₁ : Run := { R₀ with pending := [.reader], alive := [w] }
  let R₂ : Run := { R₀ with pending := [], alive := [w, r] }
  let R₃ : Run := { R₂ with table := T, alive := [v, r] }
  let R₄ : Run := { R₃ with alive := [r], killed := v :: R₀.killed }
  have hcreateWriter : Step R₀ .create R₁ := by
    have hstep := Step.created 4 hpending
    rwa [halive] at hstep
  have hcreateReader : Step R₁ .create R₂ := Step.created 5 (show R₁.pending = _ from rfl)
  have hturn : Step R₂ (.turn 4) R₃ :=
    Step.ran (show R₂.alive = [] ++ w :: [r] from rfl) (Act.semWait hwaits)
  have hkillWriter : Step R₃ (.kill 4) R₄ :=
    Step.killed (show R₃.alive = [] ++ v :: [r] from rfl)
  have hkillReader : Step R₄ (.kill 5) { R₄ with alive := [], killed := r :: R₄.killed } :=
    Step.killed (show R₄.alive = [] ++ r :: [] from rfl)
  have hnone : Reaches Step always R₀ R₀ := Reaches.refl R₀
  have hcreated : Reaches Step always R₀ R₂ :=
    (hnone.tail trivial hcreateWriter).tail trivial hcreateReader
  exact ⟨_, ((hcreated.tail trivial hturn).tail trivial hkillWriter).tail trivial hkillReader,
    ⟨rfl, rfl⟩, rfl⟩

/-- The table after that. -/
def lostToken : SemTable :=
  firstRun.table.setSem 1
    { firstRun.table.sems 1 with value := (firstRun.table.sems 1).value - 1 }

theorem lostToken_reached : ∃ R, Reaches Step always firstRun R ∧ R.Dead ∧ R.table = lostToken := by
  have hempty : firstRun.shared.sem .empty = 1 := by decide +kernel
  have hpending : firstRun.pending = [.writer 65, .reader] := by decide +kernel
  apply killed_inside hpending (mvarWrapper_starts firstCall_eq).alive
  rw [hempty]
  exact waits_takes rfl (by decide) (by decide +kernel) (by decide +kernel)

/-- The same call once more. -/
def secondCall : Except SemTable Run :=
  mvarWrapper lostToken 6 [[109, 118, 97, 114], [49], [49]] true fun _ => .queue []

theorem secondCall_eq : secondCall = .ok (startedRun secondCall) :=
  startedRun_eq (by decide +kernel)

/-- After a writer was killed with the token. -/
theorem mvar_restarts_lost : ∃ R, Reaches Step always firstRun R ∧ R.Dead ∧
    (Restarts (startedRun secondCall) ↔ Renewed firstRun R) := by
  obtain ⟨R, hrun, hdead, htable⟩ := lostToken_reached
  have hagain : mvarWrapper R.table 6 [[109, 118, 97, 114], [49], [49]] true
      (fun _ => .queue []) = .ok (startedRun secondCall) := by
    rw [htable]
    exact secondCall_eq
  exact ⟨R, hrun, hdead, mvar_restarts firstCall_eq hrun hdead hagain⟩

/-- **The new run starts without a token in `empty`**, and all its writers wait. -/
theorem mvar_restarts_not : ¬∀ (T : SemTable) (R₀ R N : Run) (pid pid' : ℤ) (argv argv' : List CStr)
    (allocated allocated' : Bool) (waiting waiting' : Semaphore → WaitQueue),
    mvarWrapper T pid argv allocated waiting = .ok R₀ → Reaches Step always R₀ R → R.Dead →
      mvarWrapper R.table pid' argv' allocated' waiting' = .ok N → Restarts N := by
  intro hall
  obtain ⟨R, hrun, hdead, htable⟩ := lostToken_reached
  have hagain : mvarWrapper R.table 6 [[109, 118, 97, 114], [49], [49]] true
      (fun _ => .queue []) = .ok (startedRun secondCall) := by
    rw [htable]
    exact secondCall_eq
  have hrestarts := hall _ firstRun R _ 3 6 _ _ true true _ _ firstCall_eq hrun hdead hagain
  have hvalue := hrestarts.1 .empty
  have hfind : lostToken.findSemByName Semaphore.empty.name = some 1 := by decide +kernel
  rw [((mvarWrapper_starts secondCall_eq).found .empty 1 hfind).2] at hvalue
  exact absurd hvalue (by decide +kernel)

end BareKernel.Mvar
