import BareKernel.Userland.MvarRestart

/-!
# What mvar hands over

In a run that began with new semaphores a letter is only written when every
earlier one was read, and only read when it was not read before. This holds
even when processes are killed; the tokens are all there as long as nobody is.
-/

namespace BareKernel.Mvar

open Kernel Shell Runs Rounds

variable {T : SemTable} {R R' R₀ : Run} {e : Event} {p q : MvarProcess}

/-! ## The two places that touch the cell -/

/-- A letter that is written had a token of `empty`, or followed one that was read. -/
theorem writes_le (role : Role) (n : ℕ) : weigh writes (role.body.take n) ≤
    weigh (fun op => takes .empty op + reads op) (role.body.take n) := by
  apply forall_beginnings (P := fun _ ops =>
    weigh writes ops ≤ weigh (fun op => takes .empty op + reads op) ops)
  · intro letter
    simp [mvarWriter, weigh, reads, takes, writes]
  · simp [mvarReader, weigh, reads, takes, writes]

/-- Where a letter is written, the token of `empty` is taken. -/
theorem writes_lt {letter : UInt8} (h : p.place.op = .setValue letter) :
    weigh writes p.place.done < weigh (fun op => takes .empty op + reads op) p.place.done := by
  obtain ⟨l, n, hn, hdone, hop⟩ | ⟨n, hn, hdone, hop⟩ := place_cases p.place <;>
    rw [hdone] <;> rw [h] at hop <;> interval_cases n <;> first
      | exact show (0 : ℤ) < 1 by decide
      | exact absurd hop (by simp [mvarWriter])
      | exact absurd hop (by simp [mvarReader])

/-- Where a letter is read, the token of `full` is taken. -/
theorem reads_lt (h : p.place.op = .readValue) :
    weigh reads p.place.done < weigh (fun op => takes .full op + writes op) p.place.done := by
  obtain ⟨l, n, hn, hdone, hop⟩ | ⟨n, hn, hdone, hop⟩ := place_cases p.place <;>
    rw [hdone] <;> rw [h] at hop <;> interval_cases n <;> first
      | exact show (0 : ℤ) < 1 by decide
      | exact absurd hop (by simp [mvarWriter])
      | exact absurd hop (by simp [mvarReader])

/-! ## The letters -/

theorem Covered.wrote_le (h : Covered R) : R.wrote.length ≤ R.read.length + 1 := by
  have hle : R.history.total writes ≤ R.history.total fun op => takes .empty op + reads op :=
    History.total_le writes_le
  rw [History.total_add, ← h.read, ← h.wrote] at hle
  have hempty := h.taken .empty
  have hone : (Semaphore.initial .empty).toInt = 1 := rfl
  omega

/-- Before a letter is written, every earlier one was read. -/
theorem Covered.setValue (h : Covered R) (hp : p ∈ R.alive) {letter : UInt8}
    (hop : p.place.op = .setValue letter) : R.wrote.length = R.read.length := by
  have hlt : R.history.total writes < R.history.total fun op => takes .empty op + reads op :=
    History.total_lt writes_le (List.mem_map_of_mem hp) (writes_lt hop)
  rw [History.total_add, ← h.read, ← h.wrote] at hlt
  have hempty := h.taken .empty
  have hone : (Semaphore.initial .empty).toInt = 1 := rfl
  have hle := h.read_le
  omega

/-- Before a letter is read, one was not yet read. -/
theorem Covered.readValue (h : Covered R) (hp : p ∈ R.alive) (hop : p.place.op = .readValue) :
    R.wrote.length = R.read.length + 1 := by
  have hlt : R.history.total reads < R.history.total fun op => takes .full op + writes op :=
    History.total_lt reads_le (List.mem_map_of_mem hp) (reads_lt hop)
  rw [History.total_add, ← h.read, ← h.wrote] at hlt
  have hfull := h.taken .full
  have hzero : (Semaphore.initial .full).toInt = 0 := by decide
  have hle := h.wrote_le
  omega

/-- The letters read are those written, and one that is not yet read is in the cell. -/
structure Paired (R : Run) : Prop where
  covered : Covered R
  letters : R.wrote = R.read ∨ R.wrote = R.read ++ [R.shared.value]

theorem Paired.settled (h : Paired R) (hlen : R.wrote.length = R.read.length) :
    R.wrote = R.read := by
  rcases h.letters with heq | heq
  · exact heq
  · rw [heq] at hlen
    simp at hlen

theorem Paired.pending (h : Paired R) (hlen : R.wrote.length = R.read.length + 1) :
    R.wrote = R.read ++ [R.shared.value] := by
  rcases h.letters with heq | heq
  · rw [heq] at hlen
    omega
  · exact heq

/-- What a step may do with the letters. -/
def Exchanges (R R' : Run) : Prop :=
  (R'.letters = R.letters) ∨
  (R.wrote = R.read ∧ ∃ letter, R'.letters = ⟨letter, R.wrote ++ [letter], R.read⟩) ∨
  (R.wrote = R.read ++ [R.shared.value] ∧ R'.letters = ⟨R.shared.value, R.wrote, R.wrote⟩)

theorem Paired.exchanges (h : Paired R) (hstep : Step R e R') : Exchanges R R' := by
  obtain ⟨_, hstill | ⟨p, hp, hturn⟩⟩ := h.covered.accounts.wired.step hstep
  · exact .inl hstill.letters
  · have hletters := hturn.letters
    cases hop : p.place.op with
    | setValue letter =>
        rw [hop] at hletters
        exact .inr (.inl ⟨h.settled (h.covered.setValue hp hop), letter, hletters⟩)
    | readValue =>
        rw [hop] at hletters
        have hnext : R.letters.next .readValue =
          ⟨R.shared.value, R.wrote, R.read ++ [R.shared.value]⟩ := rfl
        have hpending := h.pending (h.covered.readValue hp hop)
        exact .inr (.inr ⟨hpending, by rw [hletters, hnext, ← hpending]⟩)
    | _ =>
        rw [hop] at hletters
        exact .inl hletters

theorem Paired.step (h : Paired R) (hstep : Step R e R') : Paired R' := by
  refine ⟨h.covered.step hstep, ?_⟩
  rcases h.exchanges hstep with hsame | ⟨hall, letter, hnext⟩ | ⟨hone, hnext⟩
  · have hwrote : R'.wrote = R.wrote := congrArg Letters.wrote hsame
    have hread : R'.read = R.read := congrArg Letters.read hsame
    have hvalue : R'.shared.value = R.shared.value := congrArg Letters.value hsame
    rw [hwrote, hread, hvalue]
    exact h.letters
  · have hwrote : R'.wrote = R.wrote ++ [letter] := congrArg Letters.wrote hnext
    have hread : R'.read = R.read := congrArg Letters.read hnext
    have hvalue : R'.shared.value = letter := congrArg Letters.value hnext
    rw [hwrote, hread, hvalue, hall]
    exact .inr rfl
  · have hwrote : R'.wrote = R.wrote := congrArg Letters.wrote hnext
    have hread : R'.read = R.wrote := congrArg Letters.read hnext
    rw [hwrote, hread]
    exact .inl rfl

theorem Starts.run_paired {ok : Run → Event → Prop} (h : Starts T R₀) (hfresh : Fresh R₀)
    (hrun : Reaches Step ok R₀ R) : Paired R := by
  have hstart : Paired R₀ := ⟨h.covered hfresh, .inl (by rw [h.letters.1, h.letters.2])⟩
  exact hrun.invariant hstart fun _ _ _ hR _ hstep => hR.step hstep

/-! ## The tokens -/

/-- Between the first `semWait` and the last `semPost` of a round. -/
def MvarProcess.inRound (p : MvarProcess) : Bool := p.writing || p.reading

/-- Two tokens of a process never count at once. -/
theorem weigh_inRound (p : MvarProcess) :
    weigh (fun op => takes .empty op + takes .full op) p.place.done = p.inRound.toNat := by
  unfold MvarProcess.inRound MvarProcess.writing MvarProcess.reading
  obtain ⟨letter, n, hn, hdone, _⟩ | ⟨n, hn, hdone, _⟩ := place_cases p.place <;> rw [hdone] <;>
    interval_cases n <;> rfl

theorem weigh_round (role : Role) :
    weigh (fun op => takes .empty op + takes .full op) role.body = 0 := by
  cases role <;> rfl

theorem total_inRound (hkilled : R.killed = []) :
    R.history.total (takes .empty) + R.history.total (takes .full) =
      R.alive.countP (·.inRound) := by
  rw [← History.total_add, ← sum_toNat]
  simp only [History.total, Run.history, hkilled, List.map_map, Function.comp_def, weigh_inRound,
    weigh_round]
  simp

/-- Nobody is killed. -/
def notKilled : Run → Event → Prop
  | _, .kill _ => False
  | _, .killWrapper => False
  | _, _ => True

theorem killed_step (hstep : Step R e R') (hok : notKilled R e) (h : R.killed = []) :
    R'.killed = [] := by
  cases hstep with
  | ran _ act => rw [← h, ← act.history.2.1]
  | killed => exact absurd hok id
  | _ => exact h

/-- A value between 0 and 1 is that of the ledger. -/
theorem Covered.value_toInt (h : Covered R) {k : Semaphore}
    (hone : (k.initial).toInt - R.history.total (takes k) ≤ 1) :
    (R.value k).toInt = (k.initial).toInt - R.history.total (takes k) := by
  have htaken := h.taken k
  rw [h.accounts.value]
  exact Int32.toInt_ofInt_of_le (by omega) (by omega)

/-- **mvar hands over every letter once**: in every run with new semaphores in which
nobody is killed, the letters read are the letters written, possibly without the last
one; a letter is only written when all were read, and only read when it was not; and
the tokens of `empty` and `full` are with the semaphores or with the processes. -/
theorem mvar_hands_over {pid : ℤ} {argv : List CStr} {allocated : Bool}
    {waiting : Semaphore → WaitQueue}
    (hstart : mvarWrapper T pid argv allocated waiting = .ok R₀) (hfresh : Fresh R₀)
    (hrun : Reaches Step notKilled R₀ R) :
    (R.wrote = R.read ∨ ∃ letter, R.wrote = R.read ++ [letter]) ∧
    (∀ e R', Step R e R' → Exchanges R R') ∧
    (R.value .empty).toInt + (R.value .full).toInt + R.alive.countP (·.inRound) = 1 := by
  have hstarts := mvarWrapper_starts hstart
  have hpaired := hstarts.run_paired hfresh hrun
  have hnone : R₀.killed = [] := List.map_eq_nil_iff.mp (congrArg History.stopped hstarts.history)
  have hkilled : R.killed = [] :=
    hrun.invariant hnone fun _ _ _ hR hok hstep => killed_step hstep hok hR
  refine ⟨?_, fun _ _ hstep => hpaired.exchanges hstep, ?_⟩
  · rcases hpaired.letters with heq | heq
    · exact .inl heq
    · exact .inr ⟨_, heq⟩
  · have htotal := total_inRound hkilled
    have hempty := hpaired.covered.taken .empty
    have hfull := hpaired.covered.taken .full
    have hone : (Semaphore.initial .empty).toInt = 1 := rfl
    have hzero : (Semaphore.initial .full).toInt = 0 := by decide
    rw [hpaired.covered.value_toInt (by omega), hpaired.covered.value_toInt (by omega)]
    omega

theorem firstRun_fresh : Fresh firstRun := by
  have hnone : ∀ k : Semaphore, (Registry.boot 0).table.findSemByName k.name = none := by
    intro k
    cases k <;> decide +kernel
  exact fun k => (mvarWrapper_starts firstCall_eq).created k (hnone k)

/-! ## A run -/

/-- A kernel with the semaphores of the run. -/
def Run.kernel (R : Run) : Machine := { Machine.booted with sems := R.table }

/-- The call of `semWait`, or the next round of its loop. -/
def Run.waits (R : Run) (p : MvarProcess) (k : Semaphore) : Option (Bool × Machine) :=
  if p.waiting then R.kernel.semWaitLoop p.pid (R.shared.sem k) .done
  else R.kernel.semWait p.pid (R.shared.sem k) .done

/-- What a statement of `p` makes of the run and of the process. Without a process it is blocked
in `semWait`. -/
def Run.act (R : Run) (p : MvarProcess) : Option (Run × Option MvarProcess) :=
  match p.place.op with
  | .semWait k => (R.waits p k).map fun r =>
      ({ R with table := r.2.sems }, if r.1 then some { p with waiting := false } else none)
  | .semPost k => (R.kernel.semPost (R.shared.sem k)).map fun r =>
      ({ R with table := r.2.sems }, some p)
  | .setValue letter =>
      some ({ R with
        shared := { R.shared with value := letter }
        wrote := R.wrote ++ [letter] }, some p)
  | .setEmpty isEmpty => some ({ R with shared := { R.shared with isEmpty := isEmpty } }, some p)
  | .readValue => some ({ R with read := R.read ++ [R.shared.value] },
      some { p with readValue := R.shared.value })
  | .print => some ({ R with printed := R.printed ++ [p.readValue] }, some p)

/-- The turn of the process at the index. -/
def Run.turn (R : Run) (i : ℕ) : Option Run :=
  (R.alive[i]?).bind fun p => (R.act p).map fun
    | (R', some q) =>
        { R' with
          alive := R.alive.take i ++ { q with place := p.place.next } :: R.alive.drop (i + 1)
          rounds := p.place.ends ++ R.rounds }
    | (R', none) =>
        { R' with
          alive := R.alive.take i ++ { p with waiting := true } :: R.alive.drop (i + 1) }

theorem Run.act_ran (h : R.act p = some (R', some q)) : Act R p p.place.op R' q := by
  unfold Run.act at h
  split at h <;> rename_i hop <;> rw [hop]
  · obtain ⟨⟨taken, M⟩, hwait, heq⟩ := Option.map_eq_some_iff.mp h
    obtain ⟨rfl, htaken⟩ := Prod.mk.inj heq
    cases taken with
    | false => exact absurd htaken (by simp)
    | true =>
        obtain rfl := Option.some.inj htaken
        exact .semWait ⟨R.kernel, M, rfl, rfl, hwait⟩
  · obtain ⟨⟨result, M⟩, hpost, heq⟩ := Option.map_eq_some_iff.mp h
    obtain ⟨rfl, hq⟩ := Prod.mk.inj heq
    obtain rfl := Option.some.inj hq
    exact .semPost ⟨R.kernel, M, result, rfl, rfl, hpost⟩
  all_goals
    obtain ⟨rfl, hq⟩ := Prod.mk.inj (Option.some.inj h)
    obtain rfl := Option.some.inj hq
  · exact .setValue
  · exact .setEmpty
  · exact .readValue
  · exact .print

theorem Run.act_blocked (h : R.act p = some (R', none)) : ∃ k T, p.place.op = .semWait k ∧
    Waits p (R.shared.sem k) R.table false T ∧ R' = { R with table := T } := by
  unfold Run.act at h
  split at h <;> rename_i hop
  · rename_i k
    obtain ⟨⟨taken, M⟩, hwait, heq⟩ := Option.map_eq_some_iff.mp h
    obtain ⟨rfl, htaken⟩ := Prod.mk.inj heq
    cases taken with
    | false => exact ⟨k, M.sems, hop, ⟨R.kernel, M, rfl, rfl, hwait⟩, rfl⟩
    | true => exact absurd htaken (by simp)
  · obtain ⟨_, _, heq⟩ := Option.map_eq_some_iff.mp h
    exact absurd (Prod.mk.inj heq).2 (by simp)
  all_goals exact absurd (Prod.mk.inj (Option.some.inj h)).2 (by simp)

/-- What is computed is a step in which nobody is killed. -/
theorem Run.turn_step {i : ℕ} (h : R.turn i = some R') : ∃ e, notKilled R e ∧ Step R e R' := by
  obtain ⟨p, hp, h⟩ := Option.bind_eq_some_iff.mp h
  obtain ⟨hi, rfl⟩ := List.getElem?_eq_some_iff.mp hp
  have halive : R.alive = R.alive.take i ++ R.alive[i] :: R.alive.drop (i + 1) := by
    rw [List.getElem_cons_drop, List.take_append_drop]
  obtain ⟨⟨M, q⟩, hact, rfl⟩ := Option.map_eq_some_iff.mp h
  refine ⟨.turn R.alive[i].pid, trivial, ?_⟩
  cases q with
  | some q => exact .ran halive (Run.act_ran hact)
  | none =>
      obtain ⟨k, T, hop, hwaits, rfl⟩ := Run.act_blocked hact
      exact .blocked halive hop hwaits

theorem turns_reach {is : List ℕ} : ∀ {R R' : Run}, exec Run.turn R is = some R' →
    Reaches Step notKilled R R' := by
  induction is with
  | nil =>
      intro R R' h
      obtain rfl := Option.some.inj h
      exact Reaches.refl R
  | cons i is ih =>
      intro R R' h
      obtain ⟨M, hturn, hrest⟩ := Option.bind_eq_some_iff.mp h
      obtain ⟨e, hok, hstep⟩ := Run.turn_step hturn
      exact Relation.ReflTransGen.trans ((Reaches.refl R).tail hok hstep) (ih hrest)

/-- The run with a writer and a reader before their first statements. -/
def Run.withBoth (R : Run) (letter : UInt8) : Run :=
  { R with
    pending := []
    alive := [⟨4, (Role.writer letter).start, false, 0⟩, ⟨5, Role.reader.start, false, 0⟩] }

theorem created_both {letter : UInt8} (hpending : R.pending = [.writer letter, .reader])
    (halive : R.alive = []) : Reaches Step notKilled R (R.withBoth letter) := by
  let w : MvarProcess := ⟨4, (Role.writer letter).start, false, 0⟩
  let R₁ : Run := { R with pending := [.reader], alive := [w] }
  have hwriter : Step R .create R₁ := by
    have hstep := Step.created 4 hpending
    rwa [halive] at hstep
  have hreader : Step R₁ .create (R.withBoth letter) :=
    Step.created 5 (show R₁.pending = _ from rfl)
  have hok : ∀ M : Run, notKilled M .create := fun _ => trivial
  exact ((Reaches.refl R).tail (hok R) hwriter).tail (hok R₁) hreader

/-- The reader waits for the letter, which the writer writes; the reader reads it and prints
it, and the writer writes once more. -/
def letterPassed : List ℕ := 1 :: List.replicate 6 0 ++ List.replicate 7 1 ++ List.replicate 4 0

/-- The run of `letterPassed`: two letters were written, and the first was read. -/
theorem mvar_hands_over_first : ∃ R, Reaches Step notKilled firstRun R ∧
    (R.wrote, R.read, R.printed) = ([65, 65], [65], [65]) ∧
    (R.wrote = R.read ∨ ∃ letter, R.wrote = R.read ++ [letter]) ∧
    (∀ e R', Step R e R' → Exchanges R R') ∧
    (R.value .empty).toInt + (R.value .full).toInt + R.alive.countP (·.inRound) = 1 := by
  have hpending : firstRun.pending = [.writer 65, .reader] := by decide +kernel
  have halive : firstRun.alive = [] := (mvarWrapper_starts firstCall_eq).alive
  have hcreated : Reaches Step notKilled firstRun (firstRun.withBoth 65) :=
    created_both hpending halive
  obtain ⟨R, hR⟩ := Option.isSome_iff_exists.mp (by decide +kernel :
    (exec Run.turn (firstRun.withBoth 65) letterPassed).isSome)
  have hletters : (exec Run.turn (firstRun.withBoth 65) letterPassed).map
      (fun R => (R.wrote, R.read, R.printed)) = some ([65, 65], [65], [65]) := by
    decide +kernel
  rw [hR, Option.map_some, Option.some.injEq] at hletters
  have hrun := Relation.ReflTransGen.trans hcreated (turns_reach hR)
  exact ⟨R, hrun, hletters, mvar_hands_over firstCall_eq firstRun_fresh hrun⟩

end BareKernel.Mvar
