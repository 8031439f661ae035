import BareKernel.Userland.Mvar

/-!
# The tokens of mvar

The value of each of the three semaphores is what it was at the start, less what
the processes took and did not give back. Everything is counted by weights on
the statements of the loops, summed over the processes that are there, over the
places where others were killed, and over the rounds that came to their end.
-/

namespace BareKernel.Mvar

open Kernel Shell Runs Rounds

variable {T T' : SemTable} {R R' R₀ : Run} {p q : MvarProcess} {e : Event} {op : Op}
  {k : Semaphore} {semId : ℕ}

/-! ## The start -/

/-- What a call of the wrapper that gets past its checks leaves behind. -/
structure Starts (T : SemTable) (R : Run) : Prop where
  history : R.history = ⟨[], [], []⟩
  letters : R.wrote = [] ∧ R.read = []
  opened : ∀ k, Marked R.table (R.shared.sem k) k
  found : ∀ k i, T.findSemByName k.name = some i →
    i = R.shared.sem k ∧ R.value k = (T.sems i).value
  created : ∀ k, T.findSemByName k.name = none → R.value k = k.initial

theorem Starts.alive (h : Starts T R) : R.alive = [] := by
  have hactive : R.alive.map (·.place) = [] := congrArg History.active h.history
  exact List.map_eq_nil_iff.mp hactive

/-- One of the three, with other calls before and behind its own. -/
theorem Opens.between {before after U : SemTable} (h : Opens before k semId after)
    (hfind : before.findSemByName k.name = T.findSemByName k.name)
    (hbefore : ∀ i, Marked T i k → before.sems i = T.sems i)
    (hlast : U.sems semId = after.sems semId) : Marked U semId k ∧
      (∀ i, T.findSemByName k.name = some i →
        i = semId ∧ (U.sems semId).value = (T.sems i).value) ∧
      (T.findSemByName k.name = none → (U.sems semId).value = k.initial) := by
  refine ⟨h.marked.congr hlast, fun i hi => ?_, fun hnone => ?_⟩
  · obtain ⟨rfl, hvalue⟩ := h.found i (hfind.trans hi)
    exact ⟨rfl, by rw [hlast, hvalue, hbefore i (marked_of_find hi)]⟩
  · rw [hlast]
    exact (h.created (hfind.trans hnone)).2

theorem mvarWrapper_starts {pid : ℤ} {argv : List CStr} {allocated : Bool}
    {waiting : Semaphore → WaitQueue} (h : mvarWrapper T pid argv allocated waiting = .ok R) :
    Starts T R := by
  unfold mvarWrapper at h
  split at h
  · simp only at h
    split at h
    · simp at h
    · split at h
      · simp at h
      · rcases hmutex : semOpen T pid .mutex (waiting .mutex) with ⟨semMutex, T₁⟩
        rcases hempty : semOpen T₁ pid .empty (waiting .empty) with ⟨semEmpty, T₂⟩
        rcases hfull : semOpen T₂ pid .full (waiting .full) with ⟨semFull, T₃⟩
        rw [hmutex] at h
        simp only at h
        rw [hempty] at h
        simp only at h
        rw [hfull] at h
        simp only at h
        split at h
        · rename_i m e f
          obtain rfl := Except.ok.inj h
          have om := semOpen_opens hmutex
          have oe := semOpen_opens hempty
          have of := semOpen_opens hfull
          -- the later calls leave the slots of the earlier ones alone
          have hm : T₂.sems m = T₁.sems m := oe.keeps om.marked (by decide)
          have hm' : T₃.sems m = T₂.sems m := of.keeps (om.marked.congr hm) (by decide)
          have he : T₃.sems e = T₂.sems e := of.keeps oe.marked (by decide)
          -- and the earlier calls what the later ones find
          have hkept : ∀ i, Marked T i .full → T₂.sems i = T.sems i := by
            intro i hi
            have h₁ := om.keeps hi (by decide)
            exact (oe.keeps (hi.congr h₁) (by decide)).trans h₁
          have hsMutex := om.between (T := T) (U := T₃) rfl (fun _ _ => rfl) (hm'.trans hm)
          have hsEmpty := oe.between (T := T) (U := T₃) (om.find (by decide))
            (fun i hi => om.keeps hi (by decide)) he
          have hsFull := of.between (T := T) (U := T₃)
            ((oe.find (by decide)).trans (om.find (by decide))) hkept rfl
          refine ⟨rfl, ⟨rfl, rfl⟩, fun k => ?_, fun k => ?_, fun k => ?_⟩ <;> cases k
          · exact hsMutex.1
          · exact hsEmpty.1
          · exact hsFull.1
          · exact hsMutex.2.1
          · exact hsEmpty.2.1
          · exact hsFull.2.1
          · exact hsMutex.2.2
          · exact hsEmpty.2.2
          · exact hsFull.2.2
        · simp at h
  · simp at h

/-! ## What the kernel does to the three slots -/

/-- One slot gets another value. -/
structure Changes (T : SemTable) (semId : ℕ) (d : ℤ) (T' : SemTable) : Prop where
  value : (T'.sems semId).value = (T.sems semId).value + Int32.ofInt d
  used : (T'.sems semId).used = (T.sems semId).used
  others : ∀ j, j ≠ semId → T'.sems j = T.sems j

theorem changes_setSem {s : Sem} {d : ℤ} (hvalue : s.value = (T.sems semId).value + Int32.ofInt d)
    (hused : s.used = (T.sems semId).used) : Changes T semId d (T.setSem semId s) :=
  ⟨by rw [SemTable.setSem_sems_self, hvalue], by rw [SemTable.setSem_sems_self, hused],
    fun _ hj => SemTable.setSem_sems_of_ne hj⟩

theorem changes_refl : Changes T semId 0 T :=
  ⟨by simp, rfl, fun _ _ => rfl⟩

/-- One round of the loop of `semWait`. -/
theorem semWaitLoop_changes {M M' : Machine} {pid : ℤ} {taken : Bool}
    (h : M.semWaitLoop pid semId .done = some (taken, M')) :
    if taken then (M.sems.sems semId).value ≠ 0 ∧ Changes M.sems semId (-1) M'.sems
    else Changes M.sems semId 0 M'.sems := by
  unfold Machine.semWaitLoop at h
  simp only at h
  split at h
  · split at h
    · simp at h
    · simp only [Option.some.injEq, Prod.mk.injEq] at h
      obtain ⟨rfl, rfl⟩ := h
      exact changes_refl
    · simp only [Option.some.injEq, Prod.mk.injEq] at h
      obtain ⟨rfl, rfl⟩ := h
      exact changes_setSem (by simp) rfl
  · rename_i hvalue
    simp only [Option.some.injEq, Prod.mk.injEq] at h
    obtain ⟨rfl, rfl⟩ := h
    exact ⟨hvalue, changes_setSem (by simp [Int32.sub_eq_add_neg]) rfl⟩

theorem Waits.changes {taken : Bool} (h : Waits p semId T taken T') (hlt : semId < maxSems)
    (hused : (T.sems semId).used = true) :
    if taken then (T.sems semId).value ≠ 0 ∧ Changes T semId (-1) T'
    else Changes T semId 0 T' := by
  obtain ⟨M, M', rfl, rfl, hwait⟩ := h
  split at hwait
  · exact semWaitLoop_changes hwait
  · unfold Machine.semWait at hwait
    rw [if_neg (by omega), if_neg (by omega), Int.toNat_natCast, hused] at hwait
    exact semWaitLoop_changes hwait

theorem Posts.changes (h : Posts semId T T') (hlt : semId < maxSems)
    (hused : (T.sems semId).used = true) : Changes T semId 1 T' := by
  obtain ⟨M, M', result, rfl, rfl, hpost⟩ := h
  unfold Machine.semPost at hpost
  rw [if_neg (by omega)] at hpost
  simp only [Int.toNat_natCast, hused, Bool.not_true, Bool.false_eq_true, if_false] at hpost
  split at hpost
  · simp at hpost
  · simp only [Option.some.injEq, Prod.mk.injEq] at hpost
    obtain ⟨_, rfl⟩ := hpost
    exact changes_setSem (by simp) hused.symm

/-! ## What a step does -/

/-- A token taken, or less one when it is given back. -/
def takes (k : Semaphore) : Op → ℤ
  | .semWait j => if j = k then 1 else 0
  | .semPost j => if j = k then -1 else 0
  | _ => 0

def writes : Op → ℤ
  | .setValue _ => 1
  | _ => 0

def reads : Op → ℤ
  | .readValue => 1
  | _ => 0

/-- The cell, and the letters that were written and read. -/
structure Letters where
  value : UInt8
  wrote : List UInt8
  read : List UInt8

def Run.letters (R : Run) : Letters := ⟨R.shared.value, R.wrote, R.read⟩

/-- The letters behind one statement. -/
def Letters.next (L : Letters) : Op → Letters
  | .setValue letter => ⟨letter, L.wrote ++ [letter], L.read⟩
  | .readValue => ⟨L.value, L.wrote, L.read ++ [L.value]⟩
  | _ => L

/-- The three semaphores are there, and they are three. -/
structure Wired (R : Run) : Prop where
  lt : ∀ k, R.shared.sem k < maxSems
  used : ∀ k, (R.table.sems (R.shared.sem k)).used = true
  distinct : Function.Injective R.shared.sem

/-- Nothing is done. -/
structure Still (R R' : Run) : Prop where
  total : ∀ w, R'.history.total w = R.history.total w
  value : ∀ k, R'.value k = R.value k
  letters : R'.letters = R.letters

/-- One statement is done. -/
structure Turn (R : Run) (op : Op) (R' : Run) : Prop where
  total : ∀ w, R'.history.total w = R.history.total w + w op
  value : ∀ k, R'.value k = R.value k - Int32.ofInt (takes k op)
  taken : ∀ k, op = .semWait k → R.value k ≠ 0
  letters : R'.letters = R.letters.next op

theorem Starts.wired (h : Starts T R) : Wired R :=
  ⟨fun k => (h.opened k).lt, fun k => (h.opened k).used, fun j k hjk =>
    Marked.unique (hjk ▸ h.opened j) (h.opened k)⟩

/-- A semaphore's change, seen from the run. -/
theorem Wired.changes {Q : Run} {d : ℤ} (h : Wired R) (hc : Changes R.table (R.shared.sem k) d T')
    (hsem : Q.shared.sem = R.shared.sem) (htable : Q.table = T') : Wired Q ∧
      Q.value k = R.value k + Int32.ofInt d ∧ ∀ j, j ≠ k → Q.value j = R.value j := by
  have hslot : ∀ j, j ≠ k → Q.table.sems (Q.shared.sem j) = R.table.sems (R.shared.sem j) := by
    intro j hj
    rw [htable, hsem]
    exact hc.others _ fun heq => hj (h.distinct heq)
  refine ⟨⟨fun j => by rw [hsem]; exact h.lt j, fun j => ?_, by rw [hsem]; exact h.distinct⟩,
    ?_, fun j hj => by rw [Run.value, hslot j hj, Run.value]⟩
  · by_cases hj : j = k
    · rw [hj, htable, hsem, hc.used]
      exact h.used k
    · rw [hslot j hj]
      exact h.used j
  · rw [Run.value, htable, hsem]
    exact hc.value

/-- The three slots are left alone. -/
theorem Wired.same {Q : Run} (h : Wired R) (hsem : Q.shared.sem = R.shared.sem)
    (htable : ∀ k, Q.table.sems (R.shared.sem k) = R.table.sems (R.shared.sem k)) :
    Wired Q ∧ ∀ k, Q.value k = R.value k :=
  ⟨⟨fun k => by rw [hsem]; exact h.lt k, fun k => by rw [hsem, htable]; exact h.used k,
    by rw [hsem]; exact h.distinct⟩, fun k => by rw [Run.value, hsem, htable, Run.value]⟩

theorem Wired.act (h : Wired R) (hact : Act R p op R' q) : Wired R' ∧
    (∀ k, R'.value k = R.value k - Int32.ofInt (takes k op)) ∧
    (∀ k, op = .semWait k → R.value k ≠ 0) ∧ R'.letters = R.letters.next op := by
  cases hact with
  | @semWait j T waits =>
      obtain ⟨hvalue, hchange⟩ := waits.changes (h.lt j) (h.used j)
      obtain ⟨hwired, hself, hothers⟩ :=
        h.changes (Q := { R with table := T }) hchange rfl rfl
      refine ⟨hwired, fun k => ?_, fun k hk => ?_, rfl⟩
      · by_cases hk : k = j
        · subst hk
          rw [hself]
          simp [takes, Int32.sub_eq_add_neg]
        · rw [hothers k hk]
          simp [takes, Ne.symm hk]
      · obtain rfl := Op.semWait.inj hk
        exact hvalue
  | @semPost j T posts =>
      have hchange := posts.changes (h.lt j) (h.used j)
      obtain ⟨hwired, hself, hothers⟩ :=
        h.changes (Q := { R with table := T }) hchange rfl rfl
      refine ⟨hwired, fun k => ?_, fun k hk => ?_, rfl⟩
      · by_cases hk : k = j
        · subst hk
          rw [hself]
          simp [takes, Int32.sub_eq_add_neg]
        · rw [hothers k hk]
          simp [takes, Ne.symm hk]
      · exact absurd hk (by simp)
  | @setValue letter =>
      have hsem : ({ R.shared with value := letter } : MvarShared).sem = R.shared.sem := by
        funext k
        cases k <;> rfl
      obtain ⟨hwired, hvalue⟩ := h.same (Q := { R with
          shared := { R.shared with value := letter }
          wrote := R.wrote ++ [letter] }) hsem fun _ => rfl
      exact ⟨hwired, fun k => by simp [takes, hvalue k], fun _ hk => absurd hk (by simp), rfl⟩
  | @setEmpty isEmpty =>
      have hsem : ({ R.shared with isEmpty := isEmpty } : MvarShared).sem = R.shared.sem := by
        funext k
        cases k <;> rfl
      obtain ⟨hwired, hvalue⟩ := h.same (Q := { R with
          shared := { R.shared with isEmpty := isEmpty } }) hsem fun _ => rfl
      exact ⟨hwired, fun k => by simp [takes, hvalue k], fun _ hk => absurd hk (by simp), rfl⟩
  | readValue =>
      obtain ⟨hwired, hvalue⟩ := h.same (Q := { R with read := R.read ++ [R.shared.value] })
        rfl fun _ => rfl
      exact ⟨hwired, fun k => by simp [takes, hvalue k], fun _ hk => absurd hk (by simp), rfl⟩
  | print =>
      obtain ⟨hwired, hvalue⟩ := h.same (Q := { R with printed := R.printed ++ [p.readValue] })
        rfl fun _ => rfl
      exact ⟨hwired, fun k => by simp [takes, hvalue k], fun _ hk => absurd hk (by simp), rfl⟩

theorem Act.history (hact : Act R p op R' q) :
    R'.alive = R.alive ∧ R'.killed = R.killed ∧ R'.rounds = R.rounds := by
  cases hact <;> exact ⟨rfl, rfl, rfl⟩

theorem Role.start_pc (role : Role) : role.start.pc.val = 0 := by
  cases role <;> rfl

/-- **What a step can do.** -/
theorem Wired.step (h : Wired R) (hstep : Step R e R') :
    Wired R' ∧ (Still R R' ∨ ∃ p ∈ R.alive, Turn R p.place.op R') := by
  cases hstep with
  | @created role rest pid pending =>
      refine ⟨⟨h.lt, h.used, h.distinct⟩, .inl ⟨fun w => ?_, fun _ => rfl, rfl⟩⟩
      rw [← History.total_start (H := R.history) role.start_pc]
      simp [Run.history]
  | refused pending =>
      exact ⟨⟨h.lt, h.used, h.distinct⟩, .inl ⟨fun _ => rfl, fun _ => rfl, rfl⟩⟩
  | @blocked p before after k T alive op waits =>
      obtain ⟨hwired, hself, hothers⟩ := h.changes (Q := { R with table := T })
        (waits.changes (h.lt k) (h.used k)) rfl rfl
      refine ⟨⟨hwired.lt, hwired.used, hwired.distinct⟩, .inl ⟨fun w => ?_, fun j => ?_, rfl⟩⟩
      · simp [Run.history, alive]
      · by_cases hj : j = k
        · subst hj
          exact hself.trans (by simp)
        · exact hothers j hj
  | @ran R₁ p q before after alive act =>
      obtain ⟨hwired, hvalue, htaken, hletters⟩ := h.act act
      obtain ⟨_, hkilled, hrounds⟩ := act.history
      refine ⟨⟨hwired.lt, hwired.used, hwired.distinct⟩,
        .inr ⟨p, by simp [alive], ⟨fun w => ?_, hvalue, htaken, hletters⟩⟩⟩
      have hactive : R.history.active =
          before.map (·.place) ++ p.place :: after.map (·.place) := by
        simp [Run.history, alive]
      rw [← History.total_next hactive]
      simp [Run.history, hkilled]
  | @killed p before after alive =>
      refine ⟨⟨h.lt, h.used, h.distinct⟩, .inl ⟨fun w => ?_, fun _ => rfl, rfl⟩⟩
      have hactive : R.history.active =
          before.map (·.place) ++ p.place :: after.map (·.place) := by
        simp [Run.history, alive]
      rw [← History.total_stop hactive]
      simp [Run.history]
  | wrapperKilled =>
      exact ⟨⟨h.lt, h.used, h.distinct⟩, .inl ⟨fun _ => rfl, fun _ => rfl, rfl⟩⟩
  | @others T same =>
      obtain ⟨hwired, hvalue⟩ := h.same (Q := { R with table := T }) rfl same
      exact ⟨hwired, .inl ⟨fun _ => rfl, hvalue, rfl⟩⟩

/-! ## Over whole runs -/

/-- The values are those of the start less what was taken, in the arithmetic of
`int`. -/
structure Accounts (start : Semaphore → Int32) (R : Run) : Prop where
  wired : Wired R
  value : ∀ k, R.value k = Int32.ofInt ((start k).toInt - R.history.total (takes k))

theorem total_empty (w : Op → ℤ) : (⟨[], [], []⟩ : History Role.body).total w = 0 := rfl

theorem Starts.accounts (h : Starts T R) : Accounts R.value R :=
  ⟨h.wired, fun k => by rw [h.history, total_empty, sub_zero, Int32.ofInt_toInt]⟩

theorem Accounts.step {start : Semaphore → Int32} (h : Accounts start R) (hstep : Step R e R') :
    Accounts start R' := by
  obtain ⟨hwired, hstill | ⟨p, _, hturn⟩⟩ := h.wired.step hstep
  · exact ⟨hwired, fun k => by rw [hstill.value, hstill.total, h.value]⟩
  · refine ⟨hwired, fun k => ?_⟩
    rw [hturn.value, hturn.total, h.value, ← Int32.ofInt_sub, sub_sub]

/-- **The ledger**: it holds in every state of every run. -/
theorem Starts.run {ok : Run → Event → Prop} (h : Starts T R₀) (hrun : Reaches Step ok R₀ R) :
    Accounts R₀.value R :=
  hrun.invariant h.accounts fun _ _ _ hR _ hstep => hR.step hstep

/-- A run that begins with the values the wrapper asks for. -/
def Fresh (R : Run) : Prop := ∀ k, R.value k = k.initial

/-- Nobody took a token that was not there, and the letters are counted. -/
structure Covered (R : Run) : Prop where
  accounts : Accounts Semaphore.initial R
  taken : ∀ k, R.history.total (takes k) ≤ (k.initial).toInt
  wrote : (R.wrote.length : ℤ) = R.history.total writes
  read : (R.read.length : ℤ) = R.history.total reads

theorem Starts.covered (h : Starts T R) (hfresh : Fresh R) : Covered R := by
  have hvalue : R.value = Semaphore.initial := funext hfresh
  refine ⟨hvalue ▸ h.accounts, fun k => ?_, ?_, ?_⟩
  · rw [h.history, total_empty]
    cases k <;> decide
  · rw [h.history, total_empty, h.letters.1, List.length_nil, Nat.cast_zero]
  · rw [h.history, total_empty, h.letters.2, List.length_nil, Nat.cast_zero]

theorem Letters.next_wrote (L : Letters) (op : Op) :
    ((L.next op).wrote.length : ℤ) = L.wrote.length + writes op := by
  cases op with
  | setValue letter =>
      have hnext : (L.next (.setValue letter)).wrote = L.wrote ++ [letter] := rfl
      have hone : writes (.setValue letter) = 1 := rfl
      rw [hnext, hone, List.length_append, Nat.cast_add, List.length_singleton,
        Nat.cast_one]
  | _ => exact (add_zero _).symm

theorem Letters.next_read (L : Letters) (op : Op) :
    ((L.next op).read.length : ℤ) = L.read.length + reads op := by
  cases op with
  | readValue =>
      have hnext : (L.next .readValue).read = L.read ++ [L.value] := rfl
      have hone : reads .readValue = 1 := rfl
      rw [hnext, hone, List.length_append, Nat.cast_add, List.length_singleton,
        Nat.cast_one]
  | _ => exact (add_zero _).symm

theorem Covered.step (h : Covered R) (hstep : Step R e R') : Covered R' := by
  have haccounts := h.accounts.step hstep
  obtain ⟨_, hstill | ⟨p, _, hturn⟩⟩ := h.accounts.wired.step hstep
  · have hwrote : R'.wrote = R.wrote := congrArg Letters.wrote hstill.letters
    have hread : R'.read = R.read := congrArg Letters.read hstill.letters
    exact ⟨haccounts, fun k => by rw [hstill.total]; exact h.taken k,
      by rw [hwrote, hstill.total, h.wrote], by rw [hread, hstill.total, h.read]⟩
  · have hwrote : R'.wrote = (R.letters.next p.place.op).wrote :=
      congrArg Letters.wrote hturn.letters
    have hread : R'.read = (R.letters.next p.place.op).read :=
      congrArg Letters.read hturn.letters
    refine ⟨haccounts, fun k => ?_, ?_, ?_⟩
    · rw [hturn.total]
      have htaken := h.taken k
      by_cases hwait : p.place.op = .semWait k
      · -- the token that is taken was there
        have hvalue := hturn.taken k hwait
        rw [h.accounts.value] at hvalue
        have hne : (k.initial).toInt - R.history.total (takes k) ≠ 0 := by
          intro h0
          rw [h0] at hvalue
          exact hvalue (by decide)
        rw [hwait]
        simp only [takes, if_true]
        omega
      · have hweight : takes k p.place.op ≤ 0 := by
          cases hop : p.place.op with
          | semWait j =>
              have hj : j ≠ k := by
                rintro rfl
                exact hwait hop
              simp [takes, hj]
          | semPost j =>
              simp only [takes]
              split <;> decide
          | _ => exact le_refl 0
        omega
    · rw [hwrote, hturn.total, Letters.next_wrote, ← h.wrote]
      rfl
    · rw [hread, hturn.total, Letters.next_read, ← h.read]
      rfl

theorem Starts.run_covered {ok : Run → Event → Prop} (h : Starts T R₀) (hfresh : Fresh R₀)
    (hrun : Reaches Step ok R₀ R) : Covered R :=
  hrun.invariant (h.covered hfresh) fun _ _ _ hR _ hstep => hR.step hstep

/-! ## The bodies -/

/-- What holds at every beginning of the two bodies. -/
theorem forall_beginnings {P : Role → List Op → Prop}
    (hwriter : ∀ letter, ∀ ops ∈ (mvarWriter letter).inits, P (.writer letter) ops)
    (hreader : ∀ ops ∈ mvarReader.inits, P .reader ops) (role : Role) (n : ℕ) :
    P role (role.body.take n) := by
  have hprefix : role.body.take n ∈ role.body.inits :=
    (List.mem_inits _ _).mpr (List.take_prefix n role.body)
  cases role with
  | writer letter => exact hwriter letter _ hprefix
  | reader => exact hreader _ hprefix

/-- A letter that is read was handed over by a token of `full`, or was written. -/
theorem reads_le (role : Role) (n : ℕ) : weigh reads (role.body.take n) ≤
    weigh (fun op => takes .full op + writes op) (role.body.take n) := by
  apply forall_beginnings (P := fun _ ops =>
    weigh reads ops ≤ weigh (fun op => takes .full op + writes op) ops)
  · intro letter
    simp [mvarWriter, weigh, reads, takes, writes]
  · simp [mvarReader, weigh, reads, takes, writes]

/-- **Nothing is read that was not written**, whoever is killed. -/
theorem Covered.read_le (h : Covered R) : R.read.length ≤ R.wrote.length := by
  have hle : R.history.total reads ≤ R.history.total fun op => takes .full op + writes op :=
    History.total_le reads_le
  rw [History.total_add, ← h.read, ← h.wrote] at hle
  have hfull := h.taken .full
  simp only [Semaphore.initial] at hfull
  have hzero : (0 : Int32).toInt = 0 := by decide
  omega

end BareKernel.Mvar
