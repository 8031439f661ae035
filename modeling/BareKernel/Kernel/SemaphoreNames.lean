import BareKernel.Kernel.SemaphoreTable
import BareKernel.Lib.Runs

/-!
# The semaphore names as a finite map

Every sequence of `semCreate`, `semOpen`, `semClose` and `semDestroy`, with
values changing in between. A slot holds a name when its bytes are there and a
zero byte follows. The calls keep that as long as no call writes behind the
end of a field and the byte behind each copied name is zero.
-/

namespace BareKernel.Kernel

open Runs

/-- The table and, as bookkeeping, the name under which the semaphore of each
slot was created. -/
structure Registry where
  table : SemTable
  created : ℕ → Option CString

inductive NameEvent : Type where
  | create (pid : ℤ) (name : CString) (value : Int32) (waiting : WaitQueue)
  | open (pid : ℤ) (name : CString)
  | close (pid : ℤ) (semId : ℕ)
  | destroy (semId : ℕ)
  | value (semId : ℕ) (value : Int32)

namespace Registry

/-- The callers are processes, and the slots exist. -/
def Valid : NameEvent → Prop
  | .create pid _ _ _ => 0 < pid ∧ pid ≤ maxPid
  | .open pid _ => 0 < pid ∧ pid ≤ maxPid
  | .close pid semId => 0 < pid ∧ pid ≤ maxPid ∧ semId < maxSems
  | .destroy semId => semId < maxSems
  | .value semId _ => semId < maxSems

def next (R : Registry) : NameEvent → Registry
  | .create pid name value waiting =>
      match R.table.semCreate pid name value waiting with
      | (none, T) => { R with table := T }
      | (some semId, T) => ⟨T, Function.update R.created semId (some name)⟩
  | .open pid name => { R with table := (R.table.semOpen pid name).2 }
  | .close pid semId => { R with table := (R.table.semClose pid semId).2 }
  | .destroy semId => ⟨R.table.release semId, Function.update R.created semId none⟩
  | .value semId value => { R with table := R.table.setValue semId value }

def Step (R : Registry) (e : NameEvent) (R' : Registry) : Prop := Valid e ∧ R' = R.next e

/-- The table as `initSemManager` finds it in the cleared `bss`. -/
def boot (beyond : UInt8) : Registry :=
  { table :=
      { sems := fun _ => ⟨0, false, .null, fun _ => 0, fun _ => 0⟩
        beyond := beyond }
    created := fun _ => none }

/-! ## When the code keeps the names apart -/

/-- A value that may be stored in a slot: the low byte is the terminator of a
name of full length in the slot before. -/
def ValueFits (R : Registry) (semId : ℕ) (value : Int32) : Prop :=
  ∀ i n, semId = i + 1 → R.created i = some n → n.bytes.length = sMaxNameLength →
    SemTable.lowByte value = 0

/-- The byte behind the copied name is zero, PID 100 is not the caller unless
its flag is the first character of the name, and the value fits. -/
def namesSafe (R : Registry) : NameEvent → Prop
  | .create pid name value _ =>
      name.bytes.length ≤ sMaxNameLength → (∀ i, R.created i ≠ some name) →
        ∀ semId, R.table.findFreeSem = some semId →
          R.table.nameByte semId name.bytes.length = 0 ∧
          (pid = maxPid → name.bytes.head? = some 1) ∧ R.ValueFits semId value
  | .open pid name => pid = maxPid → ∀ i, R.created i = some name → name.bytes.head? = some 1
  | .close pid semId => pid = maxPid → ∀ n, R.created semId = some n → n.bytes = []
  | .destroy _ => True
  | .value semId value => R.ValueFits semId value

end Registry

/-! ## Slots that hold a name -/

namespace SemTable

variable {T T' : SemTable} {i semId : ℕ} {n other : CString}

structure Holds (T : SemTable) (i : ℕ) (n : CString) : Prop where
  length_le : n.bytes.length ≤ sMaxNameLength
  bytes : ∀ j (h : j < n.bytes.length), (T.sems i).name j = n.bytes[j]
  terminated : T.nameByte i n.bytes.length = 0

theorem strcmpFrom_iff : ∀ {bs : List UInt8} {j : ℕ}, T.strcmpFrom i bs j = true ↔
    (∀ k (h : k < bs.length), T.nameByte i (j + k) = bs[k]) ∧ T.nameByte i (j + bs.length) = 0
  | [], j => by simp [strcmpFrom]
  | b :: bs, j => by
      rw [strcmpFrom, Bool.and_eq_true, decide_eq_true_eq, strcmpFrom_iff]
      constructor
      · rintro ⟨hb, hbs, hend⟩
        refine ⟨fun k hk => ?_, by rw [List.length_cons, ← hend]; congr 1; omega⟩
        cases k with
        | zero => exact hb
        | succ k =>
            have := hbs k (by simpa using hk)
            rw [show j + 1 + k = j + (k + 1) by omega] at this
            simpa using this
      · rintro ⟨hall, hend⟩
        refine ⟨hall 0 (by simp), fun k hk => ?_, ?_⟩
        · have := hall (k + 1) (by simpa using hk)
          rw [show j + 1 + k = j + (k + 1) by omega]
          simpa using this
        · rw [← hend, List.length_cons]
          congr 1
          omega

theorem Holds.nameByte (h : T.Holds i n) {j : ℕ} (hj : j < n.bytes.length) :
    T.nameByte i j = n.bytes[j] := by
  have := h.length_le
  rw [SemTable.nameByte, if_pos (by omega)]
  exact h.bytes j hj

/-- **A slot matches the name it holds and no other.** -/
theorem Holds.strcmp_iff (h : T.Holds i n) : T.strcmpFrom i other.bytes 0 = true ↔ other = n := by
  rw [strcmpFrom_iff]
  simp only [Nat.zero_add]
  constructor
  · rintro ⟨hall, hend⟩
    have hlen : other.bytes.length = n.bytes.length := by
      rcases Nat.lt_trichotomy other.bytes.length n.bytes.length with hlt | heq | hlt
      · rw [h.nameByte hlt] at hend
        exact absurd hend (n.nonzero _ (List.getElem_mem hlt))
      · exact heq
      · have hzero := hall _ hlt
        rw [h.terminated] at hzero
        exact absurd hzero.symm (other.nonzero _ (List.getElem_mem hlt))
    have hbytes : other.bytes = n.bytes := by
      apply List.ext_getElem hlen
      intro k hk hk'
      rw [← hall k hk, h.nameByte hk']
    cases other
    cases n
    simpa using hbytes
  · rintro rfl
    exact ⟨fun k hk => h.nameByte hk, h.terminated⟩

/-- The name stays when its bytes and the byte behind them do. -/
theorem Holds.congr (h : T.Holds i n) (hname : ∀ j < n.bytes.length,
    (T'.sems i).name j = (T.sems i).name j)
    (hend : T'.nameByte i n.bytes.length = T.nameByte i n.bytes.length) : T'.Holds i n :=
  ⟨h.length_le, fun j hj => (hname j hj).trans (h.bytes j hj), hend.trans h.terminated⟩

/-- A change of another slot keeps the name, if the value next to it stays or
is a terminator. -/
theorem Holds.setSem (h : T.Holds i n) {s : Sem} (hne : i ≠ semId)
    (hvalue : semId = i + 1 → n.bytes.length = sMaxNameLength →
      lowByte s.value = 0 ∨ s.value = (T.sems semId).value) : (T.setSem semId s).Holds i n := by
  have hsame : (T.setSem semId s).sems i = T.sems i := setSem_sems_of_ne hne
  refine ⟨h.length_le, fun j hj => by rw [hsame]; exact h.bytes j hj, ?_⟩
  have hend := h.terminated
  unfold SemTable.nameByte at hend ⊢
  split
  · rename_i hlt
    rw [if_pos hlt] at hend
    rw [hsame, hend]
  · rename_i hge
    rw [if_neg hge] at hend
    have hlen := h.length_le
    have hfull : n.bytes.length = sMaxNameLength := by omega
    unfold byteBehind at hend ⊢
    split
    · rename_i hi
      rw [if_pos hi] at hend
      by_cases hnext : i + 1 = semId
      · subst hnext
        rw [setSem_sems_self]
        rcases hvalue rfl hfull with h0 | heq
        · exact h0
        · rw [heq]
          exact hend
      · rw [setSem_sems_of_ne hnext]
        exact hend
    · rename_i hi
      rw [if_neg hi] at hend
      exact hend

end SemTable

/-! ## What the calls write -/

section Writes

variable {s : Sem} {pid : ℤ} {b : UInt8}

@[simp] theorem Sem.setOpened_value : (s.setOpened pid b).value = s.value := by
  unfold Sem.setOpened
  split <;> rfl

@[simp] theorem Sem.setOpened_used : (s.setOpened pid b).used = s.used := by
  unfold Sem.setOpened
  split <;> rfl

/-- Marking a process leaves the name, unless the mark lies in the name and
differs from its first character. -/
theorem Sem.setOpened_name (h : pid < openedByLength ∨ s.name 0 = b) :
    (s.setOpened pid b).name = s.name := by
  unfold Sem.setOpened
  split
  · rfl
  · rename_i hge
    rcases h with hlt | heq
    · exact absurd hlt hge
    · exact Function.update_eq_self_iff.mpr heq.symm

variable {name : CString} {value : Int32} {waiting : WaitQueue}

@[simp] theorem Sem.fill_value : (s.fill pid name value waiting).value = value := by
  simp [Sem.fill, Sem.copyName]

@[simp] theorem Sem.fill_used : (s.fill pid name value waiting).used = true := by
  simp [Sem.fill, Sem.copyName]

theorem Sem.fill_name (h : pid < openedByLength ∨ name.bytes.head? = some 1) :
    (s.fill pid name value waiting).name = fun j => name.bytes.getD j (s.name j) := by
  unfold Sem.fill
  rw [Sem.setOpened_name]
  · rfl
  · rcases h with hlt | hhead
    · exact .inl hlt
    · right
      rcases hbytes : name.bytes with _ | ⟨b, bs⟩
      · rw [hbytes] at hhead
        exact absurd hhead (by simp)
      · rw [hbytes] at hhead
        simpa [Sem.copyName, hbytes] using hhead

end Writes

namespace SemTable

variable {T : SemTable} {semId : ℕ} {n name : CString} {pid : ℤ} {value : Int32}
  {waiting : WaitQueue}

/-- A change of the slot itself that leaves its name. -/
theorem Holds.setSem_self (h : T.Holds semId n) {s : Sem} (hname : s.name = (T.sems semId).name) :
    (T.setSem semId s).Holds semId n := by
  refine h.congr (fun j _ => by rw [setSem_sems_self, hname]) ?_
  unfold SemTable.nameByte byteBehind
  rw [setSem_sems_self, setSem_beyond, setSem_sems_of_ne (by omega : semId + 1 ≠ semId), hname]

/-- The name that `semCreate` copied is in the slot, if a zero byte was behind it. -/
theorem holds_fill (hlen : name.bytes.length ≤ sMaxNameLength)
    (hend : T.nameByte semId name.bytes.length = 0)
    (hpid : pid < openedByLength ∨ name.bytes.head? = some 1) :
    (T.setSem semId ((T.sems semId).fill pid name value waiting)).Holds semId name := by
  refine ⟨hlen, fun j hj => ?_, ?_⟩
  · rw [setSem_sems_self, Sem.fill_name hpid]
    simp [hj]
  · rw [← hend]
    unfold SemTable.nameByte byteBehind
    rw [setSem_sems_self, setSem_beyond, setSem_sems_of_ne (by omega : semId + 1 ≠ semId),
      Sem.fill_name hpid]
    simp

theorem findFreeSem_some (h : T.findFreeSem = some semId) :
    semId < maxSems ∧ (T.sems semId).used = false := by
  unfold findFreeSem at h
  exact ⟨List.mem_range.mp (List.mem_of_find?_eq_some h), by simpa using List.find?_some h⟩

theorem findSemByName_some (h : T.findSemByName name = some semId) :
    semId < maxSems ∧ ((T.sems semId).used && T.strcmpFrom semId name.bytes 0) = true := by
  unfold findSemByName at h
  have hmatch := List.find?_some h
  exact ⟨List.mem_range.mp (List.mem_of_find?_eq_some h), hmatch⟩

theorem findSemByName_none (h : T.findSemByName name = none) (hlt : semId < maxSems) :
    ¬((T.sems semId).used && T.strcmpFrom semId name.bytes 0) = true := by
  unfold findSemByName at h
  exact List.find?_eq_none.mp h semId (List.mem_range.mpr hlt)

theorem semOpen_none (h : T.findSemByName name = none) : T.semOpen pid name = (none, T) := by
  unfold semOpen
  rw [h]

theorem semOpen_some (h : T.findSemByName name = some semId)
    (hused : (T.sems semId).used = true) : T.semOpen pid name =
      (some semId, T.setSem semId ((T.sems semId).setOpened pid 1)) := by
  unfold semOpen
  rw [h]
  exact if_pos hused

/-- What `semCreate` can do. -/
theorem semCreate_cases (T : SemTable) (pid : ℤ) (name : CString) (value : Int32)
    (waiting : WaitQueue) : T.semCreate pid name value waiting = (none, T) ∨
    ∃ semId, name.bytes.length ≤ sMaxNameLength ∧ T.findSemByName name = none ∧
      T.findFreeSem = some semId ∧ T.semCreate pid name value waiting =
        (some semId, T.setSem semId ((T.sems semId).fill pid name value waiting)) := by
  unfold semCreate
  split
  · exact .inl rfl
  · rename_i hno
    rw [not_or, Nat.not_lt, Option.not_isSome_iff_eq_none] at hno
    split
    · exact .inl rfl
    · rename_i semId hfree
      exact .inr ⟨semId, hno.1, hno.2, hfree, rfl⟩

end SemTable

/-! ## The invariant -/

namespace Registry

variable {R R' : Registry} {e : NameEvent} {semId : ℕ}

/-- The slots in use are those of the names created, each with its own. -/
structure NameInv (R : Registry) : Prop where
  holds : ∀ i n, R.created i = some n →
    i < maxSems ∧ (R.table.sems i).used = true ∧ R.table.Holds i n
  named : ∀ i < maxSems, (R.table.sems i).used = true → ∃ n, R.created i = some n
  injective : ∀ i j n, R.created i = some n → R.created j = some n → i = j

/-- **A lookup answers with the slot created under the name.** -/
theorem NameInv.findSemByName_iff (h : R.NameInv) {name : CString} :
    R.table.findSemByName name = some semId ↔ R.created semId = some name := by
  have hiff : ∀ i < maxSems, ((R.table.sems i).used && R.table.strcmpFrom i name.bytes 0) = true ↔
      R.created i = some name := by
    intro i hi
    rw [Bool.and_eq_true]
    constructor
    · rintro ⟨hused, hcmp⟩
      obtain ⟨n, hn⟩ := h.named i hi hused
      rw [hn, (h.holds i n hn).2.2.strcmp_iff.mp hcmp]
    · intro hn
      obtain ⟨_, hused, hholds⟩ := h.holds i name hn
      exact ⟨hused, hholds.strcmp_iff.mpr rfl⟩
  constructor
  · intro hfind
    obtain ⟨hlt, hmatch⟩ := SemTable.findSemByName_some hfind
    exact (hiff semId hlt).mp hmatch
  · intro hn
    have hlt := (h.holds semId name hn).1
    rcases hfind : R.table.findSemByName name with _ | j
    · exact absurd ((hiff semId hlt).mpr hn) (SemTable.findSemByName_none hfind hlt)
    · obtain ⟨hj, hmatch⟩ := SemTable.findSemByName_some hfind
      rw [h.injective j semId name ((hiff j hj).mp hmatch) hn]

theorem NameInv.not_created (h : R.NameInv) {name : CString}
    (hfind : R.table.findSemByName name = none) (i : ℕ) : R.created i ≠ some name := by
  intro hn
  rw [h.findSemByName_iff.mpr hn] at hfind
  exact absurd hfind (by simp)

/-- A change of one slot that leaves its name and those of the others. -/
theorem NameInv.setSem (h : R.NameInv) {s : Sem} (hused : s.used = (R.table.sems semId).used)
    (hname : ∀ n, R.created semId = some n → s.name = (R.table.sems semId).name)
    (hvalue : s.value = (R.table.sems semId).value ∨ R.ValueFits semId s.value) :
    NameInv { R with table := R.table.setSem semId s } := by
  have husedAll : ∀ i, ((R.table.setSem semId s).sems i).used = (R.table.sems i).used := by
    intro i
    by_cases hi : i = semId
    · subst hi
      rw [SemTable.setSem_sems_self, hused]
    · rw [SemTable.setSem_sems_of_ne hi]
  refine ⟨fun i n hn => ?_, fun i hi hu => h.named i hi (by rw [← husedAll]; exact hu),
    h.injective⟩
  obtain ⟨hlt, hu, hholds⟩ := h.holds i n hn
  refine ⟨hlt, by rw [← hu]; exact husedAll i, ?_⟩
  by_cases hi : i = semId
  · subst hi
    exact hholds.setSem_self (hname n hn)
  · refine hholds.setSem hi fun hnext hfull => ?_
    rcases hvalue with heq | hfits
    · exact .inr heq
    · exact .inl (hfits i n hnext hn hfull)

/-! ## Every call keeps it -/

/-- A process marks a slot whose first character it does not change. -/
theorem NameInv.setOpened (h : R.NameInv) {pid : ℤ} {b : UInt8}
    (hmark : ∀ n, R.created semId = some n →
      pid < openedByLength ∨ (R.table.sems semId).name 0 = b) :
    NameInv { R with table := R.table.setSem semId ((R.table.sems semId).setOpened pid b) } :=
  h.setSem Sem.setOpened_used (fun n hn => Sem.setOpened_name (hmark n hn))
    (.inl Sem.setOpened_value)

theorem NameInv.create (h : R.NameInv) {pid : ℤ} {name : CString} {value : Int32}
    {waiting : WaitQueue} (hpid : pid ≤ maxPid)
    (hsafe : R.namesSafe (.create pid name value waiting)) :
    (R.next (.create pid name value waiting)).NameInv := by
  rcases R.table.semCreate_cases pid name value waiting with heq | ⟨semId, hlen, hfind, hfree, heq⟩
  · simp only [next, heq]
    exact h
  · obtain ⟨hend, hlast, hfits⟩ := hsafe hlen (h.not_created hfind) semId hfree
    obtain ⟨hlt, hunused⟩ := SemTable.findFreeSem_some hfree
    have hmark : pid < openedByLength ∨ name.bytes.head? = some 1 := by
      by_cases hmax : pid = maxPid
      · exact .inr (hlast hmax)
      · refine .inl ?_
        simp only [maxPid, openedByLength] at *
        omega
    simp only [next, heq]
    have hother : ∀ {i}, i ≠ semId → Function.update R.created semId (some name) i = R.created i :=
      fun hi => Function.update_of_ne hi _ _
    refine ⟨fun i n hn => ?_, fun i hi hu => ?_, fun i j n hi hj => ?_⟩ <;> dsimp only at *
    · by_cases hi : i = semId
      · subst hi
        rw [Function.update_self, Option.some.injEq] at hn
        subst hn
        exact ⟨hlt, by rw [SemTable.setSem_sems_self, Sem.fill_used],
          SemTable.holds_fill hlen hend hmark⟩
      · rw [hother hi] at hn
        obtain ⟨hi', hu, hholds⟩ := h.holds i n hn
        refine ⟨hi', by rw [SemTable.setSem_sems_of_ne hi]; exact hu, hholds.setSem hi ?_⟩
        intro hnext hfull
        rw [Sem.fill_value]
        exact .inl (hfits i n hnext hn hfull)
    · by_cases hi' : i = semId
      · exact ⟨name, by rw [hi', Function.update_self]⟩
      · rw [SemTable.setSem_sems_of_ne hi'] at hu
        rw [hother hi']
        exact h.named i hi hu
    · by_cases hi' : i = semId <;> by_cases hj' : j = semId
      · rw [hi', hj']
      · rw [hi', Function.update_self] at hi
        rw [hother hj', ← hi] at hj
        exact absurd hj (h.not_created hfind j)
      · rw [hj', Function.update_self] at hj
        rw [hother hi', ← hj] at hi
        exact absurd hi (h.not_created hfind i)
      · rw [hother hi'] at hi
        rw [hother hj'] at hj
        exact h.injective i j n hi hj

theorem NameInv.open (h : R.NameInv) {pid : ℤ} {name : CString} (hpid : pid ≤ maxPid)
    (hsafe : R.namesSafe (.open pid name)) : (R.next (.open pid name)).NameInv := by
  rcases hfind : R.table.findSemByName name with _ | semId
  · simp only [next, SemTable.semOpen_none hfind]
    exact h
  · have hcreated := h.findSemByName_iff.mp hfind
    obtain ⟨_, hused, hholds⟩ := h.holds semId name hcreated
    simp only [next, SemTable.semOpen_some hfind hused]
    refine h.setOpened fun _ _ => ?_
    by_cases hmax : pid = maxPid
    · have hhead := hsafe hmax semId hcreated
      right
      have hpos : 0 < name.bytes.length := by
        rcases hbytes : name.bytes with _ | ⟨b, bs⟩
        · rw [hbytes] at hhead
          exact absurd hhead (by simp)
        · simp
      rw [hholds.bytes 0 hpos]
      rw [List.head?_eq_getElem?, List.getElem?_eq_getElem hpos] at hhead
      simpa using hhead
    · refine .inl ?_
      simp only [maxPid, openedByLength] at *
      omega

theorem NameInv.close (h : R.NameInv) {pid : ℤ} (hpid : pid ≤ maxPid)
    (hsafe : R.namesSafe (.close pid semId)) : (R.next (.close pid semId)).NameInv := by
  simp only [next, SemTable.semClose]
  split
  · exact h
  · rename_i hopen
    refine h.setOpened fun n hn => ?_
    by_cases hmax : pid = maxPid
    · -- the mark of PID 100 is the first byte of the name, here its terminator
      have hempty := hsafe hmax n hn
      have hend := (h.holds semId n hn).2.2.terminated
      rw [hempty] at hend
      exact .inr hend
    · refine .inl ?_
      simp only [maxPid, openedByLength] at *
      omega

theorem NameInv.destroy (h : R.NameInv) : (R.next (.destroy semId)).NameInv := by
  simp only [next, SemTable.release]
  have hother : ∀ {i n}, Function.update R.created semId none i = some n →
      i ≠ semId ∧ R.created i = some n := by
    intro i n hn
    have hi : i ≠ semId := by
      rintro rfl
      rw [Function.update_self] at hn
      exact absurd hn (by simp)
    exact ⟨hi, by rw [← hn, Function.update_of_ne hi]⟩
  refine ⟨fun i n hn => ?_, fun i hi hu => ?_, fun i j n hi hj => ?_⟩ <;> dsimp only at *
  · obtain ⟨hi, hn⟩ := hother hn
    obtain ⟨hlt, hu, hholds⟩ := h.holds i n hn
    refine ⟨hlt, ?_, hholds.setSem hi fun _ _ => .inr rfl⟩
    rw [SemTable.setSem_sems_of_ne hi]
    exact hu
  · have hi' : i ≠ semId := by
      rintro rfl
      rw [SemTable.setSem_sems_self] at hu
      exact absurd hu (by simp)
    rw [SemTable.setSem_sems_of_ne hi'] at hu
    rw [Function.update_of_ne hi']
    exact h.named i hi hu
  · exact h.injective i j n (hother hi).2 (hother hj).2

theorem NameInv.value (h : R.NameInv) {value : Int32}
    (hsafe : R.namesSafe (.value semId value)) : (R.next (.value semId value)).NameInv :=
  h.setSem rfl (fun _ _ => rfl) (.inr hsafe)

theorem NameInv.step (h : R.NameInv) (hsafe : R.namesSafe e) (hstep : Step R e R') :
    R'.NameInv := by
  obtain ⟨hvalid, rfl⟩ := hstep
  cases e with
  | create pid name value waiting => exact h.create hvalid.2 hsafe
  | «open» pid name => exact h.open hvalid.2 hsafe
  | close pid semId => exact h.close hvalid.2.1 hsafe
  | destroy semId => exact h.destroy
  | value semId value => exact h.value hsafe

theorem nameInv_boot (beyond : UInt8) : (boot beyond).NameInv :=
  ⟨fun _ _ hn => absurd hn (by simp [boot]), fun _ _ hu => absurd hu (by simp [boot]),
    fun _ _ _ hi => absurd hi (by simp [boot])⟩

/-! ## The names are a finite map -/

/-- Every created name leads to its semaphore, no other name does, and every
process that opens it by name gets that semaphore. -/
def FiniteMap (R : Registry) : Prop :=
  ∀ semId name, R.created semId = some name →
    R.table.findSemByName name = some semId ∧
    (∀ other : CString, other ≠ name → R.table.findSemByName other ≠ some semId) ∧
    ∀ pid value waiting, 0 < pid → pid ≤ maxPid →
      (R.table.sysSemOpen pid name value waiting).1 = some semId

theorem NameInv.finiteMap (h : R.NameInv) : R.FiniteMap := by
  intro semId name hn
  have hfind := h.findSemByName_iff.mpr hn
  refine ⟨hfind, fun other hne hother => hne ?_, fun pid value waiting _ _ => ?_⟩
  · have hcreated := h.findSemByName_iff.mp hother
    rw [hn, Option.some.injEq] at hcreated
    exact hcreated.symm
  · rw [SemTable.sysSemOpen, if_neg (by rw [hfind]; exact Bool.false_ne_true),
      SemTable.semOpen_some hfind (h.holds semId name hn).2.1]

/-- **Names**: in every run whose calls are safe the registry is a finite map. -/
theorem names_finiteMap (beyond : UInt8) (R : Registry)
    (hrun : Reaches Step namesSafe (boot beyond) R) : R.FiniteMap :=
  (hrun.invariant (nameInv_boot beyond) fun _ _ _ h hsafe hstep => h.step hsafe hstep).finiteMap

/-! ## Two short runs -/

/-- The name of one letter. -/
def letter (b : UInt8) (h : b ≠ 0) : CString := ⟨[b], by simpa using h⟩

def createX : NameEvent := .create 1 (letter 120 (by decide)) 1 (.queue [])

theorem createX_safe : (boot 0).namesSafe createX := by
  intro _ _ semId _
  refine ⟨by simp [letter, SemTable.nameByte, boot, sMaxNameLength], ?_, ?_⟩
  · intro h
    exact absurd h (by decide)
  · intro i n _ hn
    exact absurd hn (by simp [boot])

def createAB : NameEvent := .create 1 ⟨[97, 98], by simp⟩ 1 (.queue [])

def createY : NameEvent := .create 2 (letter 121 (by decide)) 1 (.queue [])

/-- "x" and "ab" are created, "x" is destroyed, and its slot is taken for "y". -/
def renamed : Registry :=
  ((((boot 0).next createX).next createAB).next (.destroy 0)).next createY

theorem createAB_safe : ((boot 0).next createX).namesSafe createAB := by
  intro _ _ semId hfree
  have hone : ((boot 0).next createX).table.findFreeSem = some 1 := by decide +kernel
  obtain rfl : 1 = semId := Option.some.inj (hone.symm.trans hfree)
  refine ⟨by decide +kernel, fun h => absurd h (by decide), fun i n hi hn hlong => ?_⟩
  obtain rfl : i = 0 := by omega
  have hx : ((boot 0).next createX).created 0 = some (letter 120 (by decide)) := by decide +kernel
  obtain rfl : letter 120 (by decide) = n := Option.some.inj (hx.symm.trans hn)
  exact absurd hlong (by decide)

theorem createY_safe :
    ((((boot 0).next createX).next createAB).next (.destroy 0)).namesSafe createY := by
  intro _ _ semId hfree
  have hzero : ((((boot 0).next createX).next createAB).next (.destroy 0)).table.findFreeSem =
    some 0 := by decide +kernel
  obtain rfl : 0 = semId := Option.some.inj (hzero.symm.trans hfree)
  exact ⟨by decide +kernel, fun h => absurd h (by decide), fun i n hi => absurd hi (by omega)⟩

/-- Two semaphores, one of them in a slot that was used before, are found under their
names. -/
theorem names_finiteMap_renamed : renamed.created 0 = some (letter 121 (by decide)) ∧
    renamed.created 1 = some ⟨[97, 98], by simp⟩ ∧ renamed.FiniteMap := by
  refine ⟨by decide +kernel, by decide +kernel, names_finiteMap 0 _ ?_⟩
  have hfirst : Step (boot 0) createX ((boot 0).next createX) := ⟨⟨by decide, by decide⟩, rfl⟩
  have hsecond : Step ((boot 0).next createX) createAB (((boot 0).next createX).next createAB) :=
    ⟨⟨by decide, by decide⟩, rfl⟩
  have hdestroy : (((boot 0).next createX).next createAB).namesSafe (.destroy 0) := trivial
  have hthird : Step (((boot 0).next createX).next createAB) (.destroy 0)
      ((((boot 0).next createX).next createAB).next (.destroy 0)) :=
    ⟨show 0 < maxSems by decide, rfl⟩
  have hlast : Step ((((boot 0).next createX).next createAB).next (.destroy 0)) createY renamed :=
    ⟨⟨by decide, by decide⟩, rfl⟩
  exact ((((Reaches.refl _).tail createX_safe hfirst).tail createAB_safe hsecond).tail hdestroy
    hthird).tail createY_safe hlast

/-- The slot of "ab" is released and taken for "x". -/
def reuseSlot : Registry := (((boot 0).next createAB).next (.destroy 0)).next createX

theorem reuseSlot_reached : Reaches Step always (boot 0) reuseSlot := by
  have hfirst : Step (boot 0) createAB ((boot 0).next createAB) := ⟨⟨by decide, by decide⟩, rfl⟩
  have hsecond : Step ((boot 0).next createAB) (.destroy 0)
      (((boot 0).next createAB).next (.destroy 0)) := ⟨show 0 < maxSems by decide, rfl⟩
  exact (((Reaches.refl _).tail trivial hfirst).tail trivial hsecond).tail trivial
    (e := createX) ⟨⟨by decide, by decide⟩, rfl⟩

/-- **A slot that held a longer name loses the new one**: "x" is copied over "ab"
without a terminator, and the slot now reads "xb". -/
theorem names_lost_on_reuse :
    ¬∀ beyond R, Reaches Step always (boot beyond) R → R.FiniteMap := by
  intro hall
  have hcreated : reuseSlot.created 0 = some (letter 120 (by decide)) := by decide +kernel
  have hfind := (hall 0 reuseSlot reuseSlot_reached 0 _ hcreated).1
  have hmatch := (SemTable.findSemByName_some hfind).2
  exact absurd hmatch (by decide +kernel)

end Registry

end BareKernel.Kernel
