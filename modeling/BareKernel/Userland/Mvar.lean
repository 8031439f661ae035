import BareKernel.Kernel.Semaphores
import BareKernel.Kernel.SemaphoreNames
import BareKernel.Userland.ProcessLists
import BareKernel.Lib.Rounds
import Mathlib.Data.List.Find

/-!
# mvar

`mvar_writer`, `mvar_reader` and `mvar_wrapper` of `Userland/Shell/commands.c`.
A process is its place in the body of its loop, and the places interleave in any
order; the kernel's part of a step is `semWait` or `semPost` in any kernel with
the same semaphores. In between processes are killed, and other programs use
semaphores of their own. The colours of the readers and what the wrapper prints
are left out.
-/

namespace BareKernel.Mvar

open Kernel Shell Runs Rounds

/-! ## The code -/

inductive Semaphore : Type where
  | mutex
  | empty
  | full
deriving DecidableEq, Repr

namespace Semaphore

/-- `"mvar_mutex"`, `"mvar_empty"` and `"mvar_full"`. -/
def name : Semaphore → CString
  | mutex => ⟨[109, 118, 97, 114, 95, 109, 117, 116, 101, 120], by simp⟩
  | empty => ⟨[109, 118, 97, 114, 95, 101, 109, 112, 116, 121], by simp⟩
  | full => ⟨[109, 118, 97, 114, 95, 102, 117, 108, 108], by simp⟩

/-- The value the wrapper asks for. -/
def initial : Semaphore → Int32
  | mutex => 1
  | empty => 1
  | full => 0

end Semaphore

/-- `MvarShared`; the two counts are never read. -/
structure MvarShared where
  value : UInt8
  isEmpty : Int32
  semMutex : ℕ
  semEmpty : ℕ
  semFull : ℕ

def MvarShared.sem (M : MvarShared) : Semaphore → ℕ
  | .mutex => M.semMutex
  | .empty => M.semEmpty
  | .full => M.semFull

/-- The statements of the two loops. -/
inductive Op : Type where
  | semWait (k : Semaphore)
  | semPost (k : Semaphore)
  | setValue (letter : UInt8)
  | setEmpty (isEmpty : Int32)
  | readValue
  | print
deriving DecidableEq

def mvarWriter (letter : UInt8) : List Op :=
  [.semWait .empty, .semWait .mutex, .setValue letter, .setEmpty 0, .semPost .mutex, .semPost .full]

def mvarReader : List Op :=
  [.semWait .full, .semWait .mutex, .readValue, .setEmpty 1, .print, .semPost .mutex,
    .semPost .empty]

inductive Role : Type where
  | writer (letter : UInt8)
  | reader
deriving DecidableEq

def Role.body : Role → List Op
  | writer letter => mvarWriter letter
  | reader => mvarReader

/-- `waiting` says that the process was blocked in the `semWait` it stands at, and
`readValue` is its local variable. -/
structure MvarProcess where
  pid : ℤ
  place : Place Role.body
  waiting : Bool
  readValue : UInt8

/-- The place of a new process. -/
def Role.start : Role → Place Role.body
  | writer letter => ⟨writer letter, ⟨0, by simp [Role.body, mvarWriter]⟩⟩
  | reader => ⟨reader, ⟨0, by simp [Role.body, mvarReader]⟩⟩

/-- What the wrapper and its processes work on. `pending` are the processes that
the wrapper has still to create. The code keeps no record of who was `killed`, of
the `rounds` that came to their end and of the letters that were written, read
and printed. -/
structure Run where
  table : SemTable
  shared : MvarShared
  pending : List Role
  alive : List MvarProcess
  killed : List MvarProcess
  rounds : List Role
  wrote : List UInt8
  read : List UInt8
  printed : List UInt8

/-- The writers with the letters from `'A'` on, then the readers. -/
def launch (writers readers : Int32) : List Role :=
  (List.range writers.toInt.toNat).map (fun i => .writer (65 + i.toUInt8)) ++
    List.replicate readers.toInt.toNat .reader

/-- `semOpen` of libsys; `waiting` is what `newQueue` returns. -/
def semOpen (T : SemTable) (pid : ℤ) (k : Semaphore) (waiting : WaitQueue) :
    Option ℕ × SemTable :=
  T.sysSemOpen pid k.name k.initial waiting

/-- `pid` is the caller, `allocated` the success of `malloc`. A call that fails
may have created some of the semaphores. -/
def mvarWrapper (T : SemTable) (pid : ℤ) (argv : List CStr) (allocated : Bool)
    (waiting : Semaphore → WaitQueue) : Except SemTable Run :=
  match argv with
  | _ :: arg₁ :: arg₂ :: _ =>
      let writers := (satoi arg₁).toInt32
      let readers := (satoi arg₂).toInt32
      if writers ≤ 0 ∨ readers ≤ 0 ∨ writers > 26 then .error T
      else if !allocated then .error T
      else
        let (semMutex, T) := semOpen T pid .mutex (waiting .mutex)
        let (semEmpty, T) := semOpen T pid .empty (waiting .empty)
        let (semFull, T) := semOpen T pid .full (waiting .full)
        match semMutex, semEmpty, semFull with
        | some semMutex, some semEmpty, some semFull =>
            .ok
              { table := T
                shared := ⟨0, 1, semMutex, semEmpty, semFull⟩
                pending := launch writers readers
                alive := []
                killed := []
                rounds := []
                wrote := []
                read := []
                printed := [] }
        | _, _, _ => .error T
  | _ => .error T

/-! ## The steps -/

/-- The call of `semWait`, or the next round of its loop once the process was
blocked; `taken` says whether it is through. -/
def Waits (p : MvarProcess) (semId : ℕ) (T : SemTable) (taken : Bool) (T' : SemTable) : Prop :=
  ∃ M M' : Machine, M.sems = T ∧ M'.sems = T' ∧
    (if p.waiting then M.semWaitLoop p.pid semId .done else M.semWait p.pid semId .done) =
      some (taken, M')

def Posts (semId : ℕ) (T T' : SemTable) : Prop :=
  ∃ (M M' : Machine) (result : Int32), M.sems = T ∧ M'.sems = T' ∧
    M.semPost semId = some (result, M')

/-- One statement, except that the place is not moved. -/
inductive Act (R : Run) (p : MvarProcess) : Op → Run → MvarProcess → Prop
  | semWait {k : Semaphore} {T : SemTable} (waits : Waits p (R.shared.sem k) R.table true T) :
      Act R p (.semWait k) { R with table := T } { p with waiting := false }
  | semPost {k : Semaphore} {T : SemTable} (posts : Posts (R.shared.sem k) R.table T) :
      Act R p (.semPost k) { R with table := T } p
  | setValue {letter : UInt8} :
      Act R p (.setValue letter)
        { R with
          shared := { R.shared with value := letter }
          wrote := R.wrote ++ [letter] } p
  | setEmpty {isEmpty : Int32} :
      Act R p (.setEmpty isEmpty) { R with shared := { R.shared with isEmpty := isEmpty } } p
  | readValue :
      Act R p .readValue { R with read := R.read ++ [R.shared.value] }
        { p with readValue := R.shared.value }
  | print : Act R p .print { R with printed := R.printed ++ [p.readValue] } p

inductive Event : Type where
  | create
  | turn (pid : ℤ)
  | kill (pid : ℤ)
  | killWrapper
  | others

inductive Step : Run → Event → Run → Prop
  | created {R : Run} {role : Role} {rest : List Role} (pid : ℤ)
      (pending : R.pending = role :: rest) :
      Step R .create
        { R with
          pending := rest
          alive := R.alive ++ [⟨pid, role.start, false, 0⟩] }
  /-- `createProcess` fails, and the wrapper goes on with the next one. -/
  | refused {R : Run} {role : Role} {rest : List Role} (pending : R.pending = role :: rest) :
      Step R .create { R with pending := rest }
  | blocked {R : Run} {p : MvarProcess} {before after : List MvarProcess} {k : Semaphore}
      {T : SemTable} (alive : R.alive = before ++ p :: after) (op : p.place.op = .semWait k)
      (waits : Waits p (R.shared.sem k) R.table false T) :
      Step R (.turn p.pid)
        { R with
          table := T
          alive := before ++ { p with waiting := true } :: after }
  | ran {R R' : Run} {p q : MvarProcess} {before after : List MvarProcess}
      (alive : R.alive = before ++ p :: after) (act : Act R p p.place.op R' q) :
      Step R (.turn p.pid)
        { R' with
          alive := before ++ { q with place := p.place.next } :: after
          rounds := p.place.ends ++ R.rounds }
  | killed {R : Run} {p : MvarProcess} {before after : List MvarProcess}
      (alive : R.alive = before ++ p :: after) :
      Step R (.kill p.pid)
        { R with
          alive := before ++ after
          killed := p :: R.killed }
  | wrapperKilled {R : Run} : Step R .killWrapper { R with pending := [] }
  /-- Other programs leave the three slots alone. -/
  | others {R : Run} {T : SemTable}
      (same : ∀ k, T.sems (R.shared.sem k) = R.table.sems (R.shared.sem k)) :
      Step R .others { R with table := T }

namespace Run

def value (R : Run) (k : Semaphore) : Int32 := (R.table.sems (R.shared.sem k)).value

def history (R : Run) : History Role.body :=
  ⟨R.alive.map (·.place), R.killed.map (·.place), R.rounds⟩

/-- Everybody was killed, and the wrapper creates no more processes. -/
def Dead (R : Run) : Prop := R.alive = [] ∧ R.pending = []

end Run

/-! ## Opening the three semaphores -/

namespace Semaphore

/-- The sixth letter of the name, in which the three differ. -/
def mark : Semaphore → UInt8
  | mutex => 109
  | empty => 101
  | full => 102

theorem mark_injective : Function.Injective mark := by
  intro j k h
  cases j <;> cases k <;> first | rfl | exact absurd h (by decide)

theorem name_length (k : Semaphore) : 5 < k.name.bytes.length ∧ k.name.bytes.length < 28 := by
  cases k <;> decide

theorem name_getElem (k : Semaphore) (h : 5 < k.name.bytes.length) :
    k.name.bytes[5] = k.mark := by
  cases k <;> rfl

end Semaphore

section Opening

variable {T T' : SemTable} {pid : ℤ} {i j semId : ℕ} {k l : Semaphore} {waiting : WaitQueue}

/-- The slot is in use under a name with the letter of the semaphore. -/
structure Marked (T : SemTable) (semId : ℕ) (k : Semaphore) : Prop where
  lt : semId < maxSems
  used : (T.sems semId).used = true
  letter : (T.sems semId).name 5 = k.mark

theorem Marked.congr (h : Marked T semId k) (hsame : T'.sems semId = T.sems semId) :
    Marked T' semId k :=
  ⟨h.lt, hsame ▸ h.used, hsame ▸ h.letter⟩

/-- One slot has the letter of one of the three. -/
theorem Marked.unique (hk : Marked T semId k) (hl : Marked T semId l) : k = l :=
  Semaphore.mark_injective (hk.letter.symm.trans hl.letter)

theorem marked_of_find (h : T.findSemByName k.name = some semId) : Marked T semId k := by
  obtain ⟨hlt, hmatch⟩ := SemTable.findSemByName_some h
  rw [Bool.and_eq_true] at hmatch
  obtain ⟨hused, hcmp⟩ := hmatch
  have hletter := (SemTable.strcmpFrom_iff.mp hcmp).1 5 k.name_length.1
  rw [k.name_getElem, Nat.zero_add, SemTable.nameByte, if_pos (by decide)] at hletter
  exact ⟨hlt, hused, hletter⟩

/-- A slot is compared with one of the names by its own bytes. -/
theorem strcmp_congr (hsame : T'.sems i = T.sems i) :
    T'.strcmpFrom i k.name.bytes 0 = T.strcmpFrom i k.name.bytes 0 := by
  have hbyte : ∀ b ≤ k.name.bytes.length, T'.nameByte i b = T.nameByte i b := by
    intro b hb
    have hshort : b < sMaxNameLength := lt_of_le_of_lt hb k.name_length.2
    rw [SemTable.nameByte, SemTable.nameByte, if_pos hshort, if_pos hshort, hsame]
  rw [Bool.eq_iff_iff, SemTable.strcmpFrom_iff, SemTable.strcmpFrom_iff]
  simp only [Nat.zero_add]
  rw [hbyte _ le_rfl]
  constructor
  · rintro ⟨hall, hend⟩
    exact ⟨fun b hb => (hbyte b hb.le).symm.trans (hall b hb), hend⟩
  · rintro ⟨hall, hend⟩
    exact ⟨fun b hb => (hbyte b hb.le).trans (hall b hb), hend⟩

theorem setOpened_letter (s : Sem) (pid : ℤ) (b : UInt8) :
    (s.setOpened pid b).name 5 = s.name 5 := by
  unfold Sem.setOpened
  split
  · rfl
  · exact Function.update_of_ne (by decide : (5 : ℕ) ≠ 0) b s.name

theorem fill_letter (s : Sem) (pid : ℤ) (value : Int32) (waiting : WaitQueue) (k : Semaphore) :
    (s.fill pid k.name value waiting).name 5 = k.mark := by
  rw [Sem.fill, setOpened_letter]
  simp only [Sem.copyName]
  rw [List.getD_eq_getElem _ _ k.name_length.1, k.name_getElem]

/-- What `semOpen` returns, and what it leaves alone. -/
structure Opens (T : SemTable) (k : Semaphore) (semId : ℕ) (T' : SemTable) : Prop where
  marked : Marked T' semId k
  others : ∀ j, j ≠ semId → T'.sems j = T.sems j
  found : ∀ j, T.findSemByName k.name = some j →
    j = semId ∧ (T'.sems semId).value = (T.sems j).value
  created : T.findSemByName k.name = none →
    (T.sems semId).used = false ∧ (T'.sems semId).value = k.initial

theorem semOpen_opens (h : semOpen T pid k waiting = (some semId, T')) : Opens T k semId T' := by
  unfold semOpen SemTable.sysSemOpen at h
  split at h
  · rename_i hnone
    rw [Option.isNone_iff_eq_none] at hnone
    rcases T.semCreate_cases pid k.name k.initial waiting with
      heq | ⟨free, _, _, hfree, heq⟩ <;> rw [heq] at h
    · simp at h
    · simp only [Prod.mk.injEq, Option.some.injEq] at h
      obtain ⟨rfl, rfl⟩ := h
      obtain ⟨hlt, hunused⟩ := SemTable.findFreeSem_some hfree
      have hself : (T.setSem free ((T.sems free).fill pid k.name k.initial waiting)).sems free =
        (T.sems free).fill pid k.name k.initial waiting := SemTable.setSem_sems_self
      refine ⟨⟨hlt, by rw [hself, Sem.fill_used], by rw [hself, fill_letter]⟩,
        fun j hj => SemTable.setSem_sems_of_ne hj, fun j hj => ?_,
        fun _ => ⟨hunused, by rw [hself, Sem.fill_value]⟩⟩
      rw [hnone] at hj
      exact absurd hj (by simp)
  · rename_i hsome
    obtain ⟨found, hfind⟩ := Option.ne_none_iff_exists'.mp fun hn =>
      hsome (Option.isNone_iff_eq_none.mpr hn)
    have hmarked := marked_of_find hfind
    rw [SemTable.semOpen_some hfind hmarked.used] at h
    simp only [Prod.mk.injEq, Option.some.injEq] at h
    obtain ⟨rfl, rfl⟩ := h
    have hself : (T.setSem found ((T.sems found).setOpened pid 1)).sems found =
      (T.sems found).setOpened pid 1 := SemTable.setSem_sems_self
    refine ⟨⟨hmarked.lt, by rw [hself, Sem.setOpened_used]; exact hmarked.used,
      by rw [hself, setOpened_letter]; exact hmarked.letter⟩,
      fun j hj => SemTable.setSem_sems_of_ne hj, fun j hj => ?_, fun hnone => ?_⟩
    · rw [hfind, Option.some.injEq] at hj
      exact ⟨hj.symm, by rw [hself, Sem.setOpened_value, hj]⟩
    · rw [hfind] at hnone
      exact absurd hnone (by simp)

/-- Opening one of the three takes another slot than those of the others. -/
theorem Opens.ne (h : Opens T k semId T') (hmarked : Marked T i l) (hne : l ≠ k) : i ≠ semId := by
  rintro rfl
  cases hfind : T.findSemByName k.name with
  | none => exact absurd (h.created hfind).1 (by rw [hmarked.used]; decide)
  | some j =>
      obtain ⟨rfl, _⟩ := h.found j hfind
      exact hne (hmarked.unique (marked_of_find hfind))

/-- Opening one of the three leaves the slots of the others. -/
theorem Opens.keeps (h : Opens T k semId T') (hmarked : Marked T i l) (hne : l ≠ k) :
    T'.sems i = T.sems i :=
  h.others i (h.ne hmarked hne)

/-- Opening one of the three does not change what is found under the other names. -/
theorem Opens.find (h : Opens T k semId T') (hne : l ≠ k) :
    T'.findSemByName l.name = T.findSemByName l.name := by
  have hslot : ∀ {S : SemTable}, ((S.sems semId).used = true → (S.sems semId).name 5 = k.mark) →
      ((S.sems semId).used && S.strcmpFrom semId l.name.bytes 0) = false := by
    intro S hletter
    by_contra hmatch
    rw [Bool.not_eq_false, Bool.and_eq_true] at hmatch
    have hl := (SemTable.strcmpFrom_iff.mp hmatch.2).1 5 l.name_length.1
    rw [l.name_getElem, Nat.zero_add, SemTable.nameByte, if_pos (by decide),
      hletter hmatch.1] at hl
    exact hne (Semaphore.mark_injective hl.symm)
  unfold SemTable.findSemByName
  apply List.find?_congr
  intro i _
  by_cases hi : i = semId
  · subst hi
    rw [hslot fun _ => h.marked.letter, hslot fun hused => ?_]
    cases hfind : T.findSemByName k.name with
    | none => exact absurd (h.created hfind).1 (by rw [hused]; decide)
    | some j =>
        obtain ⟨rfl, _⟩ := h.found j hfind
        exact (marked_of_find hfind).letter
  · rw [h.others i hi, strcmp_congr (h.others i hi)]

end Opening

end BareKernel.Mvar
