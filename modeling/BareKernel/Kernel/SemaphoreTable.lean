import BareKernel.Kernel.Process

/-!
# The table of semaphores

`sems` of `Kernel/semaphoreManager.c` and the functions that look semaphores
up by name. A slot keeps its bytes when it is released. In `sem_t` the name
stands right behind `openedBy`, and the next slot's `value` right behind the
name, so the two places where the code can step out of a field are modelled:
`openedBy[100]` is the first byte of the name, and the byte behind a name of
full length is the low byte of the next value.
-/

namespace BareKernel.Kernel

/-- `MAX_SEMS`. -/
def maxSems : ℕ := 500

/-- `S_MAX_NAME_LENGTH`, the width of the field `name`. -/
def sMaxNameLength : ℕ := 28

/-- The width of the field `openedBy`. -/
def openedByLength : ℤ := 100

/-- A C string without its terminator. -/
structure CString where
  bytes : List UInt8
  nonzero : ∀ b ∈ bytes, b ≠ 0
deriving DecidableEq

/-- What the pointer `waiting` of a semaphore leads to. -/
inductive WaitQueue : Type where
  | null
  | freed
  | queue (elements : List ℤ)
deriving DecidableEq, Repr

namespace WaitQueue

/-- The elements, in their order; a null queue counts as empty. -/
def elements : WaitQueue → Option (List ℤ)
  | null => some []
  | freed => none
  | queue elements => some elements

/-- The queue after `n` calls of `dequeue`. -/
def drop (n : ℕ) : WaitQueue → WaitQueue
  | queue elements => queue (elements.drop n)
  | w => w

/-- `freeQueue`: the pointer stays, and what it leads to is gone. -/
def free : WaitQueue → WaitQueue
  | null => null
  | _ => freed

end WaitQueue

structure Sem where
  value : Int32
  used : Bool
  waiting : WaitQueue
  openedBy : ℤ → UInt8
  name : ℕ → UInt8

/-- The array and the byte that follows it in memory. -/
structure SemTable where
  sems : ℕ → Sem
  beyond : UInt8

namespace SemTable

def setSem (T : SemTable) (semId : ℕ) (s : Sem) : SemTable :=
  { T with sems := Function.update T.sems semId s }

/-- The low byte of a `value`, as it stands in memory. -/
def lowByte (value : Int32) : UInt8 := value.toUInt32.toUInt8

/-- The byte right behind the field `name` of a slot. -/
def byteBehind (T : SemTable) (semId : ℕ) : UInt8 :=
  if semId + 1 < maxSems then lowByte (T.sems (semId + 1)).value else T.beyond

/-- The byte at `sems[semId].name[j]`; a string of at most 28 characters is
compared no further than index 28. -/
def nameByte (T : SemTable) (semId j : ℕ) : UInt8 :=
  if j < sMaxNameLength then (T.sems semId).name j else T.byteBehind semId

/-- `strcmp(sems[semId].name, name) == 0`, from index `j` on. -/
def strcmpFrom (T : SemTable) (semId : ℕ) : List UInt8 → ℕ → Bool
  | [], j => T.nameByte semId j = 0
  | b :: bs, j => T.nameByte semId j = b && strcmpFrom T semId bs (j + 1)

def findFreeSem (T : SemTable) : Option ℕ := (List.range maxSems).find? fun i => !(T.sems i).used

def findSemByName (T : SemTable) (name : CString) : Option ℕ :=
  (List.range maxSems).find? fun i => (T.sems i).used && T.strcmpFrom i name.bytes 0

def semExists (T : SemTable) (semId : ℤ) : Bool :=
  0 ≤ semId ∧ semId < maxSems ∧ (T.sems semId.toNat).used

end SemTable

/-- `openedBy[pid] = b`, for the PIDs up to 100. -/
def Sem.setOpened (s : Sem) (pid : ℤ) (b : UInt8) : Sem :=
  if pid < openedByLength then { s with openedBy := Function.update s.openedBy pid b }
  else { s with name := Function.update s.name 0 b }

/-- `openedBy[pid]`. -/
def Sem.opened (s : Sem) (pid : ℤ) : UInt8 :=
  if pid < openedByLength then s.openedBy pid else s.name 0

/-- `memcpy(name, bytes, nameLen)`: no terminator is written. -/
def Sem.copyName (s : Sem) (name : CString) : Sem :=
  { s with name := fun j => name.bytes.getD j (s.name j) }

/-- What `semCreate` writes into a free slot. -/
def Sem.fill (s : Sem) (pid : ℤ) (name : CString) (value : Int32) (waiting : WaitQueue) : Sem :=
  let s := { s with value := value, used := true, waiting := waiting }
  let s := { s.copyName name with openedBy := fun _ => 0 }
  s.setOpened pid 1

namespace SemTable

/-- `pid` is the caller and `waiting` what `newQueue` returned. -/
def semCreate (T : SemTable) (pid : ℤ) (name : CString) (value : Int32) (waiting : WaitQueue) :
    Option ℕ × SemTable :=
  if name.bytes.length > sMaxNameLength ∨ (T.findSemByName name).isSome then (none, T)
  else
    match T.findFreeSem with
    | none => (none, T)
    | some semId => (some semId, T.setSem semId ((T.sems semId).fill pid name value waiting))

def semOpen (T : SemTable) (pid : ℤ) (name : CString) : Option ℕ × SemTable :=
  match T.findSemByName name with
  | none => (none, T)
  | some semId =>
      if (T.sems semId).used then
        (some semId, T.setSem semId ((T.sems semId).setOpened pid 1))
      else (none, T)

/-- The result says whether the call succeeded. -/
def semClose (T : SemTable) (pid : ℤ) (semId : ℕ) : Bool × SemTable :=
  if !(T.sems semId).used ∨ (T.sems semId).opened pid = 0 then (false, T)
  else (true, T.setSem semId ((T.sems semId).setOpened pid 0))

/-- What `semDestroy` does to the slot; waking the waiters is not part of it. -/
def release (T : SemTable) (semId : ℕ) : SemTable :=
  T.setSem semId { T.sems semId with used := false, waiting := (T.sems semId).waiting.free }

/-- Changing a value, as waiting and posting do. -/
def setValue (T : SemTable) (semId : ℕ) (value : Int32) : SemTable :=
  T.setSem semId { T.sems semId with value := value }

def sysSemOpen (T : SemTable) (pid : ℤ) (name : CString) (value : Int32) (waiting : WaitQueue) :
    Option ℕ × SemTable :=
  if (T.findSemByName name).isNone then T.semCreate pid name value waiting
  else T.semOpen pid name

/-! ## One slot after a change of another -/

variable {T : SemTable} {i j semId : ℕ} {s : Sem}

@[simp] theorem setSem_sems_self : (T.setSem semId s).sems semId = s :=
  Function.update_self _ _ _

theorem setSem_sems_of_ne (h : i ≠ semId) : (T.setSem semId s).sems i = T.sems i :=
  Function.update_of_ne h _ _

@[simp] theorem setSem_beyond : (T.setSem semId s).beyond = T.beyond := rfl

theorem setOpened_eq (s : Sem) (pid : ℤ) (b : UInt8) : (s.setOpened pid b).value = s.value ∧
    (s.setOpened pid b).used = s.used ∧ (s.setOpened pid b).waiting = s.waiting := by
  unfold Sem.setOpened
  split <;> exact ⟨rfl, rfl, rfl⟩

/-- Opening only marks a slot in use. -/
theorem semOpen_eq {pid : ℤ} {name : CString} {T' : SemTable}
    (h : T.semOpen pid name = (some semId, T')) : (T.sems semId).used = true ∧
      T' = T.setSem semId ((T.sems semId).setOpened pid 1) := by
  unfold semOpen at h
  split at h
  · simp at h
  · split at h
    · rename_i hused
      simp only [Prod.mk.injEq, Option.some.injEq] at h
      obtain ⟨rfl, rfl⟩ := h
      exact ⟨hused, rfl⟩
    · simp at h

/-- Closing only clears a mark. -/
theorem semClose_eq {pid : ℤ} {T' : SemTable} (h : T.semClose pid semId = (true, T')) :
    (T.sems semId).used = true ∧ T' = T.setSem semId ((T.sems semId).setOpened pid 0) := by
  unfold semClose at h
  split at h
  · simp at h
  · rename_i hopen
    simp only [Prod.mk.injEq, true_and] at h
    rw [not_or] at hopen
    exact ⟨by simpa using hopen.1, h.symm⟩

end SemTable

end BareKernel.Kernel
