import BareKernel.Memory.MemoryManager
import BareKernel.Lib.BlockList

/-!
# The naive memory manager

`Kernel/memory/naiveManager.c`: a doubly linked list of blocks whose headers
live in the memory they manage, first-fit allocation, and coalescing on free.
The headers are read from and written to a byte memory, field by field, in
the order of the source.
-/

namespace BareKernel.NaiveManager

open ByteMemory

/-! ## The block header -/

def sizeField : Field := ⟨0, 4⟩
def freeField : Field := ⟨4, 1⟩
def nextField : Field := ⟨8, 8⟩
def prevField : Field := ⟨16, 8⟩

/-- `sizeof(Block)`: three bytes of padding follow `free`. -/
def sizeofBlock : UInt32 := 24

def blockHeaderSize : UInt32 := align sizeofBlock

def size (m : Mem) (block : ℕ) : UInt32 := UInt32.ofNat (sizeField.get m block)
def isFree (m : Mem) (block : ℕ) : Bool := freeField.get m block ≠ 0
def next (m : Mem) (block : ℕ) : ℕ := nextField.get m block
def prev (m : Mem) (block : ℕ) : ℕ := prevField.get m block

def setSize (m : Mem) (block : ℕ) (v : UInt32) : Mem := sizeField.set m block v.toNat
def setFree (m : Mem) (block : ℕ) (v : Bool) : Mem := freeField.set m block v.toNat
def setNext (m : Mem) (block v : ℕ) : Mem := nextField.set m block v
def setPrev (m : Mem) (block v : ℕ) : Mem := prevField.set m block v

/-- The memory and the two static variables of the manager. -/
structure Heap where
  mem : Mem
  firstBlock : ℕ
  memoryPoolSize : UInt32

def nextPhysicalBlock (m : Mem) (block : ℕ) : ℕ :=
  block + blockHeaderSize.toNat + (size m block).toNat

def hasRoomForSplit (m : Mem) (block : ℕ) (requestedSize : UInt32) : Bool :=
  size m block ≥ requestedSize + blockHeaderSize + alignment

def createMemoryManager (h : Heap) (memoryStartAddress : ℕ) (memorySize : UInt32) : Heap :=
  if memoryStartAddress = NULL ∨ memorySize ≤ blockHeaderSize then h
  else
    let firstBlock := memoryStartAddress
    let m := setSize h.mem firstBlock (memorySize - blockHeaderSize)
    let m := setFree m firstBlock true
    let m := setNext m firstBlock NULL
    let m := setPrev m firstBlock NULL
    { mem := m, firstBlock := firstBlock, memoryPoolSize := memorySize }

/-! ## Allocation -/

/-- The walk over the list gets fuel; without enough of it there is no
result, which would be a loop that does not end. -/
def findSuitableBlock (m : Mem) (requestedSize : UInt32) : ℕ → ℕ → Option ℕ
  | 0, _ => none
  | fuel + 1, block =>
      if block = NULL then some NULL
      else if isFree m block ∧ size m block ≥ requestedSize then some block
      else findSuitableBlock m requestedSize fuel (next m block)

def splitBlock (m : Mem) (block : ℕ) (requestedSize : UInt32) : Mem :=
  let newBlock := block + blockHeaderSize.toNat + requestedSize.toNat
  let m := setSize m newBlock (size m block - requestedSize - blockHeaderSize)
  let m := setFree m newBlock true
  let m := setNext m newBlock (next m block)
  let m := setPrev m newBlock block
  let m := if next m block ≠ NULL then setPrev m (next m block) newBlock else m
  let m := setNext m block newBlock
  setSize m block requestedSize

/-- A list in a pool of `memoryPoolSize` bytes has fewer blocks than that. -/
def Heap.fuel (h : Heap) : ℕ := h.memoryPoolSize.toNat + 1

def allocMemory (h : Heap) (size : UInt32) : Option (ℕ × Heap) :=
  if size = 0 then some (NULL, h)
  else
    let alignedSize := align size
    match findSuitableBlock h.mem alignedSize h.fuel h.firstBlock with
    | none => none
    | some block =>
        if block = NULL then some (NULL, h)
        else
          let m := if hasRoomForSplit h.mem block alignedSize
            then splitBlock h.mem block alignedSize else h.mem
          some (block + blockHeaderSize.toNat, { h with mem := setFree m block false })

/-! ## Release -/

/-- The body the two merges share: `second` is absorbed by `first`. -/
def mergeBlocks (m : Mem) (first second : ℕ) : Mem :=
  let m := setSize m first (size m first + (blockHeaderSize + size m second))
  let m := setNext m first (next m second)
  if next m second ≠ NULL then setPrev m (next m second) first else m

def mergeWithNext (m : Mem) (block : ℕ) : Mem :=
  let nextBlock := next m block
  if nextBlock ≠ NULL ∧ isFree m nextBlock ∧ nextBlock = nextPhysicalBlock m block
  then mergeBlocks m block nextBlock else m

def mergeWithPrevious (m : Mem) (block : ℕ) : Mem :=
  let previousBlock := prev m block
  if previousBlock ≠ NULL ∧ isFree m previousBlock ∧
      block = nextPhysicalBlock m previousBlock
  then mergeBlocks m previousBlock block else m

def coalesce (m : Mem) (block : ℕ) : Mem := mergeWithPrevious (mergeWithNext m block) block

def freeMemory (h : Heap) (memorySegment : ℕ) : Heap :=
  if memorySegment = NULL then h
  else
    let block := memorySegment - blockHeaderSize.toNat
    if isFree h.mem block then h
    else { h with mem := coalesce (setFree h.mem block true) block }

/-! ## Statistics -/

/-- The walk of `getMemoryStatus`, accumulating `(used, free)`. -/
def countBytes (m : Mem) : ℕ → ℕ → UInt32 × UInt32 → Option (UInt32 × UInt32)
  | 0, _, _ => none
  | fuel + 1, block, (usedBytes, freeBytes) =>
      if block = NULL then some (usedBytes, freeBytes)
      else if isFree m block then
        countBytes m fuel (next m block) (usedBytes, freeBytes + size m block)
      else countBytes m fuel (next m block) (usedBytes + size m block, freeBytes)

def getMemoryStatus (h : Heap) : Option MemoryStatus :=
  (countBytes h.mem h.fuel h.firstBlock (0, 0)).map fun (usedBytes, freeBytes) =>
    { total := h.memoryPoolSize, used := usedBytes, free := freeBytes,
      base := h.firstBlock, «end» := h.firstBlock + h.memoryPoolSize.toNat }

/-! ## Fields of one header and of headers apart -/

@[simp] theorem blockHeaderSize_toNat : blockHeaderSize.toNat = 24 := by decide

@[simp] theorem alignment_toNat : alignment.toNat = 8 := by decide

section Fields

variable {m m' : Mem} {a b v : ℕ}

@[simp] theorem size_setSize (s : UInt32) : size (setSize m a s) a = s := by
  rw [size, setSize, Field.get_set_self _ _ (by simpa [sizeField] using s.toNat_lt),
    UInt32.ofNat_toNat]

@[simp] theorem isFree_setFree (f : Bool) : isFree (setFree m a f) a = f := by
  cases f <;> simp [isFree, setFree, Field.get_set_self, freeField]

@[simp] theorem next_setNext (hv : v < 2 ^ 64) : next (setNext m a v) a = v :=
  Field.get_set_self _ _ (by simpa [nextField] using hv)

@[simp] theorem prev_setPrev (hv : v < 2 ^ 64) : prev (setPrev m a v) a = v :=
  Field.get_set_self _ _ (by simpa [prevField] using hv)

@[simp] theorem size_setFree (f : Bool) : size (setFree m a f) a = size m a := by
  rw [size, setFree, Field.get_set_apart (by simp [Field.Apart, freeField, sizeField]), size]

@[simp] theorem size_setNext : size (setNext m a v) a = size m a := by
  rw [size, setNext, Field.get_set_apart (by simp [Field.Apart, nextField, sizeField]), size]

@[simp] theorem size_setPrev : size (setPrev m a v) a = size m a := by
  rw [size, setPrev, Field.get_set_apart (by simp [Field.Apart, prevField, sizeField]), size]

@[simp] theorem isFree_setSize (s : UInt32) : isFree (setSize m a s) a = isFree m a := by
  rw [isFree, setSize, Field.get_set_apart (by simp [Field.Apart, freeField, sizeField]), isFree]

@[simp] theorem isFree_setNext : isFree (setNext m a v) a = isFree m a := by
  rw [isFree, setNext, Field.get_set_apart (by simp [Field.Apart, nextField, freeField]), isFree]

@[simp] theorem isFree_setPrev : isFree (setPrev m a v) a = isFree m a := by
  rw [isFree, setPrev, Field.get_set_apart (by simp [Field.Apart, prevField, freeField]), isFree]

@[simp] theorem next_setSize (s : UInt32) : next (setSize m a s) a = next m a :=
  Field.get_set_apart (by simp [Field.Apart, nextField, sizeField]) _ _ _

@[simp] theorem next_setFree (f : Bool) : next (setFree m a f) a = next m a :=
  Field.get_set_apart (by simp [Field.Apart, nextField, freeField]) _ _ _

@[simp] theorem next_setPrev : next (setPrev m a v) a = next m a :=
  Field.get_set_apart (by simp [Field.Apart, nextField, prevField]) _ _ _

@[simp] theorem prev_setSize (s : UInt32) : prev (setSize m a s) a = prev m a :=
  Field.get_set_apart (by simp [Field.Apart, prevField, sizeField]) _ _ _

@[simp] theorem prev_setFree (f : Bool) : prev (setFree m a f) a = prev m a :=
  Field.get_set_apart (by simp [Field.Apart, prevField, freeField]) _ _ _

@[simp] theorem prev_setNext : prev (setNext m a v) a = prev m a :=
  Field.get_set_apart (by simp [Field.Apart, nextField, prevField]) _ _ _

/-- A header is 24 bytes: memories that agree on them show the same header. -/
theorem header_congr (h : AgreeOn m m' a 24) :
    size m' a = size m a ∧ isFree m' a = isFree m a ∧ next m' a = next m a ∧
      prev m' a = prev m a := by
  refine ⟨?_, ?_, ?_, ?_⟩
  · rw [size, sizeField.get_congr (by simp [sizeField]) h, size]
  · rw [isFree, freeField.get_congr (by simp [freeField]) h, isFree]
  · exact nextField.get_congr (by simp [nextField]) h
  · exact prevField.get_congr (by simp [prevField]) h

theorem setSize_agreeOn (h : Clear 24 a b) (s : UInt32) : AgreeOn m (setSize m a s) b 24 :=
  Field.set_agreeOn _ _ (by simp only [Clear, sizeField] at *; omega)

theorem setFree_agreeOn (h : Clear 24 a b) (f : Bool) : AgreeOn m (setFree m a f) b 24 :=
  Field.set_agreeOn _ _ (by simp only [Clear, freeField] at *; omega)

theorem setNext_agreeOn (h : Clear 24 a b) : AgreeOn m (setNext m a v) b 24 :=
  Field.set_agreeOn _ _ (by simp only [Clear, nextField] at *; omega)

theorem setPrev_agreeOn (h : Clear 24 a b) : AgreeOn m (setPrev m a v) b 24 :=
  Field.set_agreeOn _ _ (by simp only [Clear, prevField] at *; omega)

end Fields

end BareKernel.NaiveManager
