import BareKernel.Memory.MemoryManager
import BareKernel.Lib.ImplicitTree

/-!
# The buddy memory manager

`Kernel/memory/buddyManager.c`: a binary tree of marks in the array
`nodeState`, one for each block of the pool and of its halves, and an eight-byte
header in front of each allocation that remembers its order. Orders, indices
and offsets stay below `2^23`, so they are natural numbers; sizes are 32 bits.
-/

namespace BareKernel.BuddyManager

open ByteMemory

inductive NodeState : Type where
  | FREE
  | SPLIT
  | FULL
deriving DecidableEq, Repr

open NodeState

/-- `sizeof(AllocHdr)`: the order and seven bytes of padding. -/
def hdrSize : UInt32 := 8

def orderField : Field := ⟨0, 1⟩

def minBlockSize : UInt32 := align (hdrSize + alignment)

def maxOrderAllowed : UInt32 := 22

/-- The declared length of `nodeState`. -/
def nodeStateLength : ℕ := ((1 <<< (maxOrderAllowed - 5 + 1)) - 1 : UInt32).toNat

/-- The memory and the static variables of the manager. -/
structure Heap where
  mem : Mem
  poolBase : ℕ
  poolSize : UInt32
  maxOrder : ℕ
  nodeState : ℕ → NodeState
  usedBytes : UInt32
  freeBytes : UInt32

def orderSize (order : ℕ) : UInt32 := 1 <<< UInt32.ofNat order

def roundDownPow2 (x : UInt32) : UInt32 :=
  let x := x ||| (x >>> 1)
  let x := x ||| (x >>> 2)
  let x := x ||| (x >>> 4)
  let x := x ||| (x >>> 8)
  let x := x ||| (x >>> 16)
  x - (x >>> 1)

def idxToOffset (maxOrder idx order : ℕ) : ℕ :=
  let depth := maxOrder - order
  let firstIdxAtDepth := 2 ^ depth - 1
  let posInLevel := idx - firstIdxAtDepth
  posInLevel * (orderSize order).toNat

/-- `while (order_size(ord) < need) ord++`. A shift of 32 bits never exceeds
`2^31`, so the loop ends within 32 rounds or not at all. -/
def orderFrom (need : UInt32) : ℕ → ℕ → Option ℕ
  | 0, _ => none
  | fuel + 1, ord => if orderSize ord < need then orderFrom need fuel (ord + 1) else some ord

def createMemoryManager (h : Heap) (memoryStart : ℕ) (memoryBytes : UInt32) : Option Heap :=
  if memoryStart = NULL ∨ memoryBytes < minBlockSize then some h
  else
    let poolSize := roundDownPow2 memoryBytes
    let poolSize := if poolSize > 1 <<< maxOrderAllowed then 1 <<< maxOrderAllowed else poolSize
    (orderFrom poolSize 32 0).map fun maxOrder =>
      let treeNodes : UInt32 := (1 <<< (UInt32.ofNat maxOrder - 5 + 1)) - 1
      { h with
        poolBase := memoryStart
        poolSize := poolSize
        maxOrder := maxOrder
        nodeState := fun i => if i < treeNodes.toNat then FREE else h.nodeState i
        usedBytes := 0
        freeBytes := poolSize }

def sizeToOrder (userSize : UInt32) : Option ℕ :=
  let need := align userSize + hdrSize
  (orderFrom need 32 0).map fun ord => if orderSize ord < minBlockSize then 5 else ord

/-! ## Allocation -/

/-- The result is the offset, when there is one, and the marks. An access
outside the `len` entries of `nodeState` has no result. -/
def allocRec (len maxOrder wantOrder order idx : ℕ) (nodeState : ℕ → NodeState) :
    Option (Option ℕ × (ℕ → NodeState)) :=
  if len ≤ idx then none
  else if nodeState idx = FULL then some (none, nodeState)
  else if order = wantOrder then
    if nodeState idx = FREE then
      some (some (idxToOffset maxOrder idx order), Function.update nodeState idx FULL)
    else some (none, nodeState)
  else
    let nodeState :=
      if nodeState idx = FREE then Function.update nodeState idx SPLIT else nodeState
    let leftIdx := 2 * idx + 1
    let rightIdx := leftIdx + 1
    match order with
    | 0 => none
    | childOrd + 1 =>
        match allocRec len maxOrder wantOrder childOrd leftIdx nodeState with
        | none => none
        | some (some outOffset, nodeState) => some (some outOffset, nodeState)
        | some (none, nodeState) =>
            match allocRec len maxOrder wantOrder childOrd rightIdx nodeState with
            | none => none
            | some (some outOffset, nodeState) => some (some outOffset, nodeState)
            | some (none, nodeState) =>
                if nodeState leftIdx = FREE ∧ nodeState rightIdx = FREE then
                  some (none, Function.update nodeState idx FREE)
                else some (none, nodeState)
termination_by structural order

def allocMemory (len : ℕ) (h : Heap) (size : UInt32) : Option (ℕ × Heap) :=
  if h.poolBase = NULL ∨ size = 0 then some (NULL, h)
  else
    match sizeToOrder size with
    | none => none
    | some wantOrder =>
        if wantOrder > h.maxOrder then some (NULL, h)
        else
          match allocRec len h.maxOrder wantOrder h.maxOrder 0 h.nodeState with
          | none => none
          | some (none, nodeState) => some (NULL, { h with nodeState := nodeState })
          | some (some offset, nodeState) =>
              let hdr := h.poolBase + offset
              some (hdr + hdrSize.toNat,
                { h with
                  mem := orderField.set h.mem hdr wantOrder
                  nodeState := nodeState
                  usedBytes := h.usedBytes + (orderSize wantOrder - hdrSize)
                  freeBytes := h.freeBytes - orderSize wantOrder })

/-! ## Release -/

/-- `nodeState[l] == FREE && nodeState[r] == FREE`; the right mark is read only
when the left one is `FREE`. -/
def bothFree (len : ℕ) (nodeState : ℕ → NodeState) (l r : ℕ) : Option Bool :=
  if len ≤ l then none
  else if nodeState l ≠ FREE then some false
  else if len ≤ r then none
  else some (nodeState r = FREE)

def freeRec (len blockOrder order idx blockOffset : ℕ) (nodeState : ℕ → NodeState) :
    Option (ℕ → NodeState) :=
  if order < blockOrder then some nodeState
  else if len ≤ idx then none
  else if order = blockOrder then some (Function.update nodeState idx FREE)
  else
    let leftIdx := 2 * idx + 1
    let rightIdx := leftIdx + 1
    match order with
    | 0 => none
    | childOrd + 1 =>
        let halfSize := (orderSize childOrd).toNat
        let visited :=
          if blockOffset &&& halfSize ≠ 0 then
            freeRec len blockOrder childOrd rightIdx (blockOffset - halfSize) nodeState
          else freeRec len blockOrder childOrd leftIdx blockOffset nodeState
        visited.bind fun nodeState =>
          (bothFree len nodeState leftIdx rightIdx).map fun b =>
            Function.update nodeState idx (if b then FREE else SPLIT)
termination_by structural order

def freeMemory (len : ℕ) (h : Heap) (ptr : ℕ) : Option Heap :=
  if ptr = NULL ∨ h.poolBase = NULL then some h
  else
    let hdr := ptr - hdrSize.toNat
    let order := orderField.get h.mem hdr
    let offset := (hdr - h.poolBase) % 2 ^ 32
    (freeRec len order h.maxOrder 0 offset h.nodeState).map fun nodeState =>
      { h with
        nodeState := nodeState
        usedBytes := h.usedBytes - (orderSize order - hdrSize)
        freeBytes := h.freeBytes + orderSize order }

def getMemoryStatus (h : Heap) : MemoryStatus :=
  { total := h.poolSize, used := h.usedBytes, free := h.freeBytes,
    base := h.poolBase, «end» := h.poolBase + h.poolSize.toNat }

/-! ## Sizes and orders -/

@[simp] theorem hdrSize_toNat : hdrSize.toNat = 8 := by decide

@[simp] theorem minBlockSize_toNat : minBlockSize.toNat = 16 := by decide

theorem nodeStateLength_eq : nodeStateLength = 2 ^ 18 - 1 := by decide

theorem orderSize_toNat {k : ℕ} (hk : k < 32) : (orderSize k).toNat = 2 ^ k := by
  have hlt : 2 ^ k < 2 ^ 32 := Nat.pow_lt_pow_right (by norm_num) hk
  have hmod : (UInt32.ofNat k).toNat = k := by
    rw [UInt32.toNat_ofNat']
    exact Nat.mod_eq_of_lt (by omega)
  rw [orderSize, UInt32.toNat_shiftLeft, hmod, UInt32.toNat_one, Nat.mod_eq_of_lt hk,
    Nat.shiftLeft_eq, one_mul, Nat.mod_eq_of_lt hlt]

/-- What a block of order `k` leaves to its client. -/
theorem orderSize_sub_hdrSize {k : ℕ} (hk : 4 ≤ k) (hlt : k < 32) :
    (orderSize k - hdrSize).toNat = 2 ^ k - 8 := by
  have hlow : 2 ^ 4 ≤ 2 ^ k := Nat.pow_le_pow_right (by norm_num) hk
  rw [UInt32.toNat_sub_of_le, orderSize_toNat hlt, hdrSize_toNat]
  rw [UInt32.le_iff_toNat_le, orderSize_toNat hlt, hdrSize_toNat]
  omega

/-- The loop stops at the first order, from where it starts, that is large enough. -/
theorem orderFrom_spec {need : UInt32} : ∀ {fuel ord k : ℕ}, ord + fuel ≤ 32 →
    orderFrom need fuel ord = some k →
      k < 32 ∧ need.toNat ≤ 2 ^ k ∧ ∀ i, ord ≤ i → i < k → 2 ^ i < need.toNat
  | 0, _, _, _, h => by simp [orderFrom] at h
  | fuel + 1, ord, k, hle, h => by
      rw [orderFrom] at h
      have hord : (orderSize ord).toNat = 2 ^ ord := orderSize_toNat (by omega)
      split at h
      · rename_i hlt
        rw [UInt32.lt_iff_toNat_lt, hord] at hlt
        obtain ⟨hk, hneed, hmin⟩ := orderFrom_spec (by omega) h
        refine ⟨hk, hneed, fun i hi hik => ?_⟩
        rcases Nat.eq_or_lt_of_le hi with rfl | hi
        · exact hlt
        · exact hmin i hi hik
      · rename_i hge
        obtain rfl : ord = k := by simpa using h
        rw [UInt32.lt_iff_toNat_lt, hord] at hge
        exact ⟨by omega, by omega, fun i hi hik => absurd hik (by omega)⟩

theorem orderFrom_isSome {need : UInt32} : ∀ {fuel ord : ℕ}, ord + fuel = 32 →
    0 < fuel → need.toNat ≤ 2 ^ 31 → (orderFrom need fuel ord).isSome = true
  | 0, _, _, h, _ => absurd h (by omega)
  | fuel + 1, ord, hsum, _, hneed => by
      rw [orderFrom]
      split
      · rename_i hlt
        rw [UInt32.lt_iff_toNat_lt, orderSize_toNat (by omega)] at hlt
        have hfuel : 0 < fuel := by
          by_contra hzero
          obtain rfl : ord = 31 := by omega
          omega
        exact orderFrom_isSome (by omega) hfuel hneed
      · rfl

/-- **Orders requested**: never below 4, and large enough for the request and
its header unless the 32-bit sum wrapped. -/
theorem sizeToOrder_spec {userSize : UInt32} {k : ℕ} (hsize : userSize ≠ 0)
    (h : sizeToOrder userSize = some k) :
    4 ≤ k ∧ k < 32 ∧ (userSize.toNat ≤ 2 ^ 32 - 16 → userSize.toNat + 8 ≤ 2 ^ k) ∧
      (9 ≤ userSize.toNat → userSize.toNat ≤ 2 ^ 32 - 16 → 5 ≤ k) := by
  obtain ⟨ord, hord, hk⟩ := Option.map_eq_some_iff.mp h
  obtain ⟨hlt, hneed, -⟩ := orderFrom_spec (by norm_num) hord
  have hpos : 0 < userSize.toNat := by
    by_contra hzero
    exact hsize (UInt32.toNat_inj.mp (by rw [UInt32.toNat_zero]; omega))
  have hfits : userSize.toNat ≤ 2 ^ 32 - 16 →
      (align userSize + hdrSize).toNat = (userSize.toNat + 7) / 8 * 8 + 8 := by
    intro hle
    rw [UInt32.toNat_add, align_toNat, hdrSize_toNat]
    omega
  simp only [UInt32.lt_iff_toNat_lt, orderSize_toNat hlt, minBlockSize_toNat] at hk
  split at hk
  · rename_i hsmall
    subst hk
    refine ⟨by omega, by omega, fun hle => ?_, fun _ _ => le_refl _⟩
    rw [hfits hle] at hneed
    omega
  · rename_i hlarge
    subst hk
    have hfour : 4 ≤ ord := by
      by_contra hsmall
      have := Nat.pow_lt_pow_right (a := 2) (by norm_num) (show ord < 4 by omega)
      omega
    refine ⟨hfour, hlt, fun hle => ?_, fun hnine hle => ?_⟩
    · rw [hfits hle] at hneed
      omega
    · rw [hfits hle] at hneed
      by_contra hfive
      obtain rfl : ord = 4 := by omega
      omega

theorem sizeToOrder_isSome {userSize : UInt32} (h : userSize.toNat ≤ 2 ^ 31 - 8) :
    (sizeToOrder userSize).isSome = true := by
  rw [sizeToOrder, Option.isSome_map]
  refine orderFrom_isSome (by norm_num) (by norm_num) ?_
  rw [UInt32.toNat_add, align_toNat, hdrSize_toNat]
  omega

/-- Rounding down gives the largest power of two that is not larger. -/
theorem roundDownPow2_toNat {x : UInt32} (hx : x ≠ 0) :
    (roundDownPow2 x).toNat = 2 ^ Nat.log 2 x.toNat := by
  have hne : x.toNat ≠ 0 := fun h => hx (UInt32.toNat_inj.mp h)
  have hsmear := ImplicitTree.smear_sub_half hne x.toNat_lt rfl rfl rfl rfl rfl
  rw [← hsmear, roundDownPow2]
  rw [UInt32.toNat_sub_of_le]
  · simp [UInt32.toNat_or, UInt32.toNat_shiftRight]
  · rw [UInt32.le_iff_toNat_le, UInt32.toNat_shiftRight]
    exact Nat.shiftRight_le _ _

/-- On a power of two the loop finds its exponent. -/
theorem orderFrom_two_pow {need : UInt32} {k : ℕ} (hneed : need.toNat = 2 ^ k) (hk : k < 32) :
    orderFrom need 32 0 = some k := by
  have hle : 2 ^ k ≤ 2 ^ 31 := Nat.pow_le_pow_right (by norm_num) (by omega)
  have hsome : (orderFrom need 32 0).isSome = true :=
    orderFrom_isSome rfl (by norm_num) (by omega)
  obtain ⟨j, hj⟩ := Option.isSome_iff_exists.mp hsome
  obtain ⟨-, hup, hmin⟩ := orderFrom_spec (by norm_num) hj
  have hkj : k ≤ j := by
    rw [hneed] at hup
    exact (Nat.pow_le_pow_iff_right (by omega)).mp hup
  have hjk : j ≤ k := by
    by_contra hlt
    have := hmin k (Nat.zero_le k) (by omega)
    omega
  rw [hj, Nat.le_antisymm hjk hkj]

/-- The pool that is managed: a power of two of the bytes given, at most `2^22`. -/
theorem poolSize_toNat {x : UInt32} (hx : x ≠ 0) :
    (if roundDownPow2 x > 1 <<< maxOrderAllowed then 1 <<< maxOrderAllowed
      else roundDownPow2 x).toNat = 2 ^ min (Nat.log 2 x.toNat) 22 := by
  have hcap : ((1 : UInt32) <<< maxOrderAllowed).toNat = 2 ^ 22 := by decide
  have hround := roundDownPow2_toNat hx
  split
  · rename_i hgt
    rw [gt_iff_lt, UInt32.lt_iff_toNat_lt, hround, hcap] at hgt
    have := (Nat.pow_lt_pow_iff_right (a := 2) (by omega)).mp hgt
    rw [hcap, Nat.min_eq_right (by omega)]
  · rename_i hle
    rw [gt_iff_lt, UInt32.lt_iff_toNat_lt, hround, hcap] at hle
    have := (Nat.pow_le_pow_iff_right (a := 2) (by omega)).mp (Nat.le_of_not_lt hle)
    rw [hround, Nat.min_eq_left this]

end BareKernel.BuddyManager
