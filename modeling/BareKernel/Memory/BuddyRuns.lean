import BareKernel.Memory.BuddyInvariant
import BareKernel.Memory.Session

/-!
# Runs of the buddy heap

The heap represents a buddy tree: the marks show it, the headers hold the
orders of its blocks, and the counters add up its bytes. Each call is the
operation of the tree, so the representation holds after any sequence of
calls. How many entries `nodeState` has is a parameter: a call stays inside
it when the array reaches down to the order of the request.
-/

namespace BareKernel.BuddyManager

open ByteMemory BuddyTree ImplicitTree Runs
open NodeState

/-- The buddy manager as the kernel links it, with `len` entries of `nodeState`. -/
def manager (len : ℕ) : Manager Heap where
  mem := Heap.mem
  withMem := fun h m => { h with mem := m }
  allocMemory := allocMemory len
  freeMemory := freeMemory len

/-- Clients that write anywhere but to the headers of the blocks they hold. -/
def headersIntact (s : Session Heap) (a : ℕ) : Prop :=
  ∀ q ∈ s.live, ¬(q.1 - hdrSize.toNat ≤ a ∧ a < q.1)

/-! ## Representation -/

structure Rep (h : Heap) (base M : ℕ) (t : Buddy) : Prop where
  poolBase : h.poolBase = base
  base_ne : base ≠ NULL
  maxOrder : h.maxOrder = M
  maxOrder_le : M ≤ 22
  poolSize : h.poolSize.toNat = 2 ^ M
  wf : WF M t
  shows : Shows h.nodeState 0 t
  order_le : ∀ b ∈ blocks M 0 t, 4 ≤ b.2
  header : ∀ b ∈ blocks M 0 t, orderField.get h.mem (base + b.1) = b.2
  used : h.usedBytes.toNat + 8 * (blocks M 0 t).length = bytes (blocks M 0 t)
  free : h.freeBytes.toNat + bytes (blocks M 0 t) = 2 ^ M

variable {len base M : ℕ} {h h' : Heap} {t t' : Buddy}

/-- The pool is cut down to a power of two, at most 4 MiB, and starts wholly free. -/
theorem createMemoryManager_rep {memoryBytes : UInt32} (hbase : base ≠ NULL)
    (hbytes : minBlockSize ≤ memoryBytes) (hzero : ∀ n, h.nodeState n = FREE) :
    ∃ h', createMemoryManager h base memoryBytes = some h' ∧
      Rep h' base (min (Nat.log 2 memoryBytes.toNat) 22) .free := by
  have hlow : 16 ≤ memoryBytes.toNat := by
    rw [UInt32.le_iff_toNat_le, minBlockSize_toNat] at hbytes
    exact hbytes
  have hguard : ¬(base = NULL ∨ memoryBytes < minBlockSize) := by
    rw [UInt32.lt_iff_toNat_lt, minBlockSize_toNat]
    simp only [hbase, false_or]
    omega
  have hne : memoryBytes ≠ 0 := by
    rintro rfl
    simp at hlow
  have hsize := poolSize_toNat hne
  have horder := orderFrom_two_pow hsize (by omega)
  rw [createMemoryManager, if_neg hguard]
  simp only [horder, Option.map_some]
  refine ⟨_, rfl, rfl, hbase, rfl, Nat.min_le_right _ _, hsize, wf_free _, ?_, ?_, ?_, ?_, ?_⟩
  · intro n _
    simp only [hzero, ite_self]
  · simp [blocks]
  · simp [blocks]
  · simp [blocks]
  · simpa [blocks] using hsize

/-! ## One call -/

/-- Taking a block of order `k` for the manager's counters, header and marks. -/
theorem Rep.alloc {k o : ℕ} {ns : ℕ → NodeState} (hr : Rep h base M t) (hk : 4 ≤ k)
    (halloc : BuddyTree.alloc k M t = some (o, t')) (hshows : Shows ns 0 t') :
    Rep { h with
      mem := orderField.set h.mem (base + o) k
      nodeState := ns
      usedBytes := h.usedBytes + (orderSize k - hdrSize)
      freeBytes := h.freeBytes - orderSize k } base M t' := by
  have hperm : (blocks M 0 t').Perm ((o, k) :: blocks M 0 t) := by
    simpa using alloc_blocks 0 halloc
  have hM := hr.maxOrder_le
  have hkM := (alloc_order_le halloc).1
  have hpow : 2 ^ k ≤ 2 ^ M := Nat.pow_le_pow_right (by norm_num) hkM
  have hpowM : 2 ^ M ≤ 2 ^ 22 := Nat.pow_le_pow_right (by norm_num) hM
  have hlow : 2 ^ 4 ≤ 2 ^ k := Nat.pow_le_pow_right (by norm_num) hk
  have hbytes : bytes (blocks M 0 t') = 2 ^ k + bytes (blocks M 0 t) := by
    rw [bytes_perm hperm, bytes_cons]
  have hmax : bytes (blocks M 0 t') ≤ 2 ^ M := bytes_le
  have horder : (orderSize k).toNat = 2 ^ k := orderSize_toNat (by omega)
  have hused := hr.used
  have hfree := hr.free
  have hlive : ∀ b ∈ blocks M 0 t, 4 ≤ b.2 := hr.order_le
  refine ⟨hr.poolBase, hr.base_ne, hr.maxOrder, hM, hr.poolSize, alloc_wf hr.wf halloc, hshows,
    ?_, ?_, ?_, ?_⟩
  · intro b hb
    rcases List.mem_cons.mp (hperm.mem_iff.mp hb) with rfl | hb
    · exact hk
    · exact hlive b hb
  · intro b hb
    rcases List.mem_cons.mp (hperm.mem_iff.mp hb) with rfl | hb
    · apply Field.get_set_self
      have : 2 ^ k < 2 ^ 256 := Nat.pow_lt_pow_right (by norm_num) (by omega)
      simp only [orderField, pow_one]
      omega
    · have hapart := (List.pairwise_cons.mp (blocks_apart hperm)).1 b hb
      have hbig : 2 ^ 4 ≤ 2 ^ b.2 := Nat.pow_le_pow_right (by norm_num) (hlive b hb)
      rw [Field.get_set_clear (n := 8) (by simp [orderField]) (by simp [orderField])]
      · exact hr.header b hb
      · simp only [Apart] at hapart
        simp only [Clear]
        omega
  · have hlen : (blocks M 0 t').length = (blocks M 0 t).length + 1 := by
      rw [hperm.length_eq, List.length_cons]
    have hsub := orderSize_sub_hdrSize hk (by omega)
    simp only [UInt32.toNat_add, hsub, hlen, hbytes]
    omega
  · have hsub : (h.freeBytes - orderSize k).toNat = h.freeBytes.toNat - 2 ^ k := by
      rw [UInt32.toNat_sub_of_le, horder]
      rw [UInt32.le_iff_toNat_le, horder]
      omega
    simp only [hsub, hbytes]
    omega

/-- The call stays inside `nodeState`: the array reaches down to the order
that is requested, or the pool is exhausted and the search ends at its blocks. -/
def Admits (len M : ℕ) (t : Buddy) (size : UInt32) : Prop :=
  size ≠ 0 → ∀ k, sizeToOrder size = some k →
    InArray len M k ∨ Exhausted t ∧ ∀ b ∈ blocks M 0 t, InArray len M b.2

/-- **Allocation on the heap is allocation in the tree.** -/
theorem allocMemory_rep {size : UInt32} {k : ℕ} (hr : Rep h base M t) (hsize : size ≠ 0)
    (hk : sizeToOrder size = some k)
    (hin : InArray len M k ∨ Exhausted t ∧ ∀ b ∈ blocks M 0 t, InArray len M b.2) :
    match alloc k M t with
    | none => allocMemory len h size = some (NULL, h)
    | some (o, t') => ∃ h', allocMemory len h size = some (base + o + 8, h') ∧
        Rep h' base M t' := by
  obtain rfl := hr.maxOrder
  obtain rfl := hr.poolBase
  have hM := hr.maxOrder_le
  have hfour := (sizeToOrder_spec hsize hk).1
  have hguard : ¬(h.poolBase = NULL ∨ size = 0) := by
    simp only [hr.base_ne, hsize, or_self, not_false_eq_true]
  rw [allocMemory, if_neg hguard]
  simp only [hk]
  by_cases hkM : k ≤ h.maxOrder
  · rw [if_neg (Nat.not_lt.mpr hkM)]
    have hshows : Shows h.nodeState (node 0 0) t := hr.shows
    rcases hin with hin | ⟨hex, hblocks⟩
    · have hspec := allocRec_shows (by omega) hin (Nat.zero_add h.maxOrder) (by norm_num) hkM
        hr.wf hshows
      rw [show node 0 0 = 0 from rfl] at hspec
      cases htree : alloc k h.maxOrder t with
      | none =>
          simp only [htree] at hspec
          rw [hspec]
      | some ot =>
          obtain ⟨o, t'⟩ := ot
          simp only [htree] at hspec
          obtain ⟨ns, hrec, hshows', -⟩ := hspec
          simp only [hrec, Nat.zero_mul, Nat.zero_add]
          exact ⟨_, rfl, hr.alloc hfour htree hshows'⟩
    · have hspec : allocRec len h.maxOrder k h.maxOrder (node 0 0) h.nodeState =
          some (none, h.nodeState) :=
        allocRec_exhausted 0 (Nat.zero_add h.maxOrder) (by norm_num) hr.wf hshows hex hblocks
      rw [show node 0 0 = 0 from rfl] at hspec
      rw [alloc_exhausted hex, hspec]
  · have hnone : alloc k h.maxOrder t = none := by
      cases htree : alloc k h.maxOrder t with
      | none => rfl
      | some ot => exact absurd (alloc_order_le htree).1 hkM
    rw [hnone, if_pos (Nat.lt_of_not_le hkM)]

/-- What one call of `allocMemory` can do. -/
theorem allocMemory_cases {size : UInt32} {p : ℕ} (hr : Rep h base M t)
    (hlen : Admits len M t size)
    (halloc : allocMemory len h size = some (p, h')) :
    (p = NULL ∧ h' = h) ∨
    ∃ k o t', size ≠ 0 ∧ sizeToOrder size = some k ∧ alloc k M t = some (o, t') ∧
      p = base + o + 8 ∧ Rep h' base M t' := by
  by_cases hsize : size = 0
  · rw [allocMemory, if_pos (Or.inr hsize)] at halloc
    obtain ⟨rfl, rfl⟩ : NULL = p ∧ h = h' := by simpa using halloc
    exact Or.inl ⟨rfl, rfl⟩
  cases hk : sizeToOrder size with
  | none =>
      rw [allocMemory, if_neg (by simp only [hr.poolBase, hr.base_ne, hsize, or_self,
        not_false_eq_true]), hk] at halloc
      cases halloc
  | some k =>
      have hspec := allocMemory_rep hr hsize hk (hlen hsize k hk)
      cases htree : alloc k M t with
      | none =>
          simp only [htree] at hspec
          obtain ⟨rfl, rfl⟩ : NULL = p ∧ h = h' := by simpa [hspec] using halloc
          exact Or.inl ⟨rfl, rfl⟩
      | some ot =>
          obtain ⟨o, t'⟩ := ot
          simp only [htree] at hspec
          obtain ⟨h'', heq, hr''⟩ := hspec
          rw [heq] at halloc
          obtain ⟨rfl, rfl⟩ : base + o + 8 = p ∧ h'' = h' := by simpa using halloc
          exact Or.inr ⟨k, o, t', hsize, rfl, htree, rfl, hr''⟩

/-- An admitted request that is not above `2^31` returns: the call neither
loops nor leaves the array of marks. -/
theorem allocMemory_isSome {size : UInt32} (hr : Rep h base M t) (hlen : Admits len M t size)
    (hle : size.toNat ≤ 2 ^ 31 - 8) : (allocMemory len h size).isSome = true := by
  by_cases hsize : size = 0
  · simp [allocMemory, hsize]
  obtain ⟨k, hk⟩ := Option.isSome_iff_exists.mp (sizeToOrder_isSome hle)
  have hspec := allocMemory_rep hr hsize hk (hlen hsize k hk)
  cases htree : alloc k M t with
  | none =>
      simp only [htree] at hspec
      simp [hspec]
  | some ot =>
      simp only [htree] at hspec
      obtain ⟨h', heq, -⟩ := hspec
      simp [heq]

/-- Giving back a block. -/
theorem freeMemory_rep {b : ℕ × ℕ} (hr : Rep h base M t) (hb : b ∈ blocks M 0 t)
    (hlen : InArray len M b.2) :
    ∃ h', freeMemory len h (base + b.1 + 8) = some h' ∧
      Rep h' base M (release b.2 M b.1 t) := by
  obtain rfl := hr.maxOrder
  obtain rfl := hr.poolBase
  obtain ⟨o, k⟩ := b
  have hM := hr.maxOrder_le
  have hbounds := blocks_bounds _ hb
  have hpowM : 2 ^ h.maxOrder ≤ 2 ^ 22 := Nat.pow_le_pow_right (by norm_num) hM
  have hfour : 4 ≤ k := hr.order_le _ hb
  have hlow : 2 ^ 4 ≤ 2 ^ k := Nat.pow_le_pow_right (by norm_num) hfour
  have hpos : 0 < 2 ^ k := Nat.two_pow_pos _
  simp only [] at hbounds hlen
  obtain ⟨ns, hrec, hshows, -⟩ := freeRec_shows (M := h.maxOrder) (k := k) (by omega) hlen
    (d := 0) (p := 0) (o := o) 0 (show 0 + h.maxOrder = h.maxOrder by omega) (by norm_num)
    (by omega)
    hr.shows (by simpa using hb)
  have hperm : (blocks h.maxOrder 0 t).Perm
      ((o, k) :: blocks h.maxOrder 0 (release k h.maxOrder o t)) := by
    simpa using release_blocks (k := k) (o := o) (t := t) 0 (by simpa using hb)
  have hkeep : ∀ c ∈ blocks h.maxOrder 0 (release k h.maxOrder o t),
      c ∈ blocks h.maxOrder 0 t := fun c hc => hperm.mem_iff.mpr (List.mem_cons_of_mem _ hc)
  have horder : (orderSize k).toNat = 2 ^ k := orderSize_toNat (by omega)
  have hptr : ¬(h.poolBase + o + 8 = NULL ∨ h.poolBase = NULL) := by
    simp only [hr.base_ne, or_false]
    exact Nat.succ_ne_zero _
  have hhdr : h.poolBase + o + 8 - 8 = h.poolBase + o := by omega
  have hoff : (h.poolBase + o - h.poolBase) % 2 ^ 32 = o := by omega
  have hget : orderField.get h.mem (h.poolBase + o) = k := hr.header _ hb
  rw [freeMemory, if_neg hptr]
  simp only [hdrSize_toNat, hhdr, hoff, hget]
  rw [show node 0 0 = 0 from rfl] at hrec hshows
  simp only [hrec, Option.map_some]
  have hlength := hperm.length_eq
  have hbytes := bytes_perm hperm
  have hused := hr.used
  have hfree := hr.free
  rw [List.length_cons] at hlength
  rw [bytes_cons] at hbytes
  simp only [] at hbytes
  refine ⟨_, rfl, rfl, hr.base_ne, rfl, hM, hr.poolSize, release_wf hr.wf, hshows,
    fun c hc => hr.order_le c (hkeep c hc), fun c hc => hr.header c (hkeep c hc), ?_, ?_⟩
  · have hcount := mul_length_le_bytes (c := 8)
      fun c hc =>
        le_trans (by decide) (Nat.pow_le_pow_right (n := 2) (by norm_num)
          (hr.order_le c (hkeep c hc)))
    have hsub := orderSize_sub_hdrSize hfour (by omega)
    have hsub' : (h.usedBytes - (orderSize k - hdrSize)).toNat =
        h.usedBytes.toNat - (2 ^ k - 8) := by
      rw [UInt32.toNat_sub_of_le, hsub]
      rw [UInt32.le_iff_toNat_le, hsub]
      omega
    simp only [hsub']
    omega
  · simp only [UInt32.toNat_add, horder]
    omega

/-- The only byte of the pool that a call of `allocMemory` writes is the order of its block. -/
theorem allocMemory_mem {size : UInt32} {p : ℕ}
    (halloc : allocMemory len h size = some (p, h')) :
    h'.mem = h.mem ∨
      ∃ order, hdrSize.toNat ≤ p ∧ h'.mem = orderField.set h.mem (p - hdrSize.toNat) order := by
  unfold allocMemory at halloc
  split at halloc
  · obtain ⟨-, rfl⟩ := Prod.mk.inj (Option.some.inj halloc)
    exact .inl rfl
  split at halloc
  · cases halloc
  split at halloc
  · obtain ⟨-, rfl⟩ := Prod.mk.inj (Option.some.inj halloc)
    exact .inl rfl
  split at halloc
  · cases halloc
  · obtain ⟨-, rfl⟩ := Prod.mk.inj (Option.some.inj halloc)
    exact .inl rfl
  · rename_i wantOrder _ _ _ offset _ _
    obtain ⟨rfl, rfl⟩ := Prod.mk.inj (Option.some.inj halloc)
    exact .inr ⟨wantOrder, Nat.le_add_left _ _, by rw [Nat.add_sub_cancel]⟩

/-- A call of `freeMemory` leaves the memory alone. -/
theorem freeMemory_mem {p : ℕ} (hfree : freeMemory len h p = some h') :
    h'.mem = h.mem := by
  unfold freeMemory at hfree
  split at hfree
  · rw [← Option.some.inj hfree]
  · obtain ⟨ns, -, rfl⟩ := Option.map_eq_some_iff.mp hfree
    rfl

/-- Writes that leave the headers alone keep the representation. -/
theorem Rep.write {m : Mem} (hr : Rep h base M t)
    (hm : ∀ b ∈ blocks M 0 t, m (base + b.1) = h.mem (base + b.1)) :
    Rep { h with mem := m } base M t := by
  refine { hr with header := fun b hb => ?_ }
  rw [← hr.header b hb]
  apply orderField.get_congr (n := 1) (by simp [orderField])
  intro a ha ha'
  obtain rfl : a = base + b.1 := by omega
  exact hm b hb

/-! ## Runs -/

/-- The pointers the clients hold are the data of the blocks of the tree. -/
def Tracks (base M : ℕ) (live : List (ℕ × UInt32)) (t : Buddy) : Prop :=
  (live.map Prod.fst).Perm ((blocks M 0 t).map fun b => base + b.1 + 8)

/-- The invariant of a session: the heap represents some tree, and the clients
hold its blocks. -/
def Inv (base M : ℕ) (s : Session Heap) : Prop :=
  ∃ t, Rep s.heap base M t ∧ Tracks base M s.live t

theorem Tracks.mem {live : List (ℕ × UInt32)} (h : Tracks base M live t) {p : ℕ}
    (hp : p ∈ live.map Prod.fst) : ∃ b ∈ blocks M 0 t, p = base + b.1 + 8 := by
  obtain ⟨b, hb, rfl⟩ := List.mem_map.mp (h.mem_iff.mp hp)
  exact ⟨b, hb, rfl⟩

theorem Tracks.mem_live {live : List (ℕ × UInt32)} (h : Tracks base M live t) {b : ℕ × ℕ}
    (hb : b ∈ blocks M 0 t) : ∃ q ∈ live, q.1 = base + b.1 + 8 :=
  List.mem_map.mp (h.mem_iff.mpr (List.mem_map_of_mem hb))

theorem Tracks.alloc {live : List (ℕ × UInt32)} {k o : ℕ} (size : UInt32)
    (h : Tracks base M live t) (halloc : BuddyTree.alloc k M t = some (o, t')) :
    Tracks base M ((base + o + 8, size) :: live) t' := by
  have hperm : (blocks M 0 t').Perm ((o, k) :: blocks M 0 t) := by
    simpa using alloc_blocks 0 halloc
  have hnew := (hperm.map fun b : ℕ × ℕ => base + b.1 + 8).symm
  exact (h.cons (base + o + 8)).trans hnew

/-- Releasing a block drops its pointer and no other. -/
theorem Tracks.release {live : List (ℕ × UInt32)} {b : ℕ × ℕ} (h : Tracks base M live t)
    (hb : b ∈ blocks M 0 t) :
    Tracks base M (live.filter fun q => q.1 ≠ base + b.1 + 8) (release b.2 M b.1 t) := by
  have hperm : (blocks M 0 t).Perm (b :: blocks M 0 (BuddyTree.release b.2 M b.1 t)) := by
    simpa using release_blocks (k := b.2) (o := b.1) (t := t) 0 (by simpa using hb)
  have hleft : (live.filter fun q => q.1 ≠ base + b.1 + 8).map Prod.fst =
      (live.map Prod.fst).filter fun p => p ≠ base + b.1 + 8 := by
    rw [List.filter_map]
    rfl
  have hrest : ((blocks M 0 (BuddyTree.release b.2 M b.1 t)).map fun c => base + c.1 + 8).filter
      (fun p => p ≠ base + b.1 + 8) =
      (blocks M 0 (BuddyTree.release b.2 M b.1 t)).map fun c => base + c.1 + 8 := by
    rw [List.filter_eq_self]
    intro p hp
    obtain ⟨c, hc, rfl⟩ := List.mem_map.mp hp
    have hapart := (List.pairwise_cons.mp (blocks_apart hperm)).1 c hc
    have hposb : 0 < 2 ^ b.2 := Nat.two_pow_pos _
    have hposc : 0 < 2 ^ c.2 := Nat.two_pow_pos _
    simp only [Apart] at hapart
    simp only [ne_eq, decide_eq_true_eq]
    omega
  have hall := (h.trans (hperm.map _)).filter fun p => p ≠ base + b.1 + 8
  rw [List.map_cons, List.filter_cons_of_neg (by simp), hrest] at hall
  rw [Tracks, hleft]
  exact hall

/-- **What one step of the clients can do** to a represented heap, when they
write to no header. -/
theorem step_cases {writable : Session Heap → ℕ → Prop} {s s' : Session Heap} {r : Request}
    (hr : Rep s.heap base M t) (htr : Tracks base M s.live t)
    (hwrite : ∀ b ∈ blocks M 0 t, ¬writable s (base + b.1))
    (hblocks : ∀ b ∈ blocks M 0 t, InArray len M b.2)
    (hreq : ∀ size, r = .alloc size → Admits len M t size)
    (hstep : Session.Step (manager len) writable s r s') :
    (s'.live = s.live ∧ Rep s'.heap base M t) ∨
    (∃ size k o t', r = .alloc size ∧ size ≠ 0 ∧ sizeToOrder size = some k ∧
      alloc k M t = some (o, t') ∧ s'.live = (base + o + 8, size) :: s.live ∧
      Rep s'.heap base M t') ∨
    ∃ b ∈ blocks M 0 t, r = .free (base + b.1 + 8) ∧
      s'.live = (s.live.filter fun q => q.1 ≠ base + b.1 + 8) ∧
      Rep s'.heap base M (release b.2 M b.1 t) := by
  cases hstep with
  | allocNull halloc =>
      rcases allocMemory_cases hr (hreq _ rfl) halloc with ⟨-, rfl⟩ | ⟨_, _, _, _, _, _, hp, _⟩
      · exact Or.inl ⟨rfl, hr⟩
      · exact absurd hp (by simp)
  | alloc halloc hp =>
      rcases allocMemory_cases hr (hreq _ rfl) halloc with
        ⟨rfl, -⟩ | ⟨k, o, t', hsize, hk, htree, rfl, hr'⟩
      · exact absurd rfl hp
      · exact Or.inr (Or.inl ⟨_, k, o, t', rfl, hsize, hk, htree, rfl, hr'⟩)
  | freeNull hfree =>
      obtain rfl : s.heap = _ := by simpa [manager, freeMemory] using hfree
      exact Or.inl ⟨rfl, hr⟩
  | free hp hfree =>
      obtain ⟨b, hb, rfl⟩ := htr.mem hp
      obtain ⟨h', heq, hr'⟩ := freeMemory_rep hr hb (hblocks b hb)
      obtain rfl : h' = _ := Option.some.inj (heq.symm.trans hfree)
      exact Or.inr (Or.inr ⟨b, hb, rfl, rfl, hr'⟩)
  | write hm => exact Or.inl ⟨rfl, hr.write fun b hb => hm _ (hwrite b hb)⟩

/-- `nodeState` reaches down to the smallest order that can be requested. -/
def LongEnough (len M : ℕ) : Prop := InArray len M 4

theorem LongEnough.order {k : ℕ} (h : LongEnough len M) (hk : 4 ≤ k) : InArray len M k := by
  have hle : 2 ^ (M - k + 1) ≤ 2 ^ (M - 4 + 1) := Nat.pow_le_pow_right (by norm_num) (by omega)
  unfold LongEnough InArray at *
  omega

theorem LongEnough.admits (h : LongEnough len M) (t : Buddy) (size : UInt32) :
    Admits len M t size :=
  fun hsize _ hk => Or.inl (h.order (sizeToOrder_spec hsize hk).1)

/-- Clients that leave the headers alone write to none of them. -/
theorem Tracks.intact {s : Session Heap} (htr : Tracks base M s.live t) :
    ∀ b ∈ blocks M 0 t, ¬headersIntact s (base + b.1) := by
  intro b hb hwritable
  obtain ⟨q, hq, hqb⟩ := htr.mem_live hb
  apply hwritable q hq
  rw [hdrSize_toNat]
  omega

theorem inv_step {s s' : Session Heap} {r : Request} (hlen : LongEnough len M)
    (hinv : Inv base M s) (hstep : Session.Step (manager len) headersIntact s r s') :
    Inv base M s' := by
  obtain ⟨t, hr, htr⟩ := hinv
  rcases step_cases hr htr htr.intact (fun b hb => hlen.order (hr.order_le b hb))
      (fun size _ => hlen.admits t size) hstep with
    ⟨hlive, hr'⟩ | ⟨size, k, o, t', -, -, -, htree, hlive, hr'⟩ | ⟨b, hb, -, hlive, hr'⟩
  · exact ⟨t, hr', hlive ▸ htr⟩
  · exact ⟨t', hr', hlive ▸ htr.alloc size htree⟩
  · exact ⟨_, hr', hlive ▸ htr.release hb⟩

/-! ## What a reachable heap looks like -/

/-- The block in front of a live pointer, read from its header. -/
def blockOf (h : Heap) (p : ℕ) : ℕ × ℕ :=
  let hdr := p - hdrSize.toNat
  (hdr - h.poolBase, orderField.get h.mem hdr)

/-- A well-formed heap, as its own data show it: the blocks read from the
headers of the live pointers, the marks, and the counters. -/
structure WellFormed (len : ℕ) (s : Session Heap) : Prop where
  in_pool : ∀ q ∈ s.live, q.1 = s.heap.poolBase + (blockOf s.heap q.1).1 + hdrSize.toNat ∧
    (blockOf s.heap q.1).1 + 2 ^ (blockOf s.heap q.1).2 ≤ s.heap.poolSize.toNat
  aligned : ∀ q ∈ s.live, 2 ^ (blockOf s.heap q.1).2 ∣ (blockOf s.heap q.1).1
  disjoint : (s.live.map fun q => blockOf s.heap q.1).Pairwise Apart
  full_iff : ∀ n, s.heap.nodeState n = FULL ↔
    ∃ q ∈ s.live, nodeOf s.heap.maxOrder (blockOf s.heap q.1) = n
  split_iff : ∀ n, s.heap.nodeState n = SPLIT ↔
    ∃ m, Below n m ∧ m ≠ n ∧ s.heap.nodeState m = FULL
  below_free : ∀ n, s.heap.nodeState n ≠ SPLIT → ∀ m, Below n m → m ≠ n →
    s.heap.nodeState m = FREE
  alloc_marks : ∀ size p h', allocMemory len s.heap size = some (p, h') → p ≠ NULL →
    ∀ n, h'.nodeState n = FULL ↔
      n = nodeOf s.heap.maxOrder (blockOf h' p) ∨ s.heap.nodeState n = FULL
  free_reaches : ∀ q ∈ s.live, ∃ h', freeMemory len s.heap q.1 = some h' ∧
    ∀ n, h'.nodeState n = FULL ↔
      n ≠ nodeOf s.heap.maxOrder (blockOf s.heap q.1) ∧ s.heap.nodeState n = FULL
  accounting : s.heap.usedBytes.toNat + s.heap.freeBytes.toNat +
    hdrSize.toNat * s.live.length = s.heap.poolSize.toNat

theorem Rep.blockOf_eq (hr : Rep h base M t) {b : ℕ × ℕ} (hb : b ∈ blocks M 0 t) :
    blockOf h (base + b.1 + 8) = b := by
  have hhdr : base + b.1 + 8 - 8 = base + b.1 := by omega
  simp only [blockOf, hdrSize_toNat, hhdr, hr.header b hb, hr.poolBase]
  rw [Nat.add_sub_cancel_left]

/-- The blocks of the tree are those the headers of the live pointers tell. -/
theorem Rep.blocks_perm (hr : Rep h base M t) {live : List (ℕ × UInt32)}
    (htr : Tracks base M live t) : (live.map fun q => blockOf h q.1).Perm (blocks M 0 t) := by
  have hmap := htr.map (blockOf h)
  rw [List.map_map, List.map_map] at hmap
  have hself : (blocks M 0 t).map (blockOf h ∘ fun b => base + b.1 + 8) = blocks M 0 t := by
    have hid : ∀ b ∈ blocks M 0 t, (blockOf h ∘ fun b : ℕ × ℕ => base + b.1 + 8) b = id b :=
      fun b hb => hr.blockOf_eq hb
    rw [List.map_congr_left hid, List.map_id]
  rwa [hself] at hmap

theorem Rep.full_iff (hr : Rep h base M t) {n : ℕ} :
    h.nodeState n = FULL ↔ ∃ b ∈ blocks M 0 t, nodeOf M b = n := by
  have hshows : Shows h.nodeState (node 0 0) t := hr.shows
  have hroot : Below (node 0 0) n := below_zero n
  simpa using BuddyManager.full_iff (M := M) (by omega) hr.wf hshows hroot

theorem Rep.split_iff (hr : Rep h base M t) {n : ℕ} :
    h.nodeState n = SPLIT ↔ ∃ m, Below n m ∧ m ≠ n ∧ h.nodeState m = FULL := by
  have hshows : Shows h.nodeState (node 0 0) t := hr.shows
  exact BuddyManager.split_iff hr.wf hshows (below_zero n)

/-- Two blocks of a tree that are apart have different nodes. -/
theorem nodeOf_ne {b c : ℕ × ℕ} (hb : b ∈ blocks M 0 t) (hc : c ∈ blocks M 0 t)
    (hapart : Apart b c) : nodeOf M b ≠ nodeOf M c := by
  have hlt : ∀ b ∈ blocks M 0 t, b.2 ≤ M ∧ 2 ^ b.2 ∣ b.1 ∧ b.1 / 2 ^ b.2 < 2 ^ (M - b.2) := by
    intro b hb
    obtain ⟨hM, -, hend⟩ := blocks_bounds b hb
    refine ⟨hM, blocks_aligned (dvd_zero _) b hb, ?_⟩
    rw [Nat.div_lt_iff_lt_mul (Nat.two_pow_pos _), ← pow_add, Nat.sub_add_cancel hM]
    have := Nat.two_pow_pos b.2
    omega
  obtain ⟨hbM, hbdvd, hbp⟩ := hlt b hb
  obtain ⟨hcM, hcdvd, hcp⟩ := hlt c hc
  intro heq
  obtain ⟨hd, hp⟩ := node_inj hbp hcp heq
  have horder : b.2 = c.2 := by omega
  have hoff : b.1 = c.1 := by
    rw [← Nat.div_mul_cancel hbdvd, ← Nat.div_mul_cancel hcdvd, hp, horder]
  have := Nat.two_pow_pos b.2
  simp only [Apart, horder, hoff] at hapart
  omega

theorem Rep.below_free (hr : Rep h base M t) {n m : ℕ} (hn : h.nodeState n ≠ SPLIT)
    (hm : Below n m) (hne : m ≠ n) : h.nodeState m = FREE := by
  cases hmark : h.nodeState m with
  | FREE => rfl
  | FULL => exact absurd (hr.split_iff.mpr ⟨m, hm, hne, hmark⟩) hn
  | SPLIT =>
      obtain ⟨m', hm', -, hfull⟩ := hr.split_iff.mp hmark
      have hne' : m' ≠ n := by
        rintro rfl
        exact hne (Nat.le_antisymm hm'.le hm.le)
      exact absurd (hr.split_iff.mpr ⟨m', hm.trans hm', hne', hfull⟩) hn

/-- Allocation makes one more node `FULL`: that of the block it returns. -/
theorem Rep.alloc_marks {size : UInt32} {p : ℕ} (hlen : LongEnough len M) (hr : Rep h base M t)
    (halloc : allocMemory len h size = some (p, h')) (hp : p ≠ NULL) (n : ℕ) :
    h'.nodeState n = FULL ↔ n = nodeOf M (blockOf h' p) ∨ h.nodeState n = FULL := by
  rcases allocMemory_cases hr (hlen.admits t size) halloc with
    ⟨rfl, -⟩ | ⟨k, o, t', _, _, htree, rfl, hr'⟩
  · exact absurd rfl hp
  have hperm : (blocks M 0 t').Perm ((o, k) :: blocks M 0 t) := by
    simpa using alloc_blocks 0 htree
  have hmem : (o, k) ∈ blocks M 0 t' := hperm.mem_iff.mpr List.mem_cons_self
  rw [hr'.blockOf_eq hmem, hr'.full_iff, hr.full_iff]
  simp only [hperm.mem_iff, List.mem_cons, or_and_right, exists_or, exists_eq_left, eq_comm]

/-- Release frees one node: that of the block it is given. -/
theorem Rep.free_reaches {b : ℕ × ℕ} (hlen : LongEnough len M) (hr : Rep h base M t)
    (hb : b ∈ blocks M 0 t) : ∃ h', freeMemory len h (base + b.1 + 8) = some h' ∧
      ∀ n, h'.nodeState n = FULL ↔ n ≠ nodeOf M b ∧ h.nodeState n = FULL := by
  obtain ⟨h', heq, hr'⟩ := freeMemory_rep hr hb (hlen.order (hr.order_le b hb))
  have hperm : (blocks M 0 t).Perm (b :: blocks M 0 (BuddyTree.release b.2 M b.1 t)) := by
    simpa using release_blocks (k := b.2) (o := b.1) (t := t) 0 (by simpa using hb)
  refine ⟨h', heq, fun n => ?_⟩
  rw [hr'.full_iff, hr.full_iff]
  constructor
  · rintro ⟨c, hc, rfl⟩
    have hold := hperm.mem_iff.mpr (List.mem_cons_of_mem _ hc)
    have hapart := (List.pairwise_cons.mp (blocks_apart hperm)).1 c hc
    exact ⟨nodeOf_ne hold hb hapart.symm, c, hold, rfl⟩
  · rintro ⟨hne, c, hc, rfl⟩
    rcases List.mem_cons.mp (hperm.mem_iff.mp hc) with rfl | hc
    · exact absurd rfl hne
    · exact ⟨c, hc, rfl⟩

theorem Inv.wellFormed {s : Session Heap} (hlen : LongEnough len M) (hinv : Inv base M s) :
    WellFormed len s := by
  obtain ⟨t, hr, htr⟩ := hinv
  have hperm := hr.blocks_perm htr
  have hlive : ∀ q ∈ s.live, ∃ b ∈ blocks M 0 t, q.1 = base + b.1 + 8 ∧
      blockOf s.heap q.1 = b := by
    intro q hq
    obtain ⟨b, hb, hqb⟩ := htr.mem (List.mem_map_of_mem hq)
    exact ⟨b, hb, hqb, by rw [hqb, hr.blockOf_eq hb]⟩
  refine ⟨?_, ?_, blocks_apart hperm.symm, ?_, fun n => hr.split_iff,
    fun n hn m hm hne => hr.below_free hn hm hne, ?_, ?_, ?_⟩
  · intro q hq
    obtain ⟨b, hb, hqb, hblock⟩ := hlive q hq
    have := blocks_bounds b hb
    rw [hblock, hr.poolBase, hr.poolSize, hdrSize_toNat]
    omega
  · intro q hq
    obtain ⟨b, hb, -, hblock⟩ := hlive q hq
    rw [hblock]
    exact blocks_aligned (dvd_zero _) b hb
  · intro n
    rw [hr.full_iff, hr.maxOrder]
    constructor
    · rintro ⟨b, hb, rfl⟩
      obtain ⟨q, hq, hqb⟩ := htr.mem_live hb
      exact ⟨q, hq, by rw [hqb, hr.blockOf_eq hb]⟩
    · rintro ⟨q, hq, rfl⟩
      obtain ⟨b, hb, -, hblock⟩ := hlive q hq
      exact ⟨b, hb, by rw [hblock]⟩
  · intro size p h' halloc hp n
    rw [hr.maxOrder]
    exact hr.alloc_marks hlen halloc hp n
  · intro q hq
    obtain ⟨b, hb, hqb, hblock⟩ := hlive q hq
    rw [hblock, hqb, hr.maxOrder]
    exact hr.free_reaches hlen hb
  · have hlength : s.live.length = (blocks M 0 t).length := by
      simpa using hperm.length_eq
    have hused := hr.used
    have hfree := hr.free
    rw [hlength, hr.poolSize, hdrSize_toNat]
    omega

/-- The first request takes the start of the pool. -/
theorem first_alloc (size : UInt32) {k : ℕ} (hr : Rep h base M .free) (hsize : size ≠ 0)
    (hk : sizeToOrder size = some k) (hkM : k ≤ M) (hin : InArray len M k) :
    ∃ h', allocMemory len h size = some (base + 8, h') := by
  obtain ⟨t, ht⟩ := alloc_free hkM
  have hspec := allocMemory_rep hr hsize hk (Or.inl hin)
  simp only [ht] at hspec
  obtain ⟨h', heq, -⟩ := hspec
  exact ⟨h', heq⟩

/-- The static variables of the manager before the kernel starts it. -/
def zeroHeap : Heap := ⟨fun _ => 0, NULL, 0, 0, fun _ => FREE, 0, 0⟩

theorem zeroHeap_rep : ∃ h₀, createMemoryManager zeroHeap memoryStart memorySize = some h₀ ∧
    Rep h₀ memoryStart 22 .free := by
  obtain ⟨h₀, hboot, hr⟩ := createMemoryManager_rep (h := zeroHeap)
    (show memoryStart ≠ NULL by decide) (show minBlockSize ≤ memorySize by decide) fun _ => rfl
  rw [show min (Nat.log 2 memorySize.toNat) 22 = 22 by decide] at hr
  exact ⟨h₀, hboot, hr⟩

/-- **Representation invariant of the buddy tree.** After the one creation at
boot, on any pool the manager admits and with a `nodeState` that reaches down
to every order that can be requested, every sequence of allocations that return
and frees of live pointers leaves the heap well formed. -/
theorem tree_wellFormed {bytes : UInt32} {h₀ : Heap} {s : Session Heap} (hbase : base ≠ NULL)
    (hbytes : minBlockSize ≤ bytes) (hzero : ∀ n, h.nodeState n = FREE)
    (hboot : createMemoryManager h base bytes = some h₀) (hlen : LongEnough len h₀.maxOrder)
    (hrun : Reaches (Session.Step (manager len) headersIntact) always ⟨h₀, []⟩ s) :
    WellFormed len s := by
  obtain ⟨h', hboot', hr⟩ := createMemoryManager_rep hbase hbytes hzero
  obtain rfl : h' = h₀ := Option.some.inj (hboot'.symm.trans hboot)
  have hlen' := hlen
  rw [hr.maxOrder] at hlen'
  have hinv : Inv base _ (⟨h', []⟩ : Session Heap) := ⟨.free, hr, by simp [Tracks, blocks]⟩
  exact (hrun.invariant hinv fun _ _ _ hi _ hstep => inv_step hlen' hi hstep).wellFormed hlen'

/-- The tree of the pool, with `t` in the place of its first block of order 8. -/
def above (t : Buddy) : Buddy := (fun t => .split t .free)^[14] t

/-- The requests that lead to a pool with a gap. -/
def fragmenting (r : Request) : Prop := r = .alloc 100 ∨ r = .free (memoryStart + 8)

/-- Two blocks of order 7 are handed out, and the first one is given back. -/
theorem fragmented {len : ℕ} (hlen : InArray len 22 7) (W : Session Heap → ℕ → Prop)
    (ok : Session Heap → Request → Prop) (hok : ∀ s r, fragmenting r → ok s r) {h₀ : Heap}
    (hr : Rep h₀ memoryStart 22 .free) :
    ∃ s, Reaches (Session.Step (manager len) W) ok ⟨h₀, []⟩ s ∧
      s.live = [(memoryStart + 136, 100)] ∧
        Rep s.heap memoryStart 22 (above (.split .free .full)) := by
  have hfirst := allocMemory_rep (k := 7) hr (show (100 : UInt32) ≠ 0 by decide)
    (by decide) (.inl hlen)
  rw [show alloc 7 22 .free = some (0, above (.split .full .free)) by decide] at hfirst
  obtain ⟨h₁, halloc₁, hr₁⟩ := hfirst
  have hsecond := allocMemory_rep (k := 7) hr₁ (show (100 : UInt32) ≠ 0 by decide)
    (by decide) (.inl hlen)
  rw [show alloc 7 22 (above (.split .full .free)) = some (128, above (.split .full .full)) by
    decide] at hsecond
  obtain ⟨h₂, halloc₂, hr₂⟩ := hsecond
  obtain ⟨h₃, hfree, hr₃⟩ := freeMemory_rep (b := (0, 7)) hr₂ (by decide) hlen
  rw [show release 7 22 0 (above (.split .full .full)) = above (.split .free .full) by
    decide] at hr₃
  have hstep₁ : Session.Step (manager len) W ⟨h₀, []⟩ (.alloc 100)
      ⟨h₁, [(memoryStart + 8, 100)]⟩ := .alloc halloc₁ (by decide)
  have hstep₂ : Session.Step (manager len) W ⟨h₁, [(memoryStart + 8, 100)]⟩ (.alloc 100)
      ⟨h₂, [(memoryStart + 136, 100), (memoryStart + 8, 100)]⟩ := .alloc halloc₂ (by decide)
  have hstep₃ :
      Session.Step (manager len) W ⟨h₂, [(memoryStart + 136, 100), (memoryStart + 8, 100)]⟩
      (.free (memoryStart + 8)) ⟨h₃, [(memoryStart + 136, 100)]⟩ := .free (by simp) hfree
  exact ⟨_, (((Reaches.refl _).tail (hok _ _ (.inl rfl)) hstep₁).tail (hok _ _ (.inl rfl))
    hstep₂).tail (hok _ _ (.inr rfl)) hstep₃, rfl, hr₃⟩

/-- The tree is well formed when one of two buddies was given back. -/
theorem tree_wellFormed_fragmented : ∃ s : Session Heap, s.live = [(memoryStart + 136, 100)] ∧
    Rep s.heap memoryStart 22 (above (.split .free .full)) ∧ WellFormed (2 ^ 19 - 1) s := by
  obtain ⟨h₀, hboot, hr⟩ := zeroHeap_rep
  have hlong : LongEnough (2 ^ 19 - 1) 22 := le_refl _
  obtain ⟨s, hrun, hlive, hr'⟩ := fragmented (hlong.order (by decide)) headersIntact always
    (fun _ _ _ => trivial) hr
  rw [← hr.maxOrder] at hlong
  exact ⟨s, hlive, hr', tree_wellFormed (by decide) (by decide) (fun _ => rfl) hboot hlong hrun⟩

end BareKernel.BuddyManager
