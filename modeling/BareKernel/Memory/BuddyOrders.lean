import BareKernel.Memory.ClientContract
import Mathlib.Tactic.IntervalCases

/-!
# Orders and the array of marks

`size_to_order` finds the least order that holds a request with its header, as long as
the 32-bit sum does not wrap and some shift reaches it. Its constant is
`MIN_BLOCK_SIZE`, that is order 4, while the nodes of the tree end at order 5.
-/

namespace BareKernel.BuddyManager

open ByteMemory BuddyTree ImplicitTree Runs
open NodeState

/-! ## The loop -/

/-- A shift counts modulo 32, so no block is larger than `2^31`. -/
theorem orderSize_le (n : ℕ) : (orderSize n).toNat ≤ 2 ^ 31 := by
  have hlow : n % 2 ^ 32 % 32 ≤ 31 := by omega
  have hpow : 2 ^ (n % 2 ^ 32 % 32) ≤ 2 ^ 31 := Nat.pow_le_pow_right (by norm_num) hlow
  rw [orderSize, UInt32.toNat_shiftLeft, UInt32.toNat_ofNat', UInt32.toNat_one,
    Nat.shiftLeft_eq, one_mul, Nat.mod_eq_of_lt]
  · exact hpow
  · exact lt_of_le_of_lt hpow (Nat.pow_lt_pow_right (by norm_num) (by norm_num))

/-- **The loop does not end** for what no shift reaches. -/
theorem orderFrom_spins {need : UInt32} (h : 2 ^ 31 < need.toNat) :
    ∀ rounds ord, orderFrom need rounds ord = none
  | 0, _ => rfl
  | rounds + 1, ord => by
      have hless : orderSize ord < need := by
        rw [UInt32.lt_iff_toNat_lt]
        exact lt_of_le_of_lt (orderSize_le ord) h
      rw [orderFrom, if_pos hless]
      exact orderFrom_spins h rounds (ord + 1)

/-- What the loop looks for, when the sum does not wrap. -/
theorem need_toNat {userSize : UInt32} (h : userSize.toNat ≤ 2 ^ 32 - 16) :
    (align userSize + hdrSize).toNat = (userSize.toNat + 7) / 8 * 8 + 8 := by
  rw [UInt32.toNat_add, align_toNat, hdrSize_toNat]
  omega

/-- A request that wraps is taken for a small one. -/
theorem sizeToOrder_wraps {userSize : UInt32} (h : 2 ^ 32 - 16 < userSize.toNat) :
    sizeToOrder userSize = some 5 := by
  have hsmall : align userSize + hdrSize = 0 ∨ align userSize + hdrSize = 8 := by
    have hlt := userSize.toNat_lt
    have hsum : (align userSize + hdrSize).toNat = 0 ∨ (align userSize + hdrSize).toNat = 8 := by
      rw [UInt32.toNat_add, align_toNat, hdrSize_toNat]
      omega
    rcases hsum with hsum | hsum
    · exact .inl (UInt32.toNat_inj.mp hsum)
    · exact .inr (UInt32.toNat_inj.mp hsum)
  unfold sizeToOrder
  rcases hsmall with hsmall | hsmall
  · rw [hsmall]
    decide
  · rw [hsmall]
    decide

/-- Requests of nine bytes or more get blocks of 32 bytes or more. -/
theorem sizeToOrder_five {userSize : UInt32} {k : ℕ} (hnine : 9 ≤ userSize.toNat)
    (h : sizeToOrder userSize = some k) : 5 ≤ k := by
  by_cases hwrap : userSize.toNat ≤ 2 ^ 32 - 16
  · have hne : userSize ≠ 0 := by
      rintro rfl
      exact absurd hnine (by decide)
    exact (sizeToOrder_spec hne h).2.2.2 hnine hwrap
  · rw [sizeToOrder_wraps (by omega)] at h
    exact (Option.some.inj h).le

/-- Requests of up to eight bytes get blocks of 16 bytes. -/
theorem sizeToOrder_four {userSize : UInt32} (hne : userSize ≠ 0) (h : userSize.toNat < 9) :
    sizeToOrder userSize = some 4 := by
  have hpos : 0 < userSize.toNat := by
    by_contra hzero
    exact hne (UInt32.toNat_inj.mp (by rw [UInt32.toNat_zero]; omega))
  have hneed : align userSize + hdrSize = 16 := by
    apply UInt32.toNat_inj.mp
    rw [need_toNat (by omega)]
    change _ = 16
    omega
  unfold sizeToOrder
  rw [hneed]
  decide

/-! ## The order of a request -/

/-- The order is admissible, it holds the request with its header, and no smaller
admissible order does. -/
structure RightOrder (userSize : UInt32) (k : ℕ) : Prop where
  admissible : minBlockSize ≤ orderSize k
  holds : userSize.toNat + hdrSize.toNat ≤ 2 ^ k
  least : ∀ j < k, minBlockSize ≤ orderSize j → 2 ^ j < userSize.toNat + hdrSize.toNat

/-- `allocMemory` turns the request down, whatever the heap. -/
def Rejected (userSize : UInt32) : Prop :=
  ∀ len h, allocMemory len h userSize = some (NULL, h)

/-- A heap after boot, on a pool that the manager takes. -/
structure Booted (h₀ : Heap) (base : ℕ) (bytes : UInt32) : Prop where
  base_ne : base ≠ NULL
  enough : minBlockSize ≤ bytes
  created : ∃ h, (∀ n, h.nodeState n = FREE) ∧ createMemoryManager h base bytes = some h₀

/-- The loop ends, with the right order or for a request that is turned down, and the
call returns on every heap that was ever reached. -/
structure Sized (userSize : UInt32) : Prop where
  ends : ∃ rounds, (orderFrom (align userSize + hdrSize) rounds 0).isSome
  order : (∃ k, sizeToOrder userSize = some k ∧ RightOrder userSize k) ∨ Rejected userSize
  returns : ∀ h₀ base bytes len s, Booted h₀ base bytes → LongEnough len h₀.maxOrder →
    Reaches (Session.Step (manager len) headersIntact) always ⟨h₀, []⟩ s →
      (allocMemory len s.heap userSize).isSome

variable {len base M : ℕ} {h h₀ : Heap} {bytes : UInt32} {s s' : Session Heap} {t : Buddy}

theorem Booted.rep (hboot : Booted h₀ base bytes) :
    Rep h₀ base (min (Nat.log 2 bytes.toNat) 22) .free := by
  obtain ⟨h, hzero, hcreate⟩ := hboot.created
  obtain ⟨h', hcreate', hr⟩ := createMemoryManager_rep hboot.base_ne hboot.enough hzero
  obtain rfl : h' = h₀ := Option.some.inj (hcreate'.symm.trans hcreate)
  exact hr

/-- Every heap that was ever reached represents a tree, and the clients hold its blocks. -/
theorem Booted.inv (hboot : Booted h₀ base bytes) (hlen : LongEnough len h₀.maxOrder)
    (hrun : Reaches (Session.Step (manager len) headersIntact) always ⟨h₀, []⟩ s) :
    Inv base h₀.maxOrder s := by
  have hr := hboot.rep
  rw [← hr.maxOrder] at hr
  have hstart : Inv base h₀.maxOrder (⟨h₀, []⟩ : Session Heap) :=
    ⟨.free, hr, by simp [Tracks, blocks]⟩
  exact hrun.invariant hstart fun _ _ _ hi _ hstep => inv_step hlen hi hstep

theorem rightOrder {userSize : UInt32} {k : ℕ} (hne : userSize ≠ 0)
    (hle : userSize.toNat ≤ 2 ^ 32 - 16) (h : sizeToOrder userSize = some k) :
    RightOrder userSize k := by
  obtain ⟨hfour, hlt, hholds, -⟩ := sizeToOrder_spec hne h
  have hlow : 2 ^ 4 ≤ 2 ^ k := Nat.pow_le_pow_right (by norm_num) hfour
  refine ⟨?_, ?_, fun j hj hmin => ?_⟩
  · rw [UInt32.le_iff_toNat_le, minBlockSize_toNat, orderSize_toNat hlt]
    exact hlow
  · rw [hdrSize_toNat]
    exact hholds hle
  · obtain ⟨ord, hord, hk⟩ := Option.map_eq_some_iff.mp h
    obtain ⟨hordlt, hneed, hbelow⟩ := orderFrom_spec (by norm_num) hord
    rw [UInt32.le_iff_toNat_le, minBlockSize_toNat, orderSize_toNat (by omega)] at hmin
    simp only [UInt32.lt_iff_toNat_lt, orderSize_toNat hordlt, minBlockSize_toNat] at hk
    rw [need_toNat hle] at hneed hbelow
    rw [hdrSize_toNat]
    have hpos : 0 < userSize.toNat := by
      by_contra hzero
      exact hne (UInt32.toNat_inj.mp (by rw [UInt32.toNat_zero]; omega))
    split at hk
    · omega
    · subst hk
      have hless := hbelow j (Nat.zero_le j) hj
      -- blocks are multiples of 8, so between the request and its rounding there is none
      have hthree : 3 ≤ j := by
        by_contra hsmall
        have hup := Nat.pow_le_pow_right (n := 2) (by norm_num) (show j ≤ 3 by omega)
        omega
      obtain ⟨c, hc⟩ : 8 ∣ 2 ^ j := pow_dvd_pow 2 hthree
      omega

/-- No shift reaches what the loop looks for. -/
theorem not_sized_spins {userSize : UInt32} (hlarge : 2 ^ 31 - 8 < userSize.toNat)
    (hwrap : userSize.toNat ≤ 2 ^ 32 - 16) : ¬Sized userSize := by
  intro hsized
  obtain ⟨rounds, hends⟩ := hsized.ends
  have hneed := need_toNat hwrap
  rw [orderFrom_spins (by omega)] at hends
  exact absurd hends (by simp)

/-- A small block is given for a request of almost all memory. -/
theorem not_sized_wraps {userSize : UInt32} (hwrap : 2 ^ 32 - 16 < userSize.toNat) :
    ¬Sized userSize := by
  intro hsized
  have hfive := sizeToOrder_wraps hwrap
  rcases hsized.order with ⟨k, hk, horder⟩ | hrejected
  · obtain rfl : 5 = k := Option.some.inj (hfive.symm.trans hk)
    have hholds := horder.holds
    omega
  · obtain ⟨h₀, -, hr⟩ := zeroHeap_rep
    have hne : userSize ≠ 0 := by
      rintro rfl
      exact absurd hwrap (by decide)
    obtain ⟨h', halloc⟩ := first_alloc userSize hr hne hfive (by decide)
      (inArray_five (le_refl _) (by decide))
    rw [hrejected, Option.some.injEq, Prod.mk.injEq] at halloc
    exact absurd halloc.1 (by decide)

/-- **`size_to_order` is right** for the sizes up to `2^31 - 8`, and for no other. -/
theorem sizeToOrder_right (userSize : UInt32) :
    Sized userSize ↔ userSize.toNat ≤ 2 ^ 31 - 8 := by
  constructor
  · intro hsized
    by_contra hlarge
    by_cases hwrap : userSize.toNat ≤ 2 ^ 32 - 16
    · exact not_sized_spins (by omega) hwrap hsized
    · exact not_sized_wraps (by omega) hsized
  · intro hle
    obtain ⟨k, hk⟩ := Option.isSome_iff_exists.mp (sizeToOrder_isSome hle)
    refine ⟨⟨32, ?_⟩, ?_, fun h₀ base bytes len s hboot hlen hrun => ?_⟩
    · obtain ⟨ord, hord, -⟩ := Option.map_eq_some_iff.mp hk
      rw [hord]
      rfl
    · by_cases hne : userSize = 0
      · right
        intro len h
        rw [allocMemory, if_pos (.inr hne)]
      · exact .inl ⟨k, hk, rightOrder hne (by omega) hk⟩
    · obtain ⟨t, hr, -⟩ := hboot.inv hlen hrun
      exact allocMemory_isSome hr (hlen.admits t userSize) hle

/-- `malloc(INT_MIN)` never returns, and `malloc(-1)` gets 32 bytes. -/
theorem malloc_negative : (¬Sized 0x80000000 ∧ ¬Sized 0xFFFFFFFF) ∧
    (∀ rounds, orderFrom (align 0x80000000 + hdrSize) rounds 0 = none) ∧
      sizeToOrder 0xFFFFFFFF = some 5 :=
  ⟨⟨not_sized_spins (by decide) (by decide), not_sized_wraps (by decide)⟩,
    fun rounds => orderFrom_spins (by decide) rounds 0, by decide⟩

/-! ## The nodes of the tree -/

/-- The number of nodes that `createMemoryManager` sets to `FREE`. -/
def treeNodes (h : Heap) : ℕ := ((1 <<< (UInt32.ofNat h.maxOrder - 5 + 1)) - 1 : UInt32).toNat

/-- Every node that the call reads or writes is one that was set at boot. -/
def InTree (s : Session Heap) : Request → Prop
  | .alloc size => (sizeToOrder size).isSome → (allocMemory (treeNodes s.heap) s.heap size).isSome
  | .free p => p ∈ s.live.map Prod.fst → (freeMemory (treeNodes s.heap) s.heap p).isSome
  | .write _ => True

/-- Nothing is requested, or at least nine bytes are, or there is nothing to be had. -/
def reachesTree (s : Session Heap) : Request → Prop
  | .alloc size => size = 0 ∨ 9 ≤ size.toNat ∨ s.heap.freeBytes = 0
  | _ => True

/-- The tree ends at nodes of order 5. -/
theorem treeNodes_eq (hM : h.maxOrder = M) (hlow : 4 ≤ M) (hhigh : M ≤ 22) :
    treeNodes h = 2 ^ (M - 4) - 1 := by
  unfold treeNodes
  rw [hM]
  interval_cases M <;> decide

theorem InArray.mono {k k' : ℕ} (h : InArray len M k) (hk : k ≤ k') : InArray len M k' := by
  have hle : 2 ^ (M - k' + 1) ≤ 2 ^ (M - k + 1) := Nat.pow_le_pow_right (by norm_num) (by omega)
  unfold InArray at *
  omega

theorem inArray_treeNodes {k : ℕ} (hr : Rep h base M t) (hk : 5 ≤ k) (hkM : k ≤ M) :
    InArray (treeNodes h) M k := by
  have hfive : InArray (treeNodes h) M 5 := by
    rw [InArray, treeNodes_eq hr.maxOrder (by omega) hr.maxOrder_le]
    exact le_of_eq (by rw [show M - 5 + 1 = M - 4 by omega])
  exact hfive.mono hk

/-- **A search for a block of order 4 leaves the tree** at the first free place. -/
theorem allocRec_leaves (hin : 5 ≤ M → InArray len M 5) (hout : len ≤ 2 ^ (M - 4) - 1) :
    ∀ {ord d p : ℕ} {nodeState : ℕ → NodeState} {t : Buddy} (off : ℕ), d + ord = M → 4 ≤ ord →
      p < 2 ^ d → WF ord t → Shows nodeState (node d p) t →
      (∀ b ∈ blocks ord off t, 5 ≤ b.2) → ¬Exhausted t →
        allocRec len M 4 ord (node d p) nodeState = none := by
  intro ord d p nodeState t off hd hord hp hwf hshows hblocks hex
  obtain rfl | hne := eq_or_ne ord 4
  · -- such a node lies behind the array
    have hdepth : M - 4 = d := by omega
    have hle : len ≤ node d p := by
      rw [hdepth] at hout
      exact hout.trans (Nat.le_add_right _ _)
    rw [allocRec.eq_def, if_pos hle]
  cases ord with
  | zero => omega
  | succ ord =>
      have hfive : 5 ≤ M := by omega
      have hnode := (hin hfive).node hp (by omega)
      have hpl : 2 * p < 2 ^ (d + 1) := by rw [pow_succ]; omega
      have hpr : 2 * p + 1 < 2 ^ (d + 1) := by rw [pow_succ]; omega
      cases t with
      | full => exact absurd trivial hex
      | free =>
          have hroot : nodeState (node d p) = FREE := hshows.root
          have hleft : Shows (Function.update nodeState (node d p) SPLIT)
              (node (d + 1) (2 * p)) .free := by
            rw [← node_left]
            exact hshows.left_free.update_left SPLIT
          have ih := allocRec_leaves hin hout 0 (by omega) (by omega) hpl (wf_free ord) hleft
            (by simp [blocks]) not_false
          rw [← node_left] at ih
          rw [allocRec_descend hnode (by simp [hroot]) hne, hroot, if_pos rfl, ih]
      | split l r =>
          obtain ⟨hroot, hl, hr⟩ := hshows
          obtain ⟨hwl, hwr, -⟩ := hwf
          rw [blocks] at hblocks
          rw [node_left] at hl
          rw [node_right] at hr
          rw [allocRec_descend hnode (by simp [hroot]) hne, hroot, if_neg (by simp), node_left,
            node_right]
          by_cases hexl : Exhausted l
          · have hfull : allocRec len M 4 ord (node (d + 1) (2 * p)) nodeState =
                some (none, nodeState) := allocRec_exhausted off (by omega) hpl hwl hl hexl
              fun b hb => (hin hfive).mono (hblocks b (List.mem_append_left _ hb))
            have ih := allocRec_leaves hin hout (off + 2 ^ ord) (by omega) (by omega) hpr hwr hr
              (fun b hb => hblocks b (List.mem_append_right _ hb)) fun hexr => hex ⟨hexl, hexr⟩
            simp only [hfull, ih]
          · have ih := allocRec_leaves hin hout off (by omega) (by omega) hpl hwl hl
              (fun b hb => hblocks b (List.mem_append_left _ hb)) hexl
            simp only [ih]

/-- An order above that of the pool is turned down without a look at the marks. -/
theorem allocMemory_large {size : UInt32} {k : ℕ} (hr : Rep h base M t)
    (hk : sizeToOrder size = some k) (hkM : M < k) : allocMemory len h size = some (NULL, h) := by
  rw [allocMemory]
  split
  · rfl
  · simp only [hk]
    rw [if_pos (hr.maxOrder ▸ hkM)]

/-- The clients hold the blocks of a tree whose blocks all have nodes. -/
def Rooted (base M : ℕ) (s : Session Heap) : Prop :=
  ∃ t, Rep s.heap base M t ∧ Tracks base M s.live t ∧ ∀ b ∈ blocks M 0 t, 5 ≤ b.2

theorem rooted_step {r : Request} (hs : Rooted base M s) (hok : reachesTree s r)
    (hstep : Session.Step (manager nodeStateLength) headersIntact s r s') : Rooted base M s' := by
  obtain ⟨t, hr, htr, hfive⟩ := hs
  have hM := hr.maxOrder_le
  have hreq : ∀ size, r = .alloc size → Admits nodeStateLength M t size := by
    rintro size rfl hne k hk
    rcases hok with rfl | hnine | hzero
    · exact absurd rfl hne
    · exact .inl (inArray_five hM (sizeToOrder_five hnine hk))
    · exact .inr ⟨hr.exhausted hzero, fun b hb => inArray_five hM (hfive b hb)⟩
  rcases step_cases hr htr htr.intact (fun b hb => inArray_five hM (hfive b hb)) hreq hstep with
    ⟨hlive, hr'⟩ | ⟨size, k, o, t', rfl, hne, hk, htree, hlive, hr'⟩ | ⟨b, hb, -, hlive, hr'⟩
  · exact ⟨t, hr', hlive ▸ htr, hfive⟩
  · refine ⟨t', hr', hlive ▸ htr.alloc size htree, fun b hb => ?_⟩
    have hperm : (blocks M 0 t').Perm ((o, k) :: blocks M 0 t) := by
      simpa using alloc_blocks 0 htree
    rcases List.mem_cons.mp (hperm.mem_iff.mp hb) with rfl | hb
    · rcases hok with rfl | hnine | hzero
      · exact absurd rfl hne
      · exact sizeToOrder_five hnine hk
      · rw [alloc_exhausted (hr.exhausted hzero)] at htree
        cases htree
    · exact hfive b hb
  · have hperm : (blocks M 0 t).Perm (b :: blocks M 0 (BuddyTree.release b.2 M b.1 t)) := by
      simpa using release_blocks (k := b.2) (o := b.1) (t := t) 0 (by simpa using hb)
    exact ⟨_, hr', hlive ▸ htr.release hb,
      fun c hc => hfive c (hperm.mem_iff.mpr (List.mem_cons_of_mem _ hc))⟩

/-- Where blocks all have nodes, a call stays in the tree exactly when it is admitted. -/
theorem Rooted.inTree {r : Request} (hs : Rooted base M s) (hlow : 4 ≤ M) :
    InTree s r ↔ reachesTree s r := by
  obtain ⟨t, hr, htr, hfive⟩ := hs
  have hblocks : ∀ b ∈ blocks M 0 t, InArray (treeNodes s.heap) M b.2 :=
    fun b hb => inArray_treeNodes hr (hfive b hb) (blocks_bounds b hb).1
  cases r with
  | write m => exact Iff.rfl
  | free p =>
      refine ⟨fun _ => trivial, fun _ hp => ?_⟩
      obtain ⟨b, hb, rfl⟩ := htr.mem hp
      obtain ⟨h', hfree, -⟩ := freeMemory_rep hr hb (hblocks b hb)
      rw [hfree]
      rfl
  | alloc size =>
      constructor
      · intro hin
        by_contra hno
        simp only [reachesTree, not_or] at hno
        obtain ⟨hne, hsmall, hfree⟩ := hno
        have hk := sizeToOrder_four hne (by omega)
        have hnot : ¬Exhausted t := by
          intro hex
          have hbytes : bytes (blocks M 0 t) = 2 ^ M := bytes_of_exhausted hr.wf hex
          have hsum := hr.free
          apply hfree
          apply UInt32.toNat_inj.mp
          rw [UInt32.toNat_zero]
          omega
        have hshows : Shows s.heap.nodeState (node 0 0) t := hr.shows
        have hnone : allocRec (treeNodes s.heap) M 4 M 0 s.heap.nodeState = none :=
          allocRec_leaves (fun hM => inArray_treeNodes hr (le_refl 5) hM)
            (treeNodes_eq hr.maxOrder hlow hr.maxOrder_le).le 0 (Nat.zero_add M) hlow (by norm_num)
            hr.wf hshows hfive hnot
        have hin := hin (by rw [hk]; rfl)
        rw [allocMemory, if_neg (by simp only [hr.poolBase, hr.base_ne, hne, or_self,
          not_false_eq_true]), hk] at hin
        simp only [hr.maxOrder, hnone] at hin
        rw [if_neg (Nat.not_lt.mpr hlow)] at hin
        exact absurd hin (by simp)
      · intro hok hsome
        obtain ⟨k, hk⟩ := Option.isSome_iff_exists.mp hsome
        by_cases hne : size = 0
        · rw [allocMemory, if_pos (.inr hne)]
          rfl
        by_cases hkM : k ≤ M
        · have hin : InArray (treeNodes s.heap) M k ∨
              Exhausted t ∧ ∀ b ∈ blocks M 0 t, InArray (treeNodes s.heap) M b.2 := by
            rcases hok with hzero | hnine | hzero
            · exact absurd hzero hne
            · exact .inl (inArray_treeNodes hr (sizeToOrder_five hnine hk) hkM)
            · exact .inr ⟨hr.exhausted hzero, hblocks⟩
          have hspec := allocMemory_rep hr hne hk hin
          cases htree : BuddyTree.alloc k M t with
          | none =>
              simp only [htree] at hspec
              rw [hspec]
              rfl
          | some place =>
              simp only [htree] at hspec
              obtain ⟨h', halloc, -⟩ := hspec
              rw [halloc]
              rfl
        · rw [allocMemory_large hr hk (by omega)]
          rfl

/-- **Accesses stay in the tree** in every run whose requests are of nothing, or of at
least nine bytes, or find the pool full; and in no other request then. -/
theorem tree_accesses (h₀ : Heap) (base : ℕ) (bytes : UInt32) (s : Session Heap)
    (hboot : Booted h₀ base bytes)
    (hrun : Reaches (Session.Step (manager nodeStateLength) headersIntact) reachesTree
      ⟨h₀, []⟩ s) :
    (∀ r, InTree s r ↔ reachesTree s r) ∧ treeNodes s.heap ≤ nodeStateLength := by
  have hr := hboot.rep
  have hlow : 4 ≤ min (Nat.log 2 bytes.toNat) 22 := by
    have henough := hboot.enough
    rw [UInt32.le_iff_toNat_le, minBlockSize_toNat] at henough
    have hlog := Nat.log_mono_right (b := 2) henough
    rw [show Nat.log 2 16 = 4 by decide] at hlog
    omega
  have hstart : Rooted base (min (Nat.log 2 bytes.toNat) 22) (⟨h₀, []⟩ : Session Heap) :=
    ⟨.free, hr, by simp [Tracks, blocks], by simp [blocks]⟩
  have hrooted := hrun.invariant hstart fun _ _ _ hi hok hstep => rooted_step hi hok hstep
  refine ⟨fun r => hrooted.inTree hlow, ?_⟩
  obtain ⟨t, hr', -⟩ := hrooted
  have hM := hr'.maxOrder_le
  have hle : 2 ^ (min (Nat.log 2 bytes.toNat) 22 - 4) ≤ 2 ^ 18 :=
    Nat.pow_le_pow_right (by norm_num) (by omega)
  rw [treeNodes_eq hr'.maxOrder hlow hM, nodeStateLength_eq]
  omega

/-- One block of 100 bytes. -/
theorem tree_accesses_fragmented : ∃ s : Session Heap, s.live = [(memoryStart + 136, 100)] ∧
    (∀ r, InTree s r ↔ reachesTree s r) ∧ treeNodes s.heap ≤ nodeStateLength := by
  obtain ⟨h₀, hcreate, hr⟩ := zeroHeap_rep
  obtain ⟨s, hrun, hlive, -⟩ := fragmented (inArray_five (le_refl _) (by decide)) headersIntact
    reachesTree (by rintro s r (rfl | rfl); exacts [.inr (.inl (by decide)), trivial]) hr
  exact ⟨s, hlive, tree_accesses h₀ memoryStart memorySize s
    ⟨by decide, by decide, zeroHeap, fun _ => rfl, hcreate⟩ hrun⟩

/-- **Eight bytes are too few.** On the kernel's pool the search goes on to nodes of
order 4, behind the tree and behind the array. -/
theorem small_request_leaves : ∃ h₀, createMemoryManager zeroHeap memoryStart memorySize =
    some h₀ ∧ sizeToOrder 8 = some 4 ∧ treeNodes h₀ = nodeStateLength ∧
      ¬InTree ⟨h₀, []⟩ (.alloc 8) := by
  obtain ⟨h₀, hcreate, hr⟩ := zeroHeap_rep
  have hrooted : Rooted memoryStart 22 (⟨h₀, []⟩ : Session Heap) :=
    ⟨.free, hr, by simp [Tracks, blocks], by simp [blocks]⟩
  refine ⟨h₀, hcreate, by decide, ?_, fun hin => ?_⟩
  · rw [treeNodes_eq hr.maxOrder (by decide) (by decide), nodeStateLength_eq]
  · have hfree := hr.free
    rcases (hrooted.inTree (by decide)).mp hin with hzero | hnine | hfull
    · exact absurd hzero (by decide)
    · exact absurd hnine (by decide)
    · rw [hfull] at hfree
      simp [blocks] at hfree

end BareKernel.BuddyManager
