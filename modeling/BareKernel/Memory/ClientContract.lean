import BareKernel.Memory.NaiveRuns
import BareKernel.Memory.BuddyRuns

/-!
# The contract of the heap with its clients

Both managers on the kernel's 4 MiB pool, with clients that write only to the
bytes they asked for. The naive manager keeps the contract as long as
`ALIGN(size)` does not wrap. The buddy manager also adds its header to the
aligned size, and its array of marks stops at blocks of 32 bytes, so it needs
requests of at least 9 bytes.
-/

namespace BareKernel

open ByteMemory Runs

/-! ## The naive manager -/

namespace NaiveManager

open BlockList (Seg used)

/-- The bytes of the headers on the list. -/
def metadata (h : Heap) (a : ℕ) : Prop :=
  ∃ blocks, walk h.mem h.fuel h.firstBlock = some blocks ∧
    ∃ b ∈ blocks, b ≤ a ∧ a < b + blockHeaderSize.toNat

/-- Requests that are rounded up, not wrapped, or that find no free block. -/
def noWrap (s : Session Heap) : Request → Prop
  | .alloc size => size.toNat ≤ 2 ^ 32 - 8 ∨
      ∀ blocks, walk s.heap.mem s.heap.fuel s.heap.firstBlock = some blocks →
        ∀ b ∈ blocks, isFree s.heap.mem b = false
  | _ => True

/-- Every client got at least what it asked for. -/
def Fits (live : List (ℕ × UInt32)) (bs : List Seg) : Prop :=
  ∀ q ∈ live, ∃ b ∈ bs, b.free = false ∧ q.1 = b.addr + 24 ∧ q.2.toNat ≤ b.size

def Covered (P : Pool) (s : Session Heap) : Prop :=
  ∃ bs, Rep s.heap P bs ∧ Tracks s.live bs ∧ Fits s.live bs

/-- Blocks in use that stay in use keep their clients covered. -/
theorem Fits.mono {live live' : List (ℕ × UInt32)} {bs cs : List Seg} (h : Fits live bs)
    (hsub : ∀ q ∈ live', q ∈ live)
    (hkeep : ∀ q ∈ live', ∀ b ∈ used bs, q.1 = b.addr + 24 → b ∈ used cs) : Fits live' cs := by
  intro q hq
  obtain ⟨b, hb, hfree, hqb, hsize⟩ := h q (hsub q hq)
  have hmem := hkeep q hq b (BlockList.mem_used.mpr ⟨hb, hfree⟩) hqb
  exact ⟨b, (BlockList.mem_used.mp hmem).1, hfree, hqb, hsize⟩

theorem Rep.walk_eq {h : Heap} {P : Pool} {bs : List Seg} (hr : Rep h P bs) :
    walk h.mem h.fuel h.firstBlock = some (bs.map Seg.addr) :=
  hr.wellFormed.walk_eq

/-- A request that does not wrap gets a block of at least its size. -/
theorem Rep.noWrap_size {s : Session Heap} {P : Pool} {bs : List Seg} {b : Seg} {sz : UInt32}
    (hr : Rep s.heap P bs) (hb : b ∈ bs) (hfree : b.free = true)
    (hok : noWrap s (.alloc sz)) : sz.toNat ≤ (align sz).toNat := by
  rcases hok with hle | hnone
  · exact le_align hle
  · have hused := hnone _ hr.walk_eq b.addr (List.mem_map_of_mem hb)
    rw [(hr.linked.header b hb).2, hfree] at hused
    cases hused

theorem covered_step {P : Pool} {s t : Session Heap} {r : Request} (hc : Covered P s)
    (hok : noWrap s r) (hstep : Session.Step manager Session.requested s r t) : Covered P t := by
  obtain ⟨bs, hr, htr, hfits⟩ := hc
  have hwrite : ∀ a, s.requested a → ∀ b ∈ bs, ¬(b.addr ≤ a ∧ a < b.addr + 24) := by
    rintro a ⟨q, hq, hqa, hqa'⟩ c hc
    obtain ⟨b, hb, -, hqb, hsize⟩ := hfits q hq
    exact hr.data_apart hb hc (by omega) (by omega)
  rcases step_cases hr htr hwrite hstep with ⟨hlive, hr'⟩ |
    ⟨pre, b, post, sz, rfl, hfree, hreq, rfl, hlive, hr'⟩ | ⟨b, hb, hused, -, hlive, hr'⟩
  · exact ⟨bs, hr', hlive ▸ htr, hlive ▸ hfits⟩
  · refine ⟨_, hr', hlive ▸ htr.alloc hfree, ?_⟩
    have hsz := hr.noWrap_size (by simp) hfree hok
    rw [hlive]
    intro q hq
    rcases List.mem_cons.mp hq with rfl | hq
    · have hmem : BlockList.taken 24 8 (align sz).toNat b ∈
          used (pre ++ (BlockList.carve 24 8 (align sz).toNat b ++ post)) := by
        rw [BlockList.used_append_carve]
        simp
      exact ⟨_, (BlockList.mem_used.mp hmem).1, rfl, rfl,
        le_trans hsz (BlockList.le_taken_size hreq)⟩
    · refine hfits.mono (fun _ h => h) (fun _ _ c hc _ => ?_) q hq
      rw [BlockList.used_append_free hfree] at hc
      rw [BlockList.used_append_carve]
      rcases List.mem_append.mp hc with hc | hc
      · exact List.mem_append_left _ hc
      · exact List.mem_append_right _ (List.mem_cons_of_mem _ hc)
  · refine ⟨_, hr', hlive ▸ htr.release b.addr, ?_⟩
    rw [hlive]
    refine hfits.mono (fun q hq => List.mem_of_mem_filter hq) fun q hq c hc hqc => ?_
    rw [BlockList.used_release, List.mem_filter]
    have hne := (List.mem_filter.mp hq).2
    simp only [ne_eq, decide_eq_true_eq] at hne ⊢
    exact ⟨hc, by omega⟩

theorem Tracks.nodup {live : List (ℕ × UInt32)} {P : Pool} {h : Heap} {bs : List Seg}
    (hr : Rep h P bs) (htr : Tracks live bs) : (live.map Prod.fst).Nodup := by
  rw [htr.nodup_iff]
  refine List.Pairwise.map _ (fun _ _ h => h) ?_
  refine (hr.tiles.pairwise.filter _).imp ?_
  intro b c hbc
  unfold Seg.stop at hbc
  omega

/-- Clients that are covered have what the contract promises. -/
theorem Covered.sound {P : Pool} {s : Session Heap} (hc : Covered P s) :
    s.Sound P.base P.bytes.toNat (metadata s.heap) := by
  obtain ⟨bs, hr, htr, hfits⟩ := hc
  refine ⟨?_, ?_, ?_⟩
  · intro q hq
    obtain ⟨b, hb, -, hqb, hsize⟩ := hfits q hq
    obtain ⟨hlo, hhi⟩ := hr.tiles.bounds b hb
    unfold Seg.stop Pool.stop at hhi
    omega
  · refine List.Pairwise.imp_of_mem ?_ (List.pairwise_map.mp (htr.nodup hr))
    intro q q' hq hq' hne
    obtain ⟨b, hb, -, hqb, hsize⟩ := hfits q hq
    obtain ⟨c, hc, -, hqc, hsize'⟩ := hfits q' hq'
    rcases hr.tiles.apart hb hc with rfl | h | h
    · omega
    all_goals
      unfold Seg.stop at h
      omega
  · rintro a ⟨q, hq, hqa, hqa'⟩ ⟨blocks, hwalk, c, hc, hca, hca'⟩
    obtain ⟨b, hb, -, hqb, hsize⟩ := hfits q hq
    obtain rfl : bs.map Seg.addr = blocks := Option.some.inj (hr.walk_eq.symm.trans hwalk)
    obtain ⟨d, hd, rfl⟩ := List.mem_map.mp hc
    rw [blockHeaderSize_toNat] at hca'
    exact hr.data_apart hb hd (by omega) (by omega) ⟨hca, hca'⟩

end NaiveManager

/-! ## The buddy manager -/

namespace BuddyManager

open BuddyTree

/-- The bytes of the headers of live blocks; the marks are not in the pool. -/
def metadata (s : Session Heap) (a : ℕ) : Prop :=
  ∃ q ∈ s.live, q.1 - hdrSize.toNat ≤ a ∧ a < q.1

/-- Requests whose block has an entry in `nodeState` and holds the request
with its header, or that meet an exhausted pool. -/
def noWrap (s : Session Heap) : Request → Prop
  | .alloc size => size = 0 ∨ (9 ≤ size.toNat ∧ size.toNat ≤ 2 ^ 32 - 16) ∨ s.heap.freeBytes = 0
  | _ => True

/-- Every client got at least what it asked for. -/
def Fits (base M : ℕ) (live : List (ℕ × UInt32)) (t : Buddy) : Prop :=
  ∀ q ∈ live, ∃ b ∈ blocks M 0 t, q.1 = base + b.1 + 8 ∧ q.2.toNat + 8 ≤ 2 ^ b.2

def Covered (base M : ℕ) (s : Session Heap) : Prop :=
  ∃ t, Rep s.heap base M t ∧ Tracks base M s.live t ∧ (∀ b ∈ blocks M 0 t, 5 ≤ b.2) ∧
    Fits base M s.live t

variable {base M : ℕ} {t t' : Buddy}

theorem Fits.mono {live live' : List (ℕ × UInt32)} (h : Fits base M live t)
    (hsub : ∀ q ∈ live', q ∈ live)
    (hkeep : ∀ q ∈ live', ∀ b ∈ blocks M 0 t, q.1 = base + b.1 + 8 → b ∈ blocks M 0 t') :
    Fits base M live' t' := by
  intro q hq
  obtain ⟨b, hb, hqb, hsize⟩ := h q (hsub q hq)
  exact ⟨b, hkeep q hq b hb hqb, hqb, hsize⟩

/-- The declared array reaches down to blocks of order 5. -/
theorem inArray_five {k : ℕ} (hM : M ≤ 22) (hk : 5 ≤ k) : InArray nodeStateLength M k := by
  have hle : 2 ^ (M - k + 1) ≤ 2 ^ 18 := Nat.pow_le_pow_right (by norm_num) (by omega)
  rw [InArray, nodeStateLength_eq]
  omega

theorem Rep.exhausted {h : Heap} (hr : Rep h base M t) (hzero : h.freeBytes = 0) :
    Exhausted t := by
  have hfree := hr.free
  rw [hzero, UInt32.toNat_zero] at hfree
  exact exhausted_of_bytes (show bytes (blocks M 0 t) = 2 ^ M by omega)

theorem Rep.admits {s : Session Heap} {size : UInt32} (hr : Rep s.heap base M t)
    (hfive : ∀ b ∈ blocks M 0 t, 5 ≤ b.2) (hok : noWrap s (.alloc size)) :
    Admits nodeStateLength M t size := by
  intro hsize k hk
  have hM := hr.maxOrder_le
  rcases hok with h0 | ⟨hnine, hle⟩ | hzero
  · exact absurd h0 hsize
  · exact Or.inl (inArray_five hM ((sizeToOrder_spec hsize hk).2.2.2 hnine hle))
  · exact Or.inr ⟨hr.exhausted hzero, fun b hb => inArray_five hM (hfive b hb)⟩

theorem covered_step {s s' : Session Heap} {r : Request} (hc : Covered base M s)
    (hok : noWrap s r)
    (hstep : Session.Step (manager nodeStateLength) Session.requested s r s') :
    Covered base M s' := by
  obtain ⟨t, hr, htr, hfive, hfits⟩ := hc
  have hM := hr.maxOrder_le
  have hwrite : ∀ b ∈ blocks M 0 t, ¬s.requested (base + b.1) := by
    rintro b hb ⟨q, hq, hqa, hqa'⟩
    obtain ⟨c, hc, hqc, hsize⟩ := hfits q hq
    rcases blocks_eq_or_apart hb hc with rfl | h
    · omega
    · have hposb : 0 < 2 ^ b.2 := Nat.two_pow_pos _
      simp only [Apart] at h
      omega
  rcases step_cases hr htr hwrite (fun b hb => inArray_five hM (hfive b hb))
      (fun size hreq => hr.admits hfive (hreq ▸ hok)) hstep with
    ⟨hlive, hr'⟩ | ⟨size, k, o, t', rfl, hsize, hk, htree, hlive, hr'⟩ | ⟨b, hb, -, hlive, hr'⟩
  · exact ⟨t, hr', hlive ▸ htr, hfive, hlive ▸ hfits⟩
  · have hrange : 9 ≤ size.toNat ∧ size.toNat ≤ 2 ^ 32 - 16 := by
      rcases hok with h0 | hrange | hzero
      · exact absurd h0 hsize
      · exact hrange
      · rw [alloc_exhausted (hr.exhausted hzero)] at htree
        cases htree
    obtain ⟨-, -, hholds, hlarge⟩ := sizeToOrder_spec hsize hk
    have hperm : (blocks M 0 t').Perm ((o, k) :: blocks M 0 t) := by
      simpa using alloc_blocks 0 htree
    refine ⟨t', hr', hlive ▸ htr.alloc size htree, ?_, ?_⟩
    · intro b hb
      rcases List.mem_cons.mp (hperm.mem_iff.mp hb) with rfl | hb
      · exact hlarge hrange.1 hrange.2
      · exact hfive b hb
    · rw [hlive]
      intro q hq
      rcases List.mem_cons.mp hq with rfl | hq
      · exact ⟨(o, k), hperm.mem_iff.mpr List.mem_cons_self, rfl, hholds hrange.2⟩
      · exact hfits.mono (fun _ h => h)
          (fun _ _ b hb _ => hperm.mem_iff.mpr (List.mem_cons_of_mem _ hb)) q hq
  · have hperm : (blocks M 0 t).Perm (b :: blocks M 0 (BuddyTree.release b.2 M b.1 t)) := by
      simpa using release_blocks (k := b.2) (o := b.1) (t := t) 0 (by simpa using hb)
    refine ⟨_, hr', hlive ▸ htr.release hb,
      fun c hc => hfive c (hperm.mem_iff.mpr (List.mem_cons_of_mem _ hc)), ?_⟩
    rw [hlive]
    refine hfits.mono (fun q hq => List.mem_of_mem_filter hq) fun q hq c hc hqc => ?_
    have hne := (List.mem_filter.mp hq).2
    simp only [ne_eq, decide_eq_true_eq] at hne
    rcases List.mem_cons.mp (hperm.mem_iff.mp hc) with rfl | hc
    · exact absurd hqc hne
    · exact hc

/-- Clients that are covered have what the contract promises. -/
theorem Covered.sound {s : Session Heap} (hc : Covered base M s) :
    s.Sound base (2 ^ M) (metadata s) := by
  obtain ⟨t, hr, htr, -, hfits⟩ := hc
  refine ⟨?_, ?_, ?_⟩
  · intro q hq
    obtain ⟨b, hb, hqb, hsize⟩ := hfits q hq
    have := blocks_bounds b hb
    omega
  · have hpair := blocks_apart (hr.blocks_perm htr).symm
    refine List.Pairwise.imp_of_mem ?_ (List.pairwise_map.mp hpair)
    intro q q' hq hq' hapart
    obtain ⟨b, hb, hqb, hsize⟩ := hfits q hq
    obtain ⟨c, hc, hqc, hsize'⟩ := hfits q' hq'
    rw [hqb, hr.blockOf_eq hb, hqc, hr.blockOf_eq hc] at hapart
    simp only [Apart] at hapart
    omega
  · rintro a ⟨q, hq, hqa, hqa'⟩ ⟨q', hq', hqm, hqm'⟩
    obtain ⟨b, hb, hqb, hsize⟩ := hfits q hq
    obtain ⟨c, hc, hqc, hsize'⟩ := hfits q' hq'
    rw [hdrSize_toNat] at hqm
    rcases blocks_eq_or_apart hb hc with rfl | h
    · omega
    · simp only [Apart] at h
      omega

end BuddyManager

/-! ## Both managers on the kernel's pool -/

/-- The heap of the naive manager when the kernel has started. -/
def naiveStart (h : NaiveManager.Heap) : Session NaiveManager.Heap :=
  NaiveManager.boot h NaiveManager.kernelPool

/-- The clients that the contract is about: any request, writes only where asked. -/
abbrev NaiveRun (ok : Session NaiveManager.Heap → Request → Prop) :=
  Reaches (Session.Step NaiveManager.manager Session.requested) ok

abbrev BuddyRun (ok : Session BuddyManager.Heap → Request → Prop) :=
  Reaches (Session.Step (BuddyManager.manager BuddyManager.nodeStateLength) Session.requested) ok

/-- What the clients have been given, in every run whose requests do not wrap. -/
theorem naive_covered {naive : NaiveManager.Heap} {s : Session NaiveManager.Heap}
    (hrun : NaiveRun NaiveManager.noWrap (naiveStart naive) s) :
    NaiveManager.Covered NaiveManager.kernelPool s := by
  have hstart : NaiveManager.Covered NaiveManager.kernelPool (naiveStart naive) :=
    ⟨_, NaiveManager.createMemoryManager_rep naive NaiveManager.kernelPool,
      by simp [NaiveManager.Tracks, naiveStart, NaiveManager.boot, BlockList.used],
      by simp [NaiveManager.Fits, naiveStart, NaiveManager.boot]⟩
  exact hrun.invariant hstart fun _ _ _ hc hok hstep => NaiveManager.covered_step hc hok hstep

theorem buddy_covered {buddy h₀ : BuddyManager.Heap} {s : Session BuddyManager.Heap}
    (hzero : ∀ n, buddy.nodeState n = .FREE)
    (hboot : BuddyManager.createMemoryManager buddy memoryStart memorySize = some h₀)
    (hrun : BuddyRun BuddyManager.noWrap ⟨h₀, []⟩ s) : BuddyManager.Covered memoryStart 22 s := by
  obtain ⟨h', hboot', hr⟩ := BuddyManager.createMemoryManager_rep (h := buddy)
    (show memoryStart ≠ NULL by decide)
    (show BuddyManager.minBlockSize ≤ memorySize by decide) hzero
  obtain rfl : h' = h₀ := Option.some.inj (hboot'.symm.trans hboot)
  rw [show min (Nat.log 2 memorySize.toNat) 22 = 22 by decide] at hr
  have hstart : BuddyManager.Covered memoryStart 22 ⟨h', []⟩ :=
    ⟨.free, hr, by simp [BuddyManager.Tracks, BuddyTree.blocks], by simp [BuddyTree.blocks],
      by simp [BuddyManager.Fits]⟩
  exact hrun.invariant hstart fun _ _ _ hc hok hstep => BuddyManager.covered_step hc hok hstep

/-- **The client contract**, for both managers. In every run on the kernel's
pool whose requests do not wrap, every range that was asked for is inside the
pool and disjoint from the other ranges and from the manager's own bytes. -/
theorem client_contract (naive : NaiveManager.Heap) (buddy : BuddyManager.Heap) :
    (∀ s, NaiveRun NaiveManager.noWrap (naiveStart naive) s →
      s.Sound memoryStart memorySize.toNat (NaiveManager.metadata s.heap)) ∧
    ∀ h₀ s, (∀ n, buddy.nodeState n = .FREE) →
      BuddyManager.createMemoryManager buddy memoryStart memorySize = some h₀ →
      BuddyRun BuddyManager.noWrap ⟨h₀, []⟩ s →
      s.Sound memoryStart memorySize.toNat (BuddyManager.metadata s) ∧
        ∀ size, BuddyManager.noWrap s (.alloc size) → size.toNat ≤ 2 ^ 31 - 8 →
          (BuddyManager.allocMemory BuddyManager.nodeStateLength s.heap size).isSome = true := by
  refine ⟨fun s hrun => (naive_covered hrun).sound, fun h₀ s hzero hboot hrun => ?_⟩
  have hcovered := buddy_covered hzero hboot hrun
  refine ⟨hcovered.sound, fun size hok hsize => ?_⟩
  obtain ⟨t, hr', -, hfive, -⟩ := hcovered
  exact BuddyManager.allocMemory_isSome hr' (hr'.admits hfive hok) hsize

/-- Each manager with a gap in front of the block that is held. -/
theorem client_contract_fragmented :
    (∃ s : Session NaiveManager.Heap, s.live = [(memoryStart + 152, 100)] ∧
      s.Sound memoryStart memorySize.toNat (NaiveManager.metadata s.heap)) ∧
    ∃ s : Session BuddyManager.Heap, s.live = [(memoryStart + 136, 100)] ∧
      s.Sound memoryStart memorySize.toNat (BuddyManager.metadata s) := by
  have hcontract := client_contract NaiveManager.zeroHeap BuddyManager.zeroHeap
  constructor
  · obtain ⟨s, hrun, hlive, -⟩ := NaiveManager.fragmented Session.requested NaiveManager.noWrap
      (by rintro s r (rfl | rfl); exacts [.inl (by decide), trivial])
    exact ⟨s, hlive, hcontract.1 s hrun⟩
  · obtain ⟨h₀, hboot, hr⟩ := BuddyManager.zeroHeap_rep
    obtain ⟨s, hrun, hlive, -⟩ := BuddyManager.fragmented
      (BuddyManager.inArray_five (le_refl _) (by decide)) Session.requested BuddyManager.noWrap
      (by rintro s r (rfl | rfl); exacts [.inr (.inl (by decide)), trivial]) hr
    exact ⟨s, hlive, (hcontract.2 h₀ s (fun _ => rfl) hboot hrun).1⟩

/-- **A wrapped request breaks the contract.** `0xFFFFFFFF` is rounded to no
bytes at all, and both managers hand out a block for it. A request of 8 bytes
makes the buddy manager leave its array of marks. -/
theorem client_contract_broken :
    (∃ s, NaiveRun always (naiveStart NaiveManager.zeroHeap) s ∧
      s.live = [(memoryStart + 24, 0xFFFFFFFF)] ∧
      ¬s.Sound memoryStart memorySize.toNat (NaiveManager.metadata s.heap)) ∧
    (∃ h₀ s, BuddyManager.createMemoryManager BuddyManager.zeroHeap memoryStart memorySize =
        some h₀ ∧ BuddyRun always ⟨h₀, []⟩ s ∧ s.live = [(memoryStart + 8, 0xFFFFFFFF)] ∧
      ¬s.Sound memoryStart memorySize.toNat (BuddyManager.metadata s)) ∧
    ((BuddyManager.createMemoryManager BuddyManager.zeroHeap memoryStart memorySize).bind fun h =>
      BuddyManager.allocMemory BuddyManager.nodeStateLength h 8).isNone = true := by
  refine ⟨?_, ?_, by decide +kernel⟩
  · obtain ⟨h', halloc⟩ := NaiveManager.boot_alloc NaiveManager.zeroHeap NaiveManager.kernelPool
      0xFFFFFFFF (by decide) (by decide)
    have hstep : Session.Step NaiveManager.manager Session.requested
        (naiveStart NaiveManager.zeroHeap) (.alloc 0xFFFFFFFF)
        ⟨h', [(memoryStart + 24, 0xFFFFFFFF)]⟩ := .alloc halloc (by decide)
    refine ⟨_, (Reaches.refl _).tail trivial hstep, rfl, fun hsound => ?_⟩
    exact absurd (hsound.inside _ List.mem_cons_self).2 (by decide)
  · obtain ⟨h₀, hboot, hr⟩ := BuddyManager.zeroHeap_rep
    obtain ⟨h', halloc⟩ := BuddyManager.first_alloc 0xFFFFFFFF (k := 5)
      hr (by decide) (by decide) (by decide)
      (BuddyManager.inArray_five (le_refl _) (by decide))
    have hstep : Session.Step (BuddyManager.manager BuddyManager.nodeStateLength)
        Session.requested ⟨h₀, []⟩ (.alloc 0xFFFFFFFF) ⟨h', [(memoryStart + 8, 0xFFFFFFFF)]⟩ :=
      .alloc halloc (by decide)
    refine ⟨h₀, _, hboot, (Reaches.refl _).tail trivial hstep, rfl, fun hsound => ?_⟩
    exact absurd (hsound.inside _ List.mem_cons_self).2 (by decide)

/-! ## A node of a queue -/

/-- `sizeof(node)` of `queueADT.c`. -/
def nodeSize : UInt32 := 16

/-- **A node that was released can be had again.** In every run whose requests do
not wrap, `freeMemory` of a node and then `allocMemory` of one does not fail. -/
theorem node_again (naive : NaiveManager.Heap) (buddy : BuddyManager.Heap) :
    (∀ s p, NaiveRun NaiveManager.noWrap (naiveStart naive) s → (p, nodeSize) ∈ s.live →
      ∃ q h, NaiveManager.allocMemory (NaiveManager.freeMemory s.heap p) nodeSize = some (q, h) ∧
        q ≠ NULL) ∧
    ∀ h₀ s p, (∀ n, buddy.nodeState n = .FREE) →
      BuddyManager.createMemoryManager buddy memoryStart memorySize = some h₀ →
      BuddyRun BuddyManager.noWrap ⟨h₀, []⟩ s → (p, nodeSize) ∈ s.live →
      ∃ q h, ((BuddyManager.freeMemory BuddyManager.nodeStateLength s.heap p).bind fun h =>
        BuddyManager.allocMemory BuddyManager.nodeStateLength h nodeSize) = some (q, h) ∧
          q ≠ NULL := by
  constructor
  · intro s p hrun hp
    obtain ⟨bs, hr, -, hfits⟩ := naive_covered hrun
    obtain ⟨b, hb, hused, hpb, hsize⟩ := hfits _ hp
    obtain rfl : p = b.addr + 24 := hpb
    have hfree := NaiveManager.freeMemory_rep hr hb hused
    have hspec := NaiveManager.allocMemory_rep hfree (show nodeSize ≠ 0 by decide)
    obtain ⟨c, hc, hcfree, hcsize⟩ :
        ∃ c ∈ BlockList.release 24 b.addr bs, c.free = true ∧ b.size ≤ c.size :=
      BlockList.release_room hb
    cases hfit : BlockList.firstFit (align nodeSize).toNat (BlockList.release 24 b.addr bs) with
    | none =>
        have halign : (align nodeSize).toNat = nodeSize.toNat := by decide
        have hsmall := BlockList.firstFit_none hfit c hc
        rw [halign] at hsmall
        exact absurd ⟨hcfree, le_trans hsize hcsize⟩ hsmall
    | some found =>
        obtain ⟨pre, d, post⟩ := found
        rw [hfit] at hspec
        obtain ⟨h', halloc, -⟩ := hspec
        exact ⟨_, h', halloc, by simp⟩
  · intro h₀ s p hzero hboot hrun hp
    obtain ⟨t, hr, -, hfive, hfits⟩ := buddy_covered hzero hboot hrun
    obtain ⟨b, hb, hpb, -⟩ := hfits _ hp
    obtain rfl : p = memoryStart + b.1 + 8 := hpb
    obtain ⟨h₁, hfree, hr₁⟩ := BuddyManager.freeMemory_rep hr hb
      (BuddyManager.inArray_five hr.maxOrder_le (hfive b hb))
    have horder : BuddyManager.sizeToOrder nodeSize = some 5 := by decide
    have hspec := BuddyManager.allocMemory_rep hr₁ (show nodeSize ≠ 0 by decide) horder
      (.inl (BuddyManager.inArray_five hr.maxOrder_le (le_refl 5)))
    have hroom : (BuddyTree.alloc 5 22 (BuddyTree.release b.2 22 b.1 t)).isSome :=
      BuddyTree.alloc_release 0 (by simpa using hb) (hfive b hb)
    obtain ⟨⟨o, t'⟩, ht'⟩ := Option.isSome_iff_exists.mp hroom
    rw [ht'] at hspec
    obtain ⟨h₂, halloc, -⟩ := hspec
    refine ⟨memoryStart + o + 8, h₂, ?_, by simp⟩
    rw [hfree]
    exact halloc

end BareKernel
