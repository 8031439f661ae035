import BareKernel.Memory.NaiveCompleteness
import BareKernel.Memory.BuddyCompleteness

/-!
# The heap is a function of its live blocks

Coalescing is always complete, so what a heap looks like does not depend on the order of
the calls that led to it, but only on the blocks that are live.
-/

namespace BareKernel

open ByteMemory Runs

/-! ## Sessions whose blocks are told by their heap -/

section Ledger

variable {σ β : Type} {M : Manager σ} {writable : Session σ → ℕ → Prop} {s₀ S s t : Session σ}
  {held : Session σ → List β} {Same : σ → σ → Prop} {ptr : β → ℕ} {Inv : Session σ → Prop}

/-- No block that is live in `S` is freed. -/
def spares (S _s : Session σ) (r : Request) : Prop := ∀ p, r = .free p → p ∉ S.live.map Prod.fst

/-- Every block that was allocated since `S` was freed again. -/
def Returned (S s : Session σ) : Prop := ∀ p ∈ s.live.map Prod.fst, p ∈ S.live.map Prod.fst

/-- **The heap is canonical**, for the heaps reached from `s₀`. -/
structure Canonical (M : Manager σ) (writable : Session σ → ℕ → Prop) (s₀ : Session σ)
    (held : Session σ → List β) (Same : σ → σ → Prop) : Prop where
  function : ∀ S s, Reaches (Session.Step M writable) always s₀ S →
    Reaches (Session.Step M writable) always s₀ s → (∀ b, b ∈ held S ↔ b ∈ held s) →
      Same S.heap s.heap
  restored : ∀ S s, Reaches (Session.Step M writable) always s₀ S →
    Reaches (Session.Step M writable) (spares S) S s → Returned S s → Same S.heap s.heap
  commute : ∀ S p q, Reaches (Session.Step M writable) always s₀ S →
    p ∈ S.live.map Prod.fst → q ∈ S.live.map Prod.fst → p ≠ q →
      ∃ h₁ h₂ h₁₂ h₂₁, M.freeMemory S.heap p = some h₁ ∧ M.freeMemory h₁ q = some h₁₂ ∧
        M.freeMemory S.heap q = some h₂ ∧ M.freeMemory h₂ p = some h₂₁ ∧ Same h₁₂ h₂₁
  initial : ∀ S, Reaches (Session.Step M writable) always s₀ S → S.live = [] →
    Same s₀.heap S.heap

/-- What makes a heap canonical: the blocks held change by the one that a call is about,
and two heaps with the same blocks look the same. -/
structure Ledger (M : Manager σ) (writable : Session σ → ℕ → Prop) (s₀ : Session σ)
    (held : Session σ → List β) (Same : σ → σ → Prop) (ptr : β → ℕ) (Inv : Session σ → Prop) :
    Prop where
  boot : Inv s₀
  empty : s₀.live = []
  live : ∀ s, Inv s → ∀ p, p ∈ s.live.map Prod.fst ↔ ∃ b ∈ held s, ptr b = p
  inj : ∀ s, Inv s → ∀ b ∈ held s, ∀ c ∈ held s, ptr b = ptr c → b = c
  step : ∀ s r t, Inv s → Session.Step M writable s r t → Inv t ∧
    ((∀ b, b ∈ held t ↔ b ∈ held s) ∨ (∃ c, ∀ b, b ∈ held t ↔ b = c ∨ b ∈ held s) ∨
      ∃ c ∈ held s, r = .free (ptr c) ∧ ∀ b, b ∈ held t ↔ b ∈ held s ∧ b ≠ c)
  frees : ∀ s, Inv s → ∀ b ∈ held s, ∃ h, M.freeMemory s.heap (ptr b) = some h
  same : ∀ s t, Inv s → Inv t → (∀ b, b ∈ held s ↔ b ∈ held t) → Same s.heap t.heap

theorem Ledger.run {ok : Session σ → Request → Prop}
    (h : Ledger M writable s₀ held Same ptr Inv) (hs : Inv s)
    (hrun : Reaches (Session.Step M writable) ok s t) : Inv t :=
  hrun.invariant hs fun s e t hi _ hstep => (h.step s e t hi hstep).1

/-- Freeing a block takes it, and it alone, off the blocks held. -/
theorem Ledger.free (h : Ledger M writable s₀ held Same ptr Inv) (hs : Inv s) {b : β}
    (hb : b ∈ held s) : ∃ t : Session σ, M.freeMemory s.heap (ptr b) = some t.heap ∧ Inv t ∧
      ∀ c, c ∈ held t ↔ c ∈ held s ∧ c ≠ b := by
  obtain ⟨heap, hheap⟩ := h.frees s hs b hb
  have hlive : ptr b ∈ s.live.map Prod.fst := (h.live s hs _).mpr ⟨b, hb, rfl⟩
  obtain ⟨ht, hcases⟩ := h.step s _ _ hs (Session.Step.free hlive hheap)
  refine ⟨_, hheap, ht, ?_⟩
  -- the pointer is live no more
  have hgone : ∀ c ∈ held (⟨heap, s.live.filter fun q => q.1 ≠ ptr b⟩ : Session σ),
      ptr c ≠ ptr b := by
    intro c hc heq
    obtain ⟨q, hq, hqp⟩ := List.mem_map.mp ((h.live _ ht _).mpr ⟨c, hc, heq⟩)
    simp only [List.mem_filter, decide_eq_true_eq] at hq
    exact hq.2 hqp
  rcases hcases with hsame | ⟨d, hmore⟩ | ⟨d, hd, hreq, hless⟩
  · exact absurd rfl (hgone b ((hsame b).mpr hb))
  · exact absurd rfl (hgone b ((hmore b).mpr (.inr hb)))
  · obtain rfl : b = d := h.inj s hs b hb d hd (by simpa using hreq)
    exact hless

/-- A block live in `S` is held as long as it is spared. -/
theorem Ledger.spared (h : Ledger M writable s₀ held Same ptr Inv) (hS : Inv S)
    (hrun : Reaches (Session.Step M writable) (spares S) S s) : ∀ b ∈ held S, b ∈ held s := by
  have hkept : Inv s ∧ ∀ b ∈ held S, b ∈ held s := by
    apply hrun.invariant (I := fun s => Inv s ∧ ∀ b ∈ held S, b ∈ held s) ⟨hS, fun _ hb => hb⟩
    rintro s r t ⟨hs, hkept⟩ hok hstep
    obtain ⟨ht, hcases⟩ := h.step s r t hs hstep
    refine ⟨ht, fun b hb => ?_⟩
    rcases hcases with hsame | ⟨c, hmore⟩ | ⟨c, hc, hreq, hless⟩
    · exact (hsame b).mpr (hkept b hb)
    · exact (hmore b).mpr (.inr (hkept b hb))
    · refine (hless b).mpr ⟨hkept b hb, ?_⟩
      rintro rfl
      exact hok _ hreq ((h.live S hS _).mpr ⟨b, hb, rfl⟩)
  exact hkept.2

theorem Ledger.canonical (h : Ledger M writable s₀ held Same ptr Inv) :
    Canonical M writable s₀ held Same := by
  constructor
  · intro S s hS hs hheld
    exact h.same S s (h.run h.boot hS) (h.run h.boot hs) hheld
  · intro S s hreach hrun hreturned
    have hS := h.run h.boot hreach
    have hs := h.run hS hrun
    refine h.same S s hS hs fun b => ⟨h.spared hS hrun b, fun hb => ?_⟩
    have hptr := hreturned (ptr b) ((h.live s hs _).mpr ⟨b, hb, rfl⟩)
    obtain ⟨c, hc, hcb⟩ := (h.live S hS _).mp hptr
    rwa [h.inj s hs b hb c (h.spared hS hrun c hc) hcb.symm]
  · intro S p q hreach hp hq hne
    have hS := h.run h.boot hreach
    obtain ⟨b, hb, rfl⟩ := (h.live S hS _).mp hp
    obtain ⟨c, hc, rfl⟩ := (h.live S hS _).mp hq
    have hbc : b ≠ c := fun heq => hne (by rw [heq])
    obtain ⟨s₁, hfree₁, hs₁, hheld₁⟩ := h.free hS hb
    obtain ⟨s₂, hfree₂, hs₂, hheld₂⟩ := h.free hS hc
    obtain ⟨s₁₂, hfree₁₂, hs₁₂, hheld₁₂⟩ := h.free hs₁ ((hheld₁ c).mpr ⟨hc, hbc.symm⟩)
    obtain ⟨s₂₁, hfree₂₁, hs₂₁, hheld₂₁⟩ := h.free hs₂ ((hheld₂ b).mpr ⟨hb, hbc⟩)
    refine ⟨_, _, _, _, hfree₁, hfree₁₂, hfree₂, hfree₂₁, h.same _ _ hs₁₂ hs₂₁ fun d => ?_⟩
    rw [hheld₁₂, hheld₁, hheld₂₁, hheld₂, and_right_comm]
  · intro S hreach hempty
    have hS := h.run h.boot hreach
    have hnone : ∀ s, Inv s → s.live = [] → ∀ b, b ∉ held s := by
      intro s hs hlive b hb
      have hptr := (h.live s hs (ptr b)).mpr ⟨b, hb, rfl⟩
      rw [hlive] at hptr
      exact absurd hptr (by simp)
    exact h.same s₀ S h.boot hS fun b =>
      iff_of_false (hnone s₀ h.boot h.empty b) (hnone S hS hempty b)

end Ledger

/-! ## The naive manager -/

namespace NaiveManager

open BlockList (Seg used)

/-- The same list, block by block. -/
structure SameList (h h' : Heap) : Prop where
  firstBlock : h'.firstBlock = h.firstBlock
  memoryPoolSize : h'.memoryPoolSize = h.memoryPoolSize
  blocks : ∃ blocks, walk h.mem h.fuel h.firstBlock = some blocks ∧
    walk h'.mem h'.fuel h'.firstBlock = some blocks ∧ ∀ b ∈ blocks,
      size h'.mem b = size h.mem b ∧ isFree h'.mem b = isFree h.mem b ∧
        next h'.mem b = next h.mem b ∧ prev h'.mem b = prev h.mem b

/-- The headers of a block are what the list says, so two heaps agree on them. -/
theorem Linked.same {m m' : Mem} {q : ℕ} : ∀ {bs : List Seg} {p : ℕ}, Linked m p bs q →
    Linked m' p bs q → ∀ b ∈ bs.map Seg.addr,
      size m' b = size m b ∧ isFree m' b = isFree m b ∧ next m' b = next m b ∧
        prev m' b = prev m b
  | [], _, _, _, b, hb => absurd hb (by simp)
  | c :: bs, _, ⟨hc, hbs⟩, ⟨hc', hbs'⟩, b, hb => by
      rw [List.map_cons, List.mem_cons] at hb
      rcases hb with rfl | hb
      · refine ⟨UInt32.toNat_inj.mp (hc'.size_eq.trans hc.size_eq.symm), ?_, ?_, ?_⟩
        · rw [hc'.free_eq, hc.free_eq]
        · rw [hc'.next_eq, hc.next_eq]
        · rw [hc'.prev_eq, hc.prev_eq]
      · exact hbs.same hbs' b hb

theorem Rep.same {h h' : Heap} {P : Pool} {bs : List Seg} (hr : Rep h P bs) (hr' : Rep h' P bs) :
    SameList h h' := by
  refine ⟨hr'.first.trans hr.first.symm, hr'.pool.trans hr.pool.symm, bs.map Seg.addr, ?_⟩
  exact ⟨hr.wellFormed.walk_eq, hr'.wellFormed.walk_eq, hr.linked.same hr'.linked⟩

theorem ledger (h : Heap) (P : Pool) :
    Ledger manager insideBlocks (boot h P) held SameList (fun b => b.addr + 24) (Inv P) := by
  constructor
  · exact inv_boot h P
  · rfl
  · rintro s ⟨bs, hr, htr⟩ p
    rw [htr.mem_iff, List.mem_map]
    simp only [mem_held hr htr]
  · rintro s ⟨bs, hr, htr⟩ b hb c hc heq
    rw [mem_held hr htr, BlockList.mem_used] at hb hc
    exact hr.tiles.eq_of_addr (by norm_num) hb.1 hc.1 (by simpa using heq)
  · rintro s r t hinv hstep
    refine ⟨inv_step hinv hstep, ?_⟩
    obtain ⟨bs, hr, htr⟩ := hinv
    rcases step_cases hr htr (hr.inside_clear htr) hstep with ⟨hlive, hr'⟩ |
      ⟨pre, b, post, sz, rfl, hfree, -, -, hlive, hr'⟩ | ⟨b, hb, hused, hreq, hlive, hr'⟩
    · have htr' : Tracks t.live bs := hlive ▸ htr
      exact .inl fun c => by rw [mem_held hr' htr', mem_held hr htr]
    · have htr' : Tracks ((b.addr + 24, sz) :: s.live)
          (pre ++ (BlockList.carve 24 8 (align sz).toNat b ++ post)) := htr.alloc hfree
      rw [← hlive] at htr'
      refine .inr (.inl ⟨BlockList.taken 24 8 (align sz).toNat b, fun c => ?_⟩)
      rw [mem_held hr' htr', mem_held hr htr, BlockList.used_append_carve,
        BlockList.used_append_free hfree]
      simp only [List.mem_append, List.mem_cons]
      exact or_left_comm
    · have htr' := htr.release b.addr
      rw [← hlive] at htr'
      have hbused : b ∈ used bs := BlockList.mem_used.mpr ⟨hb, hused⟩
      refine .inr (.inr ⟨b, (mem_held hr htr b).mpr hbused, hreq, fun c => ?_⟩)
      rw [mem_held hr' htr', mem_held hr htr, BlockList.used_release, List.mem_filter,
        decide_eq_true_eq]
      refine and_congr_right fun hc => not_congr ⟨fun heq => ?_, fun heq => heq ▸ rfl⟩
      exact hr.tiles.eq_of_addr (by norm_num) (BlockList.mem_used.mp hc).1 hb heq
  · rintro s ⟨bs, hr, htr⟩ b hb
    exact ⟨_, rfl⟩
  · rintro s t ⟨bs, hr, htr⟩ ⟨cs, hr', htr'⟩ hsame
    simp only [mem_held hr htr, mem_held hr' htr'] at hsame
    obtain rfl : bs = cs :=
      BlockList.eq_of_used (by norm_num) hr.tiles hr.noFreePair hr'.tiles hr'.noFreePair hsame
    exact hr.same hr'

end NaiveManager

/-! ## The buddy manager -/

namespace BuddyManager

open BuddyTree ImplicitTree

/-- The same marks and counters. -/
structure SameTree (h h' : Heap) : Prop where
  nodeState : h'.nodeState = h.nodeState
  usedBytes : h'.usedBytes = h.usedBytes
  freeBytes : h'.freeBytes = h.freeBytes

/-- The blocks that the clients hold, as their headers show them. -/
def held (s : Session Heap) : List (ℕ × ℕ) := s.live.map fun q => blockOf s.heap q.1

variable {len base M : ℕ} {h h' : Heap} {t : Buddy}

theorem Rep.same (hr : Rep h base M t) (hr' : Rep h' base M t) : SameTree h h' := by
  constructor
  · ext n
    exact hr'.shows.unique hr.shows n (below_zero n)
  · apply UInt32.toNat_inj.mp
    have hused := hr.used
    have hused' := hr'.used
    omega
  · apply UInt32.toNat_inj.mp
    have hfree := hr.free
    have hfree' := hr'.free
    omega

theorem ledger {h₀ : Heap} {bytes : UInt32} (hboot : Booted h₀ base bytes)
    (hlen : LongEnough len h₀.maxOrder) :
    Ledger (manager len) headersIntact ⟨h₀, []⟩ held SameTree (fun b => base + b.1 + 8)
      (Inv base h₀.maxOrder) := by
  constructor
  · exact hboot.inv hlen (Reaches.refl _)
  · rfl
  · rintro s ⟨t, hr, htr⟩ p
    rw [htr.mem_iff, List.mem_map]
    simp only [held, (hr.blocks_perm htr).mem_iff]
  · rintro s ⟨t, hr, htr⟩ b hb c hc heq
    rw [held, (hr.blocks_perm htr).mem_iff] at hb hc
    rcases blocks_eq_or_apart hb hc with rfl | hapart
    · rfl
    · have hposb : 0 < 2 ^ b.2 := Nat.two_pow_pos _
      have hposc : 0 < 2 ^ c.2 := Nat.two_pow_pos _
      simp only [Apart] at hapart
      omega
  · rintro s r u hinv hstep
    refine ⟨inv_step hlen hinv hstep, ?_⟩
    obtain ⟨t, hr, htr⟩ := hinv
    rcases step_cases hr htr htr.intact (fun b hb => hlen.order (hr.order_le b hb))
        (fun size _ => hlen.admits t size) hstep with
      ⟨hlive, hr'⟩ | ⟨size, k, o, t', -, -, -, htree, hlive, hr'⟩ | ⟨b, hb, hreq, hlive, hr'⟩
    · have htr' : Tracks base h₀.maxOrder u.live t := hlive ▸ htr
      refine .inl fun c => ?_
      rw [held, held, (hr'.blocks_perm htr').mem_iff, (hr.blocks_perm htr).mem_iff]
    · have htr' := htr.alloc size htree
      rw [← hlive] at htr'
      have hperm : (blocks h₀.maxOrder 0 t').Perm ((o, k) :: blocks h₀.maxOrder 0 t) := by
        simpa using alloc_blocks 0 htree
      refine .inr (.inl ⟨(o, k), fun c => ?_⟩)
      rw [held, held, (hr'.blocks_perm htr').mem_iff, (hr.blocks_perm htr).mem_iff,
        hperm.mem_iff, List.mem_cons]
    · have htr' := htr.release hb
      rw [← hlive] at htr'
      have hperm : (blocks h₀.maxOrder 0 t).Perm
          (b :: blocks h₀.maxOrder 0 (release b.2 h₀.maxOrder b.1 t)) := by
        simpa using release_blocks (k := b.2) (o := b.1) (t := t) 0 (by simpa using hb)
      have hnot : b ∉ blocks h₀.maxOrder 0 (release b.2 h₀.maxOrder b.1 t) := by
        intro hmem
        have hapart := (List.pairwise_cons.mp (blocks_apart hperm)).1 b hmem
        have hpos : 0 < 2 ^ b.2 := Nat.two_pow_pos _
        simp only [Apart] at hapart
        omega
      refine .inr (.inr ⟨b, (hr.blocks_perm htr).mem_iff.mpr hb, hreq, fun c => ?_⟩)
      rw [held, held, (hr'.blocks_perm htr').mem_iff, (hr.blocks_perm htr).mem_iff,
        hperm.mem_iff, List.mem_cons]
      constructor
      · intro hc
        exact ⟨.inr hc, fun heq => hnot (heq ▸ hc)⟩
      · rintro ⟨rfl | hc, hne⟩
        · exact absurd rfl hne
        · exact hc
  · rintro s ⟨t, hr, htr⟩ b hb
    rw [held, (hr.blocks_perm htr).mem_iff] at hb
    obtain ⟨h', hfree, -⟩ := freeMemory_rep hr hb (hlen.order (hr.order_le b hb))
    exact ⟨h', hfree⟩
  · rintro s u ⟨t, hr, htr⟩ ⟨t', hr', htr'⟩ hsame
    simp only [held, (hr.blocks_perm htr).mem_iff, (hr'.blocks_perm htr').mem_iff] at hsame
    obtain rfl := eq_of_blocks 0 hr.wf hr'.wf hsame
    exact hr.same hr'

end BuddyManager

/-- **The heap is a canonical function of its live blocks**, whichever manager is
linked: what is allocated and given back leaves no trace, frees commute, and when
everything is free the heap is the one after boot. -/
theorem heap_canonical (h : NaiveManager.Heap) (P : NaiveManager.Pool) (h₀ : BuddyManager.Heap)
    (base : ℕ) (bytes : UInt32) (len : ℕ) (hboot : BuddyManager.Booted h₀ base bytes)
    (hlen : BuddyManager.LongEnough len h₀.maxOrder) :
    Canonical NaiveManager.manager NaiveManager.insideBlocks (NaiveManager.boot h P)
        NaiveManager.held NaiveManager.SameList ∧
      Canonical (BuddyManager.manager len) BuddyManager.headersIntact ⟨h₀, []⟩
        BuddyManager.held BuddyManager.SameTree :=
  ⟨(NaiveManager.ledger h P).canonical, (BuddyManager.ledger hboot hlen).canonical⟩

/-- Both managers on the kernel's pool. -/
theorem heap_canonical_kernel : ∃ h₀,
    BuddyManager.createMemoryManager BuddyManager.zeroHeap memoryStart memorySize = some h₀ ∧
      Canonical NaiveManager.manager NaiveManager.insideBlocks
          (NaiveManager.boot NaiveManager.zeroHeap NaiveManager.kernelPool) NaiveManager.held
          NaiveManager.SameList ∧
        Canonical (BuddyManager.manager (2 ^ 19 - 1)) BuddyManager.headersIntact ⟨h₀, []⟩
          BuddyManager.held BuddyManager.SameTree := by
  obtain ⟨h₀, hcreate, hr⟩ := BuddyManager.zeroHeap_rep
  have hlong : BuddyManager.LongEnough (2 ^ 19 - 1) h₀.maxOrder := by
    rw [hr.maxOrder]
    exact le_refl _
  exact ⟨h₀, hcreate, heap_canonical NaiveManager.zeroHeap NaiveManager.kernelPool h₀ memoryStart
    memorySize _ ⟨by decide, by decide, BuddyManager.zeroHeap, fun _ => rfl, hcreate⟩ hlong⟩

end BareKernel
