import BareKernel.Memory.NaiveInvariant
import BareKernel.Memory.Session

/-!
# Runs of the naive heap

Whatever its clients request, free and write inside their blocks, the list in
memory stays well formed: it tiles the pool, is linked both ways, has no two
free neighbours, and the statistics add up.
-/

namespace BareKernel.NaiveManager

open ByteMemory Runs
open BlockList (Seg Tiles NoFreePair used)

/-- The naive manager as the kernel links it. Freeing has no loop. -/
def manager : Manager Heap where
  mem := Heap.mem
  withMem := fun h m => { h with mem := m }
  allocMemory := allocMemory
  freeMemory := fun h p => some (freeMemory h p)

/-- Clients that write only to the data bytes of the blocks they hold. -/
def insideBlocks (s : Session Heap) (a : ℕ) : Prop :=
  ∃ q ∈ s.live, q.1 ≤ a ∧ a < q.1 + (size s.heap.mem (q.1 - blockHeaderSize.toNat)).toNat

/-! ## The list as the code walks it -/

/-- The blocks met when following `next` from `block`. -/
def walk (m : Mem) : ℕ → ℕ → Option (List ℕ)
  | 0, _ => none
  | fuel + 1, block =>
      if block = NULL then some [] else (walk m fuel (next m block)).map (block :: ·)

/-- The representation invariant of the heap, read off the headers. -/
structure WellFormed (h : Heap) (P : Pool) (blocks : List ℕ) : Prop where
  walk_eq : walk h.mem h.fuel h.firstBlock = some blocks
  first : blocks.head? = some P.base
  increasing : blocks.Pairwise (· < ·)
  physical : blocks.IsChain fun a b => b = nextPhysicalBlock h.mem a
  last : ∀ a ∈ blocks.getLast?, nextPhysicalBlock h.mem a = P.base + P.bytes.toNat
  next_prev : blocks.IsChain fun a b => next h.mem a = b ∧ prev h.mem b = a
  first_prev : prev h.mem P.base = NULL
  last_next : ∀ a ∈ blocks.getLast?, next h.mem a = NULL
  noFreePair : blocks.IsChain fun a b => ¬(isFree h.mem a = true ∧ isFree h.mem b = true)
  status : ∃ st, getMemoryStatus h = some st ∧ st.total = P.bytes ∧
    st.used.toNat + st.free.toNat + blockHeaderSize.toNat * blocks.length = st.total.toNat

theorem walk_eq_of_linked {m : Mem} : ∀ {bs : List Seg} {p fuel : ℕ},
    Linked m p bs NULL → (∀ b ∈ bs, 0 < b.addr) → bs.length < fuel →
    walk m fuel (headOr NULL bs) = some (bs.map Seg.addr)
  | bs, _, 0, _, _, hfuel => absurd hfuel (by omega)
  | [], _, fuel + 1, _, _, _ => by simp [walk, headOr]
  | b :: bs, p, fuel + 1, ⟨hb, hbs⟩, hpos, hfuel => by
      have ih := walk_eq_of_linked hbs (fun c hc => hpos c (by simp [hc]))
        (by simpa using hfuel)
      rw [headOr, walk, if_neg (hpos b (by simp)).ne', hb.next_eq, ih]
      rfl

/-- The statistics loop adds up every block; below `2^32` bytes no sum wraps. -/
theorem countBytes_of_linked {m : Mem} : ∀ {bs : List Seg} {p fuel : ℕ} {u f : UInt32},
    Linked m p bs NULL → (∀ b ∈ bs, 0 < b.addr) → bs.length < fuel →
    u.toNat + f.toNat + (bs.map Seg.size).sum < 2 ^ 32 →
    ∃ u' f', countBytes m fuel (headOr NULL bs) (u, f) = some (u', f') ∧
      u'.toNat + f'.toNat = u.toNat + f.toNat + (bs.map Seg.size).sum
  | bs, _, 0, _, _, _, _, hfuel, _ => absurd hfuel (by omega)
  | [], _, fuel + 1, u, f, _, _, _, _ => ⟨u, f, by simp [countBytes, headOr], by simp⟩
  | b :: bs, p, fuel + 1, u, f, ⟨hb, hbs⟩, hpos, hfuel, hsum => by
      have hb_pos := (hpos b (by simp)).ne'
      have hpos' : ∀ c ∈ bs, 0 < c.addr := fun c hc => hpos c (by simp [hc])
      have hfuel' : bs.length < fuel := by simpa using hfuel
      have hsize := hb.size_eq
      rw [List.map_cons, List.sum_cons] at hsum ⊢
      rw [headOr, countBytes, if_neg hb_pos, hb.free_eq, hb.next_eq]
      cases b.free with
      | true =>
          have hadd : (f + size m b.addr).toNat = f.toNat + b.size := by
            rw [UInt32.toNat_add]
            omega
          obtain ⟨u', f', hcount, htotal⟩ := countBytes_of_linked (u := u)
            (f := f + size m b.addr) hbs hpos' hfuel' (by omega)
          exact ⟨u', f', by simpa using hcount, by omega⟩
      | false =>
          have hadd : (u + size m b.addr).toNat = u.toNat + b.size := by
            rw [UInt32.toNat_add]
            omega
          obtain ⟨u', f', hcount, htotal⟩ := countBytes_of_linked
            (u := u + size m b.addr) (f := f) hbs hpos' hfuel' (by omega)
          exact ⟨u', f', by simpa using hcount, by omega⟩

/-! ## From the represented list to the headers -/

/-- A property of neighbouring blocks that the headers show. -/
theorem Linked.isChain {m : Mem} {R : ℕ → ℕ → Prop} : ∀ {l : List Seg} {lo hi p : ℕ},
    Linked m p l NULL → Tiles 24 lo l hi → NoFreePair l →
    (∀ b c : Seg, ∀ p q q' : ℕ, HeaderAt m b p q → HeaderAt m c b.addr q' → q = c.addr →
      c.addr = b.addr + 24 + b.size → ¬(b.free = true ∧ c.free = true) → R b.addr c.addr) →
    (l.map Seg.addr).IsChain R
  | [], _, _, _, _, _, _, _ => List.isChain_nil
  | [_], _, _, _, _, _, _, _ => List.isChain_singleton _
  | b :: c :: cs, lo, hi, p, ⟨hb, hc, hcs⟩, ⟨_, ht⟩, hpair, hR => by
      unfold NoFreePair at hpair
      rw [List.isChain_cons] at hpair
      have ih := Linked.isChain (l := c :: cs) ⟨hc, hcs⟩ ht hpair.2 hR
      simp only [List.map_cons] at ih ⊢
      rw [List.isChain_cons]
      refine ⟨?_, ih⟩
      intro a ha
      obtain rfl : c.addr = a := by simpa using ha
      exact hR b c _ _ _ hb hc rfl ht.1 (hpair.1 c (by simp))

theorem Linked.last {m : Mem} : ∀ {bs : List Seg} {lo hi p : ℕ},
    Linked m p bs NULL → Tiles 24 lo bs hi →
    ∀ a ∈ (bs.map Seg.addr).getLast?, nextPhysicalBlock m a = hi ∧ next m a = NULL
  | [], _, _, _, _, _, a, ha => by simp at ha
  | [b], lo, hi, p, ⟨hb, _⟩, ⟨_, ht⟩, a, ha => by
      obtain rfl : b.addr = a := by simpa using ha
      exact ⟨by rw [nextPhysicalBlock_eq hb]; exact ht, hb.next_eq⟩
  | b :: c :: cs, _, _, _, ⟨_, hbs⟩, ⟨_, ht⟩, a, ha =>
      Linked.last hbs ht a (by simpa using ha)

/-- **The list in memory is well formed** whenever it represents a tiling of
the pool without free neighbours. -/
theorem Rep.wellFormed {h : Heap} {P : Pool} {bs : List Seg} (hr : Rep h P bs) :
    WellFormed h P (bs.map Seg.addr) := by
  have hpos : ∀ b ∈ bs, 0 < b.addr := fun b hb => (hr.bounds b hb).1
  obtain ⟨b, bs', hbs⟩ := List.exists_cons_of_ne_nil hr.ne_nil
  have hfirst : headOr NULL bs = h.firstBlock := by
    rw [hr.first, hbs]
    exact (hbs ▸ hr.tiles : Tiles 24 P.base (b :: bs') P.stop).1
  have hbase : b.addr = P.base := (hbs ▸ hr.tiles : Tiles 24 P.base (b :: bs') P.stop).1
  have htotal := hr.tiles.total
  have hlt := P.lt_int
  simp only [Pool.stop] at htotal
  refine ⟨?_, ?_, ?_, ?_, ?_, ?_, ?_, ?_, ?_, ?_⟩
  · rw [← hfirst]
    exact walk_eq_of_linked hr.linked hpos hr.length_lt
  · simp [hbs, hbase]
  · refine List.pairwise_map.mpr (hr.tiles.pairwise.imp ?_)
    intro a c hac
    unfold Seg.stop at hac
    omega
  · refine hr.linked.isChain hr.tiles hr.noFreePair ?_
    intro b c p q q' hb _ _ hadj _
    rw [nextPhysicalBlock_eq hb, hadj]
  · intro a ha
    exact (hr.linked.last hr.tiles a ha).1
  · refine hr.linked.isChain hr.tiles hr.noFreePair ?_
    intro b c p q q' hb hc hq _ _
    exact ⟨by rw [hb.next_eq, hq], hc.prev_eq⟩
  · have hl : Linked h.mem NULL (b :: bs') NULL := hbs ▸ hr.linked
    rw [← hbase]
    exact hl.1.prev_eq
  · intro a ha
    exact (hr.linked.last hr.tiles a ha).2
  · refine hr.linked.isChain hr.tiles hr.noFreePair ?_
    intro b c p q q' hb hc _ _ hne
    rw [hb.free_eq, hc.free_eq]
    exact hne
  · obtain ⟨u, f, hcount, hsum⟩ := countBytes_of_linked (u := 0) (f := 0) hr.linked hpos
      hr.length_lt (by simp only [UInt32.toNat_zero]; omega)
    rw [hfirst] at hcount
    refine ⟨_, by rw [getMemoryStatus, hcount]; rfl, hr.pool, ?_⟩
    rw [blockHeaderSize_toNat, List.length_map, hr.pool]
    simp only [UInt32.toNat_zero] at hsum ⊢
    omega

/-! ## Runs -/

/-- The pointers the clients hold are the data of the blocks in use. -/
def Tracks (live : List (ℕ × UInt32)) (bs : List Seg) : Prop :=
  (live.map Prod.fst).Perm ((used bs).map fun b => b.addr + 24)

/-- The invariant of a session: the heap represents some list, and the clients
hold its blocks in use. -/
def Inv (P : Pool) (s : Session Heap) : Prop :=
  ∃ bs, Rep s.heap P bs ∧ Tracks s.live bs

theorem Tracks.mem {live : List (ℕ × UInt32)} {bs : List Seg} (h : Tracks live bs) {p : ℕ}
    (hp : p ∈ live.map Prod.fst) : ∃ b ∈ bs, b.free = false ∧ p = b.addr + 24 := by
  obtain ⟨b, hb, rfl⟩ := List.mem_map.mp (h.mem_iff.mp hp)
  exact ⟨b, (BlockList.mem_used.mp hb).1, (BlockList.mem_used.mp hb).2, rfl⟩

/-- Taking the carved block adds one pointer. -/
theorem Tracks.alloc {live : List (ℕ × UInt32)} {pre post : List Seg} {b : Seg} {sz : UInt32}
    {req : ℕ} (hfree : b.free = true) (h : Tracks live (pre ++ b :: post)) :
    Tracks ((b.addr + 24, sz) :: live) (pre ++ (BlockList.carve 24 8 req b ++ post)) := by
  unfold Tracks at h ⊢
  rw [BlockList.used_append_free hfree] at h
  rw [BlockList.used_append_carve, List.map_cons, List.map_append, List.map_cons]
  refine (h.cons _).trans ?_
  rw [List.map_append]
  exact List.perm_middle.symm

/-- Releasing a block drops its pointer and no other. -/
theorem Tracks.release {live : List (ℕ × UInt32)} {bs : List Seg} (a : ℕ)
    (h : Tracks live bs) :
    Tracks (live.filter fun q => q.1 ≠ a + 24) (BlockList.release 24 a bs) := by
  unfold Tracks at h ⊢
  rw [BlockList.used_release]
  have hleft : (live.filter fun q => q.1 ≠ a + 24).map Prod.fst =
      (live.map Prod.fst).filter fun p => p ≠ a + 24 := by
    rw [List.filter_map]
    rfl
  have hright : ((used bs).filter fun b => b.addr ≠ a).map (fun b => b.addr + 24) =
      ((used bs).map fun b => b.addr + 24).filter fun p => p ≠ a + 24 := by
    rw [List.filter_map]
    congr 1
    apply List.filter_congr
    intro b _
    simp
  rw [hleft, hright]
  exact h.filter _

/-- What one call of `allocMemory` can do on a represented heap. -/
theorem allocMemory_cases {h h' : Heap} {P : Pool} {bs : List Seg} {sz : UInt32} {p : ℕ}
    (hr : Rep h P bs) (halloc : allocMemory h sz = some (p, h')) :
    (p = NULL ∧ h' = h) ∨
    ∃ pre b post, bs = pre ++ b :: post ∧ b.free = true ∧ (align sz).toNat ≤ b.size ∧
      p = b.addr + 24 ∧ Rep h' P (pre ++ (BlockList.carve 24 8 (align sz).toNat b ++ post)) := by
  by_cases hsz : sz = 0
  · rw [allocMemory, if_pos hsz] at halloc
    obtain ⟨rfl, rfl⟩ : NULL = p ∧ h = h' := by simpa using halloc
    exact Or.inl ⟨rfl, rfl⟩
  have hspec := allocMemory_rep hr hsz
  cases hfit : BlockList.firstFit (align sz).toNat bs with
  | none =>
      rw [hfit] at hspec
      obtain ⟨rfl, rfl⟩ : NULL = p ∧ h = h' := by simpa [hspec] using halloc
      exact Or.inl ⟨rfl, rfl⟩
  | some r =>
      obtain ⟨pre, b, post⟩ := r
      rw [hfit] at hspec
      obtain ⟨h'', heq, hr''⟩ := hspec
      obtain ⟨hbs, hfree, hreq, -⟩ := BlockList.firstFit_spec hfit
      rw [heq] at halloc
      obtain ⟨rfl, rfl⟩ : b.addr + 24 = p ∧ h'' = h' := by simpa using halloc
      exact Or.inr ⟨pre, b, post, hbs, hfree, hreq, rfl, hr''⟩

/-- Allocation returns on every represented heap. -/
theorem allocMemory_isSome {h : Heap} {P : Pool} {bs : List Seg} (hr : Rep h P bs)
    (sz : UInt32) : (allocMemory h sz).isSome = true := by
  by_cases hsz : sz = 0
  · simp [allocMemory, hsz]
  have hspec := allocMemory_rep hr hsz
  cases hfit : BlockList.firstFit (align sz).toNat bs with
  | none =>
      rw [hfit] at hspec
      simp [hspec]
  | some r =>
      rw [hfit] at hspec
      obtain ⟨h', heq, -⟩ := hspec
      simp [heq]

/-- Writes that leave every header alone keep the representation. -/
theorem Rep.write {h : Heap} {P : Pool} {bs : List Seg} (hr : Rep h P bs) {m : Mem}
    (hm : ∀ b ∈ bs, AgreeOn h.mem m b.addr 24) : Rep { h with mem := m } P bs :=
  ⟨hr.first, hr.pool, hr.tiles, hr.linked.frame hm, hr.noFreePair⟩

/-- The data of a block is clear of every header. -/
theorem Rep.data_apart {h : Heap} {P : Pool} {bs : List Seg} (hr : Rep h P bs) {b c : Seg}
    (hb : b ∈ bs) (hc : c ∈ bs) {a : ℕ} (ha : b.addr + 24 ≤ a) (ha' : a < b.addr + 24 + b.size) :
    ¬(c.addr ≤ a ∧ a < c.addr + 24) := by
  rintro ⟨hca, hca'⟩
  rcases hr.tiles.apart hb hc with rfl | h | h
  · omega
  all_goals
    unfold Seg.stop at h
    omega

/-- **What one step of the clients can do** to a represented heap, when they
write to no header. -/
theorem step_cases {writable : Session Heap → ℕ → Prop} {P : Pool} {s t : Session Heap}
    {r : Request} {bs : List Seg} (hr : Rep s.heap P bs) (htr : Tracks s.live bs)
    (hwrite : ∀ a, writable s a → ∀ b ∈ bs, ¬(b.addr ≤ a ∧ a < b.addr + 24))
    (hstep : Session.Step manager writable s r t) :
    (t.live = s.live ∧ Rep t.heap P bs) ∨
    (∃ pre b post sz, bs = pre ++ b :: post ∧ b.free = true ∧ (align sz).toNat ≤ b.size ∧
      r = .alloc sz ∧ t.live = (b.addr + 24, sz) :: s.live ∧
      Rep t.heap P (pre ++ (BlockList.carve 24 8 (align sz).toNat b ++ post))) ∨
    ∃ b ∈ bs, b.free = false ∧ r = .free (b.addr + 24) ∧
      t.live = (s.live.filter fun q => q.1 ≠ b.addr + 24) ∧
      Rep t.heap P (BlockList.release 24 b.addr bs) := by
  cases hstep with
  | allocNull halloc =>
      rcases allocMemory_cases hr halloc with ⟨-, rfl⟩ | ⟨_, b, _, _, _, _, hp, _⟩
      · exact Or.inl ⟨rfl, hr⟩
      · exact absurd hp (by simp)
  | alloc halloc hp =>
      rcases allocMemory_cases hr halloc with ⟨rfl, -⟩ | ⟨pre, b, post, hbs, hfree, hsz, rfl, hr'⟩
      · exact absurd rfl hp
      · exact Or.inr (Or.inl ⟨pre, b, post, _, hbs, hfree, hsz, rfl, rfl, hr'⟩)
  | freeNull hfree =>
      obtain rfl : freeMemory s.heap NULL = _ := by simpa [manager] using hfree
      exact Or.inl ⟨rfl, by simpa [freeMemory] using hr⟩
  | free hp hfree =>
      obtain ⟨b, hb, hused, rfl⟩ := htr.mem hp
      obtain rfl : freeMemory s.heap (b.addr + 24) = _ := by simpa [manager] using hfree
      exact Or.inr (Or.inr ⟨b, hb, hused, rfl, rfl, freeMemory_rep hr hb hused⟩)
  | write hm =>
      refine Or.inl ⟨rfl, hr.write fun c hc a ha ha' => hm a fun hwr => ?_⟩
      exact hwrite a hwr c hc ⟨ha, ha'⟩

/-- Clients that write inside their blocks write to no header. -/
theorem Rep.inside_clear {P : Pool} {s : Session Heap} {bs : List Seg} (hr : Rep s.heap P bs)
    (htr : Tracks s.live bs) :
    ∀ a, insideBlocks s a → ∀ b ∈ bs, ¬(b.addr ≤ a ∧ a < b.addr + 24) := by
  rintro a ⟨q, hq, hqa, hqa'⟩ c hc
  obtain ⟨b, hb, -, hqb⟩ := htr.mem (List.mem_map_of_mem (f := Prod.fst) hq)
  rw [hqb, blockHeaderSize_toNat, Nat.add_sub_cancel, (hr.linked.header b hb).1] at hqa'
  exact hr.data_apart hb hc (by omega) hqa'

theorem inv_step {P : Pool} {s t : Session Heap} {r : Request} (hinv : Inv P s)
    (hstep : Session.Step manager insideBlocks s r t) : Inv P t := by
  obtain ⟨bs, hr, htr⟩ := hinv
  rcases step_cases hr htr (hr.inside_clear htr) hstep with ⟨hlive, hr'⟩ |
    ⟨pre, b, post, sz, rfl, hfree, -, -, hlive, hr'⟩ | ⟨b, -, -, -, hlive, hr'⟩
  · exact ⟨bs, hr', hlive ▸ htr⟩
  · exact ⟨_, hr', hlive ▸ htr.alloc hfree⟩
  · exact ⟨_, hr', hlive ▸ htr.release b.addr⟩

/-- The manager just created, before any client holds a pointer. -/
def boot (h : Heap) (P : Pool) : Session Heap :=
  { heap := createMemoryManager h P.base P.bytes, live := [] }

theorem inv_boot (h : Heap) (P : Pool) : Inv P (boot h P) :=
  ⟨_, createMemoryManager_rep h P, by simp [Tracks, boot, used]⟩

def kernelPool : Pool where
  base := memoryStart
  bytes := memorySize
  nonnull := by decide
  aligned := by decide
  header_lt := by decide
  lt_int := by decide
  fits := by decide

/-- The first request is carved off the start of the pool. -/
theorem boot_alloc (h : Heap) (P : Pool) (sz : UInt32) (hsz : sz ≠ 0)
    (hfit : (align sz).toNat ≤ P.bytes.toNat - 24) :
    ∃ h', allocMemory (boot h P).heap sz = some (P.base + 24, h') := by
  have hspec := allocMemory_rep (createMemoryManager_rep h P) hsz
  rw [show BlockList.firstFit (align sz).toNat
      [{ addr := P.base, size := P.bytes.toNat - 24, free := true }] =
      some ([], { addr := P.base, size := P.bytes.toNat - 24, free := true }, []) by
    simp [BlockList.firstFit, hfit]] at hspec
  obtain ⟨h', heq, -⟩ := hspec
  exact ⟨h', heq⟩

/-- **Representation invariant of the naive heap.** After any sequence of
allocations of any size, frees of `NULL` or a live pointer, and client writes
inside the blocks held, the list in memory is well formed, and the next
allocation returns. -/
theorem list_wellFormed (h : Heap) (P : Pool) {s : Session Heap}
    (hrun : Reaches (Session.Step manager insideBlocks) always (boot h P) s) :
    (∃ blocks, WellFormed s.heap P blocks) ∧ ∀ sz, (allocMemory s.heap sz).isSome = true := by
  obtain ⟨bs, hr, -⟩ := hrun.invariant (inv_boot h P)
    fun _ _ _ hinv _ hstep => inv_step hinv hstep
  exact ⟨⟨_, hr.wellFormed⟩, allocMemory_isSome hr⟩

/-- The static variables of the manager before the kernel starts it. -/
def zeroHeap : Heap := ⟨fun _ => 0, NULL, 0⟩

/-- Two blocks of 100 bytes, the first of which was given back. -/
def fragments : List Seg :=
  [⟨memoryStart, 104, true⟩, ⟨memoryStart + 128, 104, false⟩, ⟨memoryStart + 256, 4194024, true⟩]

/-- The requests that lead there. -/
def fragmenting (r : Request) : Prop := r = .alloc 100 ∨ r = .free (memoryStart + 24)

theorem fragmented (W : Session Heap → ℕ → Prop) (ok : Session Heap → Request → Prop)
    (hok : ∀ s r, fragmenting r → ok s r) :
    ∃ s, Reaches (Session.Step manager W) ok (boot zeroHeap kernelPool) s ∧
      s.live = [(memoryStart + 152, 100)] ∧ Rep s.heap kernelPool fragments := by
  have hfirst := allocMemory_rep (createMemoryManager_rep zeroHeap kernelPool)
    (show (100 : UInt32) ≠ 0 by decide)
  rw [show BlockList.firstFit (align 100).toNat
    [⟨kernelPool.base, kernelPool.bytes.toNat - 24, true⟩] =
    some ([], ⟨memoryStart, 4194280, true⟩, []) by decide] at hfirst
  obtain ⟨h₁, halloc₁, hr₁⟩ := hfirst
  have hone : [] ++ (BlockList.carve 24 8 (align 100).toNat ⟨memoryStart, 4194280, true⟩ ++ []) =
      [⟨memoryStart, 104, false⟩, ⟨memoryStart + 128, 4194152, true⟩] := by decide
  rw [hone] at hr₁
  have hsecond := allocMemory_rep hr₁ (show (100 : UInt32) ≠ 0 by decide)
  rw [show BlockList.firstFit (align 100).toNat
    [⟨memoryStart, 104, false⟩, ⟨memoryStart + 128, 4194152, true⟩] =
    some ([⟨memoryStart, 104, false⟩], ⟨memoryStart + 128, 4194152, true⟩, []) by decide] at hsecond
  obtain ⟨h₂, halloc₂, hr₂⟩ := hsecond
  have htwo : [⟨memoryStart, 104, false⟩] ++
      (BlockList.carve 24 8 (align 100).toNat ⟨memoryStart + 128, 4194152, true⟩ ++ []) =
      [⟨memoryStart, 104, false⟩, ⟨memoryStart + 128, 104, false⟩,
        ⟨memoryStart + 256, 4194024, true⟩] := by decide
  rw [htwo] at hr₂
  have hr₃ := freeMemory_rep hr₂ (b := ⟨memoryStart, 104, false⟩) (by simp) rfl
  have hthree :
      BlockList.release 24 memoryStart [⟨memoryStart, 104, false⟩, ⟨memoryStart + 128, 104, false⟩,
      ⟨memoryStart + 256, 4194024, true⟩] = fragments := by decide
  rw [hthree] at hr₃
  have hstep₁ : Session.Step manager W (boot zeroHeap kernelPool) (.alloc 100)
      ⟨h₁, [(memoryStart + 24, 100)]⟩ := .alloc halloc₁ (by decide)
  have hstep₂ : Session.Step manager W ⟨h₁, [(memoryStart + 24, 100)]⟩ (.alloc 100)
      ⟨h₂, [(memoryStart + 152, 100), (memoryStart + 24, 100)]⟩ := .alloc halloc₂ (by decide)
  have hstep₃ : Session.Step manager W ⟨h₂, [(memoryStart + 152, 100), (memoryStart + 24, 100)]⟩
      (.free (memoryStart + 24)) ⟨freeMemory h₂ (memoryStart + 24), [(memoryStart + 152, 100)]⟩ :=
    .free (by simp) rfl
  exact ⟨_, (((Reaches.refl _).tail (hok _ _ (.inl rfl)) hstep₁).tail (hok _ _ (.inl rfl))
    hstep₂).tail (hok _ _ (.inr rfl)) hstep₃, rfl, hr₃⟩

/-- The list is well formed on a heap with gaps. -/
theorem list_wellFormed_fragmented : ∃ s : Session Heap, s.live = [(memoryStart + 152, 100)] ∧
    Rep s.heap kernelPool fragments ∧ ∃ blocks, WellFormed s.heap kernelPool blocks := by
  obtain ⟨s, hrun, hlive, hr⟩ := fragmented insideBlocks always fun _ _ _ => trivial
  exact ⟨s, hlive, hr, (list_wellFormed zeroHeap kernelPool hrun).1⟩

end BareKernel.NaiveManager
