import BareKernel.Memory.NaiveManager

/-!
# The naive heap represents a block list

The headers in memory are related to the abstract block list of
`Lib.BlockList`: each header carries the size and the flag of its block and
points to its neighbours, and the blocks tile the pool. Every operation of the
manager is one operation on the list. A write is harmless to every header it
is clear of, so each step rewrites the few headers it touches and frames the
others.
-/

namespace BareKernel.NaiveManager

open ByteMemory
open BlockList (Seg Tiles NoFreePair)

/-- A pool the manager can be created on: a non-null, 8-aligned range of the
address space, larger than one header and below 2 GiB. -/
structure Pool where
  base : ℕ
  bytes : UInt32
  nonnull : base ≠ NULL
  aligned : base % 8 = 0
  header_lt : blockHeaderSize < bytes
  lt_int : bytes.toNat < 2 ^ 31
  fits : base + bytes.toNat ≤ 2 ^ 64

def Pool.stop (P : Pool) : ℕ := P.base + P.bytes.toNat

/-! ## Headers linked in both directions -/

/-- The header in memory at `b.addr` is the one of `b`, between `p` and `q`. -/
structure HeaderAt (m : Mem) (b : Seg) (p q : ℕ) : Prop where
  size_eq : (size m b.addr).toNat = b.size
  free_eq : isFree m b.addr = b.free
  next_eq : next m b.addr = q
  prev_eq : prev m b.addr = p

theorem HeaderAt.frame {m m' : Mem} {b : Seg} {p q : ℕ} (h : HeaderAt m b p q)
    (hag : AgreeOn m m' b.addr 24) : HeaderAt m' b p q := by
  obtain ⟨hsize, hfree, hnext, hprev⟩ := header_congr hag
  exact ⟨by rw [hsize, h.size_eq], by rw [hfree, h.free_eq], by rw [hnext, h.next_eq],
    by rw [hprev, h.prev_eq]⟩

/-- The address of the first block, or `q` when there is none. -/
def headOr (q : ℕ) : List Seg → ℕ
  | [] => q
  | b :: _ => b.addr

/-- The address of the last block, or `p` when there is none. -/
def lastOr (p : ℕ) : List Seg → ℕ
  | [] => p
  | b :: bs => lastOr b.addr bs

/-- The headers of the list are linked both ways, from `p` before the first
block to `q` after the last. -/
def Linked (m : Mem) : ℕ → List Seg → ℕ → Prop
  | _, [], _ => True
  | p, b :: bs, q => HeaderAt m b p (headOr q bs) ∧ Linked m b.addr bs q

theorem headOr_append (q : ℕ) (xs ys : List Seg) :
    headOr q (xs ++ ys) = headOr (headOr q ys) xs := by
  cases xs <;> rfl

theorem Linked.append {m : Mem} {q : ℕ} {ys : List Seg} : ∀ {xs : List Seg} {p : ℕ},
    Linked m p (xs ++ ys) q ↔ Linked m p xs (headOr q ys) ∧ Linked m (lastOr p xs) ys q
  | [], p => by simp [Linked, lastOr]
  | b :: xs, p => by
      rw [List.cons_append, Linked, Linked, headOr_append, Linked.append, lastOr,
        and_assoc]

theorem Linked.frame {m m' : Mem} {q : ℕ} : ∀ {bs : List Seg} {p : ℕ},
    Linked m p bs q → (∀ b ∈ bs, AgreeOn m m' b.addr 24) → Linked m' p bs q
  | [], _, _, _ => trivial
  | b :: bs, _, ⟨hb, hbs⟩, hag =>
      ⟨hb.frame (hag b (by simp)), hbs.frame fun c hc => hag c (by simp [hc])⟩

/-- Every header of the list shows its block. -/
theorem Linked.header {m : Mem} {q : ℕ} : ∀ {bs : List Seg} {p : ℕ},
    Linked m p bs q → ∀ b ∈ bs, (size m b.addr).toNat = b.size ∧ isFree m b.addr = b.free
  | c :: bs, _, ⟨hc, hbs⟩, b, hb => by
      rcases List.mem_cons.mp hb with rfl | hb
      · exact ⟨hc.size_eq, hc.free_eq⟩
      · exact hbs.header b hb

/-- Redirecting the back link of the first block of a list, as the three
callers do it: only when there is a first block. -/
theorem Linked.relink {m : Mem} {p x lo hi : ℕ} {bs : List Seg} (h : Linked m p bs NULL)
    (ht : Tiles 24 lo bs hi) (hlo : 0 < lo) (hx : x < 2 ^ 64) :
    Linked (if headOr NULL bs ≠ NULL then setPrev m (headOr NULL bs) x else m) x bs NULL := by
  cases bs with
  | nil => trivial
  | cons b bs =>
      obtain ⟨hb, hbs⟩ := h
      have hne : headOr NULL (b :: bs) ≠ NULL := by
        rw [headOr, ht.1]
        exact hlo.ne'
      rw [if_pos hne]
      refine ⟨⟨?_, ?_, ?_, ?_⟩, hbs.frame ?_⟩
      · simpa [headOr] using hb.size_eq
      · simpa [headOr] using hb.free_eq
      · simpa [headOr] using hb.next_eq
      · exact prev_setPrev hx
      · intro c hc
        have := (ht.2.bounds c hc).1
        exact setPrev_agreeOn (Or.inl (by simp only [Seg.stop, headOr] at *; omega))

/-- The relinked memory differs from the old one in that block's header only. -/
theorem relink_agreeOn {m : Mem} {x a : ℕ} {bs : List Seg}
    (h : ∀ b ∈ bs, Clear 24 b.addr a) :
    AgreeOn m (if headOr NULL bs ≠ NULL then setPrev m (headOr NULL bs) x else m) a 24 := by
  cases bs with
  | nil => exact AgreeOn.refl m a 24
  | cons b bs =>
      split
      · exact setPrev_agreeOn (h b (by simp))
      · exact AgreeOn.refl m a 24

/-! ## Split -/

/-- The four writes that make a header at `a`. -/
theorem writeHeader {m : Mem} {a p q : ℕ} {s : UInt32} {f : Bool} (hp : p < 2 ^ 64)
    (hq : q < 2 ^ 64) :
    HeaderAt (setPrev (setNext (setFree (setSize m a s) a f) a q) a p)
      { addr := a, size := s.toNat, free := f } p q where
  size_eq := by simp
  free_eq := by simp
  next_eq := by rw [next_setPrev, next_setNext hq]
  prev_eq := prev_setPrev hp

theorem writeHeader_agreeOn {m : Mem} {a b p q : ℕ} {s : UInt32} {f : Bool}
    (h : Clear 24 a b) :
    AgreeOn m (setPrev (setNext (setFree (setSize m a s) a f) a q) a p) b 24 :=
  (((setSize_agreeOn h s).trans (setFree_agreeOn h f)).trans (setNext_agreeOn h)).trans
    (setPrev_agreeOn h)

/-- What `Tiles` says around one block: where the block lies, and that no
header of the list, nor the block's own data, overlaps another header. -/
theorem tiles_around {pre post : List Seg} {b : Seg} {lo hi : ℕ}
    (ht : Tiles 24 lo (pre ++ b :: post) hi) :
    lo ≤ b.addr ∧ b.addr + 24 + b.size ≤ hi ∧
      (∀ c ∈ pre, lo ≤ c.addr ∧ c.addr + 24 + c.size ≤ b.addr) ∧
      (∀ c ∈ post, b.addr + 24 + b.size ≤ c.addr ∧ c.addr + 24 + c.size ≤ hi) ∧
      Tiles 24 (b.addr + 24 + b.size) post hi := by
  obtain ⟨mid, hpre, hb, hpost⟩ := Tiles.append.mp ht
  have hbounds := ht.bounds b (by simp)
  refine ⟨hbounds.1, hbounds.2, ?_, hpost.bounds, hpost⟩
  intro c hc
  have := hpre.bounds c hc
  exact ⟨this.1, by rw [hb]; exact this.2⟩

theorem splitBlock_linked {m : Mem} {P : Pool} {pre post : List Seg} {b : Seg} {req : UInt32}
    (hl : Linked m NULL (pre ++ b :: post) NULL)
    (ht : Tiles 24 P.base (pre ++ b :: post) P.stop) (hreq : req.toNat + 24 + 8 ≤ b.size) :
    Linked (splitBlock m b.addr req) NULL
      (pre ++ { b with size := req.toNat } ::
        { addr := b.addr + 24 + req.toNat, size := b.size - req.toNat - 24, free := true } ::
          post) NULL := by
  obtain ⟨hlo, hhi, hpre_b, hpost_b, htpost⟩ := tiles_around ht
  obtain ⟨hpre, hb, hpost⟩ := Linked.append.mp hl
  have hfits := P.fits
  have hlt := P.lt_int
  simp only [Pool.stop] at *
  -- the new header lies inside the data of `b`, clear of every header
  have hnew_b : Clear 24 (b.addr + 24 + req.toNat) b.addr := Or.inr (by omega)
  have hnew_pre : ∀ c ∈ pre, Clear 24 (b.addr + 24 + req.toNat) c.addr :=
    fun c hc => Or.inr (by have := hpre_b c hc; omega)
  have hnew_post : ∀ c ∈ post, Clear 24 (b.addr + 24 + req.toNat) c.addr :=
    fun c hc => Or.inl (by have := hpost_b c hc; omega)
  have hsize : (size m b.addr - req - blockHeaderSize).toNat = b.size - req.toNat - 24 := by
    have hb_size := hb.size_eq
    have hle : req ≤ size m b.addr := UInt32.le_iff_toNat_le.mpr (by omega)
    have hsub := UInt32.toNat_sub_of_le _ _ hle
    have hle' : blockHeaderSize ≤ size m b.addr - req :=
      UInt32.le_iff_toNat_le.mpr (by rw [hsub, blockHeaderSize_toNat]; omega)
    rw [UInt32.toNat_sub_of_le _ _ hle', hsub, blockHeaderSize_toNat, hb_size]
  have hnext₂ : next (setFree (setSize m (b.addr + 24 + req.toNat)
      (size m b.addr - req - blockHeaderSize)) (b.addr + 24 + req.toNat) true) b.addr =
      headOr NULL post := by
    rw [(header_congr ((setSize_agreeOn hnew_b _).trans (setFree_agreeOn hnew_b _))).2.2.1]
    exact hb.next_eq
  simp only [splitBlock, blockHeaderSize_toNat]
  rw [hnext₂]
  have hhead : headOr NULL post < 2 ^ 64 := by
    cases post with
    | nil => simp [headOr]
    | cons c cs =>
        have := hpost_b c (by simp)
        simp only [headOr]
        omega
  set m₄ := setPrev (setNext (setFree (setSize m (b.addr + 24 + req.toNat)
    (size m b.addr - req - blockHeaderSize)) (b.addr + 24 + req.toNat) true)
    (b.addr + 24 + req.toNat) (headOr NULL post)) (b.addr + 24 + req.toNat) b.addr with hm₄
  have hagree₄ : ∀ {a : ℕ}, Clear 24 (b.addr + 24 + req.toNat) a → AgreeOn m m₄ a 24 :=
    fun h => writeHeader_agreeOn h
  have hnew₄ : HeaderAt m₄ ⟨b.addr + 24 + req.toNat, b.size - req.toNat - 24, true⟩
      b.addr (headOr NULL post) := by
    rw [← hsize]
    exact writeHeader (by omega) hhead
  have hb₄ := hb.frame (hagree₄ hnew_b)
  rw [hb₄.next_eq]
  set m₅ := if headOr NULL post ≠ NULL
    then setPrev m₄ (headOr NULL post) (b.addr + 24 + req.toNat) else m₄ with hm₅
  have hpost₅ : Linked m₅ (b.addr + 24 + req.toNat) post NULL :=
    (hpost.frame fun c hc => hagree₄ (hnew_post c hc)).relink htpost (by omega) (by omega)
  have hnew₅ := hnew₄.frame (relink_agreeOn (x := b.addr + 24 + req.toNat)
    fun c hc => (hnew_post c hc).symm)
  have hb_post : ∀ c ∈ post, Clear 24 c.addr b.addr :=
    fun c hc => Or.inr (by have := hpost_b c hc; omega)
  have hb₅ := hb₄.frame (relink_agreeOn (x := b.addr + 24 + req.toNat) hb_post)
  have hpre₅ : Linked m₅ NULL pre b.addr := by
    refine hpre.frame fun c hc => (hagree₄ (hnew_pre c hc)).trans (relink_agreeOn fun d hd => ?_)
    have := hpre_b c hc
    have := hpost_b d hd
    exact Or.inr (by omega)
  -- the two writes to the header of `b` itself
  have hagree₇ : ∀ {a : ℕ}, Clear 24 b.addr a →
      AgreeOn m₅ (setSize (setNext m₅ b.addr (b.addr + 24 + req.toNat)) b.addr req) a 24 :=
    fun h => (setNext_agreeOn h).trans (setSize_agreeOn h _)
  refine Linked.append.mpr ⟨hpre₅.frame fun c hc => hagree₇ ?_, ⟨⟨?_, ?_, ?_, ?_⟩, ?_, ?_⟩⟩
  · have := hpre_b c hc
    exact Or.inr (by omega)
  · exact congrArg UInt32.toNat (size_setSize req)
  · rw [isFree_setSize, isFree_setNext]
    exact hb₅.free_eq
  · rw [next_setSize]
    exact next_setNext (by omega)
  · rw [prev_setSize, prev_setNext]
    exact hb₅.prev_eq
  · exact hnew₅.frame (hagree₇ hnew_b.symm)
  · exact hpost₅.frame fun c hc => hagree₇ (hb_post c hc).symm

/-! ## Merge -/

theorem mergeBlocks_linked {m : Mem} {P : Pool} {pre post : List Seg} {b c : Seg}
    (hl : Linked m NULL (pre ++ b :: c :: post) NULL)
    (ht : Tiles 24 P.base (pre ++ b :: c :: post) P.stop) :
    Linked (mergeBlocks m b.addr c.addr) NULL
      (pre ++ { b with size := b.size + (24 + c.size) } :: post) NULL := by
  obtain ⟨hlo, hhi, hpre_b, hpost_b, ⟨hc_addr, htpost⟩⟩ := tiles_around ht
  obtain ⟨hpre, hb, hc, hpost⟩ := Linked.append.mp hl
  have hfits := P.fits
  have hlt := P.lt_int
  have hbase := P.nonnull
  have hc_hi := (hpost_b c (by simp)).2
  simp only [Pool.stop, NULL] at *
  have hb_c : Clear 24 b.addr c.addr := Or.inl (by omega)
  have hpost_c : ∀ d ∈ post, c.addr + 24 + c.size ≤ d.addr ∧
      d.addr + 24 + d.size ≤ P.base + P.bytes.toNat := htpost.bounds
  have hhead : headOr 0 post < 2 ^ 64 := by
    cases post with
    | nil => simp [headOr]
    | cons d ds =>
        have := hpost_c d (by simp)
        simp only [headOr]
        omega
  simp only [mergeBlocks]
  set m₁ := setSize m b.addr (size m b.addr + (blockHeaderSize + size m c.addr)) with hm₁
  have hc₁ : HeaderAt m₁ c b.addr (headOr 0 post) := hc.frame (setSize_agreeOn hb_c _)
  rw [hc₁.next_eq]
  have hc₂ : HeaderAt (setNext m₁ b.addr (headOr 0 post)) c b.addr (headOr 0 post) :=
    hc₁.frame (setNext_agreeOn hb_c)
  rw [hc₂.next_eq]
  set m₂ := setNext m₁ b.addr (headOr 0 post) with hm₂
  have hagree₂ : ∀ {a : ℕ}, Clear 24 b.addr a → AgreeOn m m₂ a 24 :=
    fun h => (setSize_agreeOn h _).trans (setNext_agreeOn h)
  have hb₂ : HeaderAt m₂ { b with size := b.size + (24 + c.size) } (lastOr 0 pre)
      (headOr 0 post) := by
    refine ⟨?_, ?_, ?_, ?_⟩
    · have hb_size := hb.size_eq
      have hc_size := hc.size_eq
      rw [size_setNext, size_setSize, UInt32.toNat_add, UInt32.toNat_add, hb_size, hc_size,
        blockHeaderSize_toNat]
      simp only []
      omega
    · rw [isFree_setNext, isFree_setSize, hb.free_eq]
    · rw [next_setNext hhead]
    · rw [prev_setNext, prev_setSize, hb.prev_eq]
  have hb_post : ∀ d ∈ post, Clear 24 d.addr b.addr :=
    fun d hd => Or.inr (by have := hpost_c d hd; omega)
  have hb_pre : ∀ d ∈ pre, Clear 24 b.addr d.addr :=
    fun d hd => Or.inr (by have := hpre_b d hd; omega)
  refine Linked.append.mpr ⟨?_, hb₂.frame (relink_agreeOn hb_post), ?_⟩
  · refine hpre.frame fun d hd => (hagree₂ (hb_pre d hd)).trans (relink_agreeOn fun e he => ?_)
    have := hpre_b d hd
    have := hpost_c e he
    exact Or.inr (by omega)
  · exact (hpost.frame fun d hd => hagree₂ (hb_post d hd).symm).relink htpost
      (by unfold Seg.stop; omega) (by omega)

/-! ## The representation invariant -/

/-- The heap is the block list `bs` on the pool `P`. -/
structure Rep (h : Heap) (P : Pool) (bs : List Seg) : Prop where
  first : h.firstBlock = P.base
  pool : h.memoryPoolSize = P.bytes
  tiles : Tiles 24 P.base bs P.stop
  linked : Linked h.mem NULL bs NULL
  noFreePair : NoFreePair bs

theorem Rep.ne_nil {h : Heap} {P : Pool} {bs : List Seg} (hr : Rep h P bs) : bs ≠ [] := by
  rintro rfl
  have hheader := P.header_lt
  rw [UInt32.lt_iff_toNat_lt, blockHeaderSize_toNat] at hheader
  have htiles : P.base = P.stop := hr.tiles
  unfold Pool.stop at htiles
  omega

/-- Every block starts inside the pool, so no block is at `NULL`. -/
theorem Rep.bounds {h : Heap} {P : Pool} {bs : List Seg} (hr : Rep h P bs) :
    ∀ b ∈ bs, 0 < b.addr ∧ P.base ≤ b.addr ∧ b.addr + 24 + b.size ≤ P.stop := by
  intro b hb
  have hbounds := hr.tiles.bounds b hb
  have hbase := P.nonnull
  unfold Seg.stop at hbounds
  simp only [NULL] at hbase
  omega

/-- The walk has fuel for every block of the list. -/
theorem Rep.length_lt {h : Heap} {P : Pool} {bs : List Seg} (hr : Rep h P bs) :
    bs.length < h.fuel := by
  have hlen := hr.tiles.length_mul_le
  rw [Heap.fuel, hr.pool]
  unfold Pool.stop at hlen
  omega

/-- `createMemoryManager` makes the whole pool one free block. -/
theorem createMemoryManager_rep (h : Heap) (P : Pool) :
    Rep (createMemoryManager h P.base P.bytes) P
      [{ addr := P.base, size := P.bytes.toNat - 24, free := true }] := by
  have hheader := P.header_lt
  have hle : blockHeaderSize ≤ P.bytes := UInt32.le_of_lt hheader
  have hheader' := UInt32.lt_iff_toNat_lt.mp hheader
  rw [blockHeaderSize_toNat] at hheader'
  have hguard : ¬(P.base = NULL ∨ P.bytes ≤ blockHeaderSize) := by
    rw [UInt32.le_iff_toNat_le, blockHeaderSize_toNat]
    have := P.nonnull
    omega
  rw [createMemoryManager, if_neg hguard]
  refine ⟨rfl, rfl, ?_, ⟨?_, trivial⟩, List.isChain_singleton _⟩
  · simp only [Tiles, Seg.stop, Pool.stop, true_and]
    omega
  · have hsize := UInt32.toNat_sub_of_le _ _ hle
    rw [blockHeaderSize_toNat] at hsize
    simp only [← hsize]
    exact writeHeader (by norm_num) (by norm_num)

/-! ## Allocation takes the first fit of the list -/

theorem findSuitableBlock_eq {m : Mem} (req : UInt32) : ∀ {bs : List Seg} {p : ℕ} {fuel : ℕ},
    Linked m p bs NULL → (∀ b ∈ bs, 0 < b.addr) → bs.length < fuel →
    findSuitableBlock m req fuel (headOr NULL bs) =
      some (match BlockList.firstFit req.toNat bs with
        | none => NULL
        | some (_, b, _) => b.addr)
  | bs, _, 0, _, _, hfuel => absurd hfuel (by omega)
  | [], _, fuel + 1, _, _, _ => by simp [findSuitableBlock, headOr, BlockList.firstFit]
  | b :: bs, p, fuel + 1, ⟨hb, hbs⟩, hpos, hfuel => by
      have hb_pos := hpos b (by simp)
      have ih := findSuitableBlock_eq req hbs
        (fun c hc => hpos c (by simp [hc])) (by simpa using hfuel)
      have hcond : (isFree m b.addr = true ∧ size m b.addr ≥ req) ↔
          (b.free = true ∧ req.toNat ≤ b.size) := by
        rw [hb.free_eq, ge_iff_le, UInt32.le_iff_toNat_le, hb.size_eq]
      rw [headOr, findSuitableBlock, if_neg hb_pos.ne', BlockList.firstFit]
      by_cases hfit : b.free = true ∧ req.toNat ≤ b.size
      · rw [if_pos (hcond.mpr hfit), if_pos hfit]
      · rw [if_neg (fun h => hfit (hcond.mp h)), if_neg hfit, hb.next_eq, ih]
        cases BlockList.firstFit req.toNat bs <;> rfl

/-- Writing the flag of one block of the list. -/
theorem setFree_linked {m : Mem} {lo hi : ℕ} {pre post : List Seg} {b : Seg} (f : Bool)
    (hl : Linked m NULL (pre ++ b :: post) NULL)
    (ht : Tiles 24 lo (pre ++ { b with free := f } :: post) hi) :
    Linked (setFree m b.addr f) NULL (pre ++ { b with free := f } :: post) NULL := by
  obtain ⟨-, -, hpre_b, hpost_b, -⟩ := tiles_around ht
  obtain ⟨hpre, hb, hpost⟩ := Linked.append.mp hl
  refine Linked.append.mpr ⟨hpre.frame fun c hc => setFree_agreeOn ?_ f, ⟨?_, ?_, ?_, ?_⟩,
    hpost.frame fun c hc => setFree_agreeOn ?_ f⟩
  · have := hpre_b c hc
    exact Or.inr (by simp only [] at this; omega)
  · rw [size_setFree, hb.size_eq]
  · exact isFree_setFree f
  · rw [next_setFree, hb.next_eq]
  · rw [prev_setFree, hb.prev_eq]
  · have := hpost_b c hc
    exact Or.inl (by simp only [] at this; omega)

/-- On a block that fits, the split test is the one of the list: sizes stay
below 2 GiB, so its 32-bit sum does not wrap. -/
theorem hasRoomForSplit_iff {m : Mem} {a : ℕ} (req : UInt32)
    (hlt : (size m a).toNat < 2 ^ 31) (hreq : req.toNat ≤ (size m a).toNat) :
    hasRoomForSplit m a req = true ↔ req.toNat + 24 + 8 ≤ (size m a).toNat := by
  rw [hasRoomForSplit, decide_eq_true_eq, ge_iff_le, UInt32.le_iff_toNat_le, UInt32.toNat_add,
    UInt32.toNat_add, blockHeaderSize_toNat, alignment_toNat]
  omega

/-- **Allocation refines first fit.** The request that reaches the list is the
aligned one; the heap becomes the list with that block carved and taken. -/
theorem allocMemory_rep {h : Heap} {P : Pool} {bs : List Seg} (hr : Rep h P bs)
    {sz : UInt32} (hsz : sz ≠ 0) :
    match BlockList.firstFit (align sz).toNat bs with
    | none => allocMemory h sz = some (NULL, h)
    | some (pre, b, post) =>
        ∃ h', allocMemory h sz = some (b.addr + 24, h') ∧
          Rep h' P (pre ++ (BlockList.carve 24 8 (align sz).toNat b ++ post)) := by
  have hfind := findSuitableBlock_eq (align sz) hr.linked
    (fun b hb => (hr.bounds b hb).1) hr.length_lt
  have hhead : headOr NULL bs = h.firstBlock := by
    rw [hr.first]
    obtain ⟨b, bs', rfl⟩ := List.exists_cons_of_ne_nil hr.ne_nil
    exact hr.tiles.1
  rw [hhead] at hfind
  cases hfit : BlockList.firstFit (align sz).toNat bs with
  | none => simp [allocMemory, hsz, hfind, hfit]
  | some r =>
      obtain ⟨pre, b, post⟩ := r
      obtain ⟨rfl, hfree, hreq, -⟩ := BlockList.firstFit_spec hfit
      have hbounds := hr.bounds b (by simp)
      have hcarved : BlockList.Tiles 24 P.base
          (pre ++ (BlockList.carve 24 8 (align sz).toNat b ++ post)) P.stop := hr.tiles.carve
      have hpair :
          BlockList.NoFreePair (pre ++ (BlockList.carve 24 8 (align sz).toNat b ++ post)) :=
        hr.noFreePair.carve hfree
      obtain ⟨-, hb, -⟩ := Linked.append.mp hr.linked
      have hsize_lt : (size h.mem b.addr).toNat < 2 ^ 31 := by
        have := P.lt_int
        rw [hb.size_eq]
        unfold Pool.stop at hbounds
        omega
      have hroom := hasRoomForSplit_iff (align sz) hsize_lt (by rw [hb.size_eq]; exact hreq)
      rw [hb.size_eq] at hroom
      simp only [allocMemory, if_neg hsz, hfind, hfit, if_neg hbounds.1.ne', blockHeaderSize_toNat]
      refine ⟨_, rfl, hr.first, hr.pool, hcarved, ?_, hpair⟩
      unfold BlockList.carve at hcarved ⊢
      by_cases hsplit : (align sz).toNat + 24 + 8 ≤ b.size
      · rw [if_pos hsplit] at hcarved ⊢
        rw [if_pos (hroom.mpr hsplit)]
        exact setFree_linked (b := { b with size := (align sz).toNat }) false
          (splitBlock_linked hr.linked hr.tiles hsplit) hcarved
      · rw [if_neg hsplit] at hcarved ⊢
        rw [if_neg (fun h => hsplit (hroom.mp h))]
        exact setFree_linked false hr.linked hcarved

/-! ## Release glues the two neighbours -/

theorem nextPhysicalBlock_eq {m : Mem} {b : Seg} {p q : ℕ} (hb : HeaderAt m b p q) :
    nextPhysicalBlock m b.addr = b.addr + 24 + b.size := by
  rw [nextPhysicalBlock, blockHeaderSize_toNat, hb.size_eq]

theorem mergeWithNext_linked {m : Mem} {P : Pool} {pre post : List Seg} {b : Seg}
    (hl : Linked m NULL (pre ++ b :: post) NULL)
    (ht : Tiles 24 P.base (pre ++ b :: post) P.stop) (hfree : b.free = true) :
    Linked (mergeWithNext m b.addr) NULL (pre ++ BlockList.glue 24 b post) NULL := by
  obtain ⟨-, hb, hpost⟩ := Linked.append.mp hl
  rw [mergeWithNext, hb.next_eq, nextPhysicalBlock_eq hb]
  cases post with
  | nil => simpa [headOr, BlockList.glue] using hl
  | cons c cs =>
      obtain ⟨hlo, -, -, -, ⟨hc_addr, -⟩⟩ := tiles_around ht
      have hbase := P.nonnull
      have hc_pos : c.addr ≠ NULL := by
        simp only [NULL] at *
        omega
      rw [headOr, hpost.1.free_eq, BlockList.glue]
      by_cases hc : c.free = true
      · rw [if_pos ⟨hc_pos, hc, hc_addr⟩, if_pos ⟨hfree, hc⟩]
        exact mergeBlocks_linked hl ht
      · rw [if_neg (fun h => hc h.2.1), if_neg (fun h => hc h.2)]
        exact hl

theorem mergeWithPrevious_first {m : Mem} {post : List Seg} {b : Seg}
    (hl : Linked m NULL (b :: post) NULL) : mergeWithPrevious m b.addr = m := by
  rw [mergeWithPrevious, hl.1.prev_eq]
  simp

theorem mergeWithPrevious_snoc {m : Mem} {P : Pool} {pre post : List Seg} {a b : Seg}
    (hl : Linked m NULL (pre ++ a :: b :: post) NULL)
    (ht : Tiles 24 P.base (pre ++ a :: b :: post) P.stop) (hfree : b.free = true) :
    Linked (mergeWithPrevious m b.addr) NULL (pre ++ BlockList.glue 24 a (b :: post)) NULL := by
  obtain ⟨-, ha, hb, -⟩ := Linked.append.mp hl
  obtain ⟨hlo, -, -, -, ⟨hb_addr, -⟩⟩ := tiles_around ht
  have hbase := P.nonnull
  have ha_pos : a.addr ≠ NULL := by
    simp only [NULL] at *
    omega
  rw [mergeWithPrevious, hb.prev_eq, nextPhysicalBlock_eq ha]
  rw [ha.free_eq, BlockList.glue]
  by_cases hafree : a.free = true
  · rw [if_pos ⟨ha_pos, hafree, hb_addr⟩, if_pos ⟨hafree, hfree⟩]
    exact mergeBlocks_linked hl ht
  · rw [if_neg (fun h => hafree h.2.1), if_neg (fun h => hafree h.1)]
    exact hl

/-- Gluing something to `b` leaves a free block at the address of `b` in front. -/
theorem glue_eq_cons {b : Seg} (hfree : b.free = true) (l : List Seg) :
    ∃ b' l', BlockList.glue 24 b l = b' :: l' ∧ b'.addr = b.addr ∧ b'.free = true := by
  cases l with
  | nil => exact ⟨b, [], rfl, rfl, hfree⟩
  | cons c cs =>
      rw [BlockList.glue]
      split
      · exact ⟨_, _, rfl, rfl, hfree⟩
      · exact ⟨_, _, rfl, rfl, hfree⟩

/-- **Release refines gluing.** Freeing a block in use marks it free in the
list and glues the free neighbours. -/
theorem freeMemory_rep {h : Heap} {P : Pool} {bs : List Seg} (hr : Rep h P bs) {b : Seg}
    (hb : b ∈ bs) (hused : b.free = false) :
    Rep (freeMemory h (b.addr + 24)) P (BlockList.release 24 b.addr bs) := by
  obtain ⟨pre, post, rfl⟩ := List.append_of_mem hb
  have ht := hr.tiles
  have hmark := BlockList.mark_append_cons (by norm_num) ht
  have htmark := BlockList.mark_tiles (a := b.addr) ht
  rw [hmark] at htmark
  have hlmark := setFree_linked true hr.linked htmark
  obtain ⟨-, hbh, -⟩ := Linked.append.mp hr.linked
  have hseg : b.addr + 24 - 24 = b.addr := by omega
  have hguard : ¬isFree h.mem b.addr = true := by simp [hbh.free_eq, hused]
  simp only [freeMemory, blockHeaderSize_toNat, hseg, if_neg hguard,
    if_neg (show b.addr + 24 ≠ NULL by simp)]
  refine ⟨hr.first, hr.pool, BlockList.release_tiles ht, ?_, BlockList.release_noFreePair _ _⟩
  have hnext := mergeWithNext_linked hlmark htmark rfl
  obtain ⟨b', post', hglue, hb'_addr, hb'_free⟩ :=
    glue_eq_cons (b := { b with free := true }) rfl post
  simp only [] at hb'_addr
  change Linked (coalesce (setFree h.mem b.addr true) b.addr) NULL _ NULL
  rw [coalesce]
  rcases List.eq_nil_or_concat pre with rfl | ⟨pre', a, rfl⟩
  · rw [List.nil_append] at ht hnext ⊢
    rw [BlockList.release_first (by norm_num) ht hr.noFreePair]
    rw [hglue] at hnext ⊢
    have hprev := mergeWithPrevious_first hnext
    rw [hb'_addr] at hprev
    rw [hprev]
    exact hnext
  · simp only [List.concat_eq_append, List.append_assoc, List.cons_append,
      List.nil_append] at ht hnext htmark ⊢
    have hne := hr.noFreePair
    simp only [List.concat_eq_append, List.append_assoc, List.cons_append,
      List.nil_append] at hne
    have htnext : Tiles 24 P.base
        (pre' ++ a :: BlockList.glue 24 { b with free := true } post) P.stop := by
      obtain ⟨mid, hpre', ha, hrest⟩ := Tiles.append.mp htmark
      exact Tiles.append.mpr ⟨mid, hpre', ha, BlockList.glue_tiles hrest⟩
    rw [BlockList.release_snoc (by norm_num) ht hne]
    rw [hglue] at hnext htnext ⊢
    have hprev := mergeWithPrevious_snoc hnext htnext hb'_free
    rw [hb'_addr] at hprev
    exact hprev

end BareKernel.NaiveManager
