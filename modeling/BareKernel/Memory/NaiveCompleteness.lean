import BareKernel.Memory.NaiveRuns

/-!
# The naive manager is a complete first fit

The free blocks of the list are the gaps between the blocks that the clients hold, so
the walk over free blocks finds a gap whenever there is one that is large enough.
-/

namespace BareKernel.NaiveManager

open ByteMemory Runs
open BlockList (Seg Tiles NoFreePair used Gap)

/-! ## What a call leaves alone -/

section Frame

variable {m : Mem} {a b v x n : ℕ}

/-- The bytes lie outside the header at `a`. -/
def Outside (a x n : ℕ) : Prop := x + n ≤ a ∨ a + 24 ≤ x

theorem setSize_outside (h : Outside a x n) (s : UInt32) : AgreeOn m (setSize m a s) x n :=
  Field.set_agreeOn _ _ (by simp only [Outside, sizeField] at *; omega)

theorem setFree_outside (h : Outside a x n) (f : Bool) : AgreeOn m (setFree m a f) x n :=
  Field.set_agreeOn _ _ (by simp only [Outside, freeField] at *; omega)

theorem setNext_outside (h : Outside a x n) : AgreeOn m (setNext m a v) x n :=
  Field.set_agreeOn _ _ (by simp only [Outside, nextField] at *; omega)

theorem setPrev_outside (h : Outside a x n) : AgreeOn m (setPrev m a v) x n :=
  Field.set_agreeOn _ _ (by simp only [Outside, prevField] at *; omega)

theorem writeHeader_outside {p q : ℕ} {s : UInt32} {f : Bool} (h : Outside a x n) :
    AgreeOn m (setPrev (setNext (setFree (setSize m a s) a f) a q) a p) x n :=
  (((setSize_outside h s).trans (setFree_outside h f)).trans (setNext_outside h)).trans
    (setPrev_outside h)

/-- `splitBlock` writes three headers. -/
theorem splitBlock_outside {req : UInt32} (hblock : Outside b x n)
    (hnew : Outside (b + 24 + req.toNat) x n) (hnext : next m b ≠ NULL → Outside (next m b) x n) :
    AgreeOn m (splitBlock m b req) x n := by
  have hclear : Clear 24 (b + 24 + req.toNat) b := .inr (by omega)
  unfold splitBlock
  rw [blockHeaderSize_toNat]
  dsimp only
  refine AgreeOn.trans (AgreeOn.trans ?_ (setNext_outside hblock)) (setSize_outside hblock _)
  split
  · rename_i hne
    rw [(header_congr (writeHeader_agreeOn hclear)).2.2.1] at hne ⊢
    exact (writeHeader_outside hnew).trans (setPrev_outside (hnext hne))
  · exact writeHeader_outside hnew

/-- `mergeBlocks` writes two headers. -/
theorem mergeBlocks_outside (hclear : Clear 24 a b) (hfirst : Outside a x n)
    (hnext : next m b ≠ NULL → Outside (next m b) x n) : AgreeOn m (mergeBlocks m a b) x n := by
  unfold mergeBlocks
  dsimp only
  set m₁ := setSize m a (size m a + (blockHeaderSize + size m b)) with hm₁
  have hnext₁ : next m₁ b = next m b := (header_congr (setSize_agreeOn hclear _)).2.2.1
  rw [hnext₁]
  have hnext₂ : next (setNext m₁ a (next m b)) b = next m b :=
    (header_congr (setNext_agreeOn hclear)).2.2.1.trans hnext₁
  rw [hnext₂]
  have hagree : AgreeOn m (setNext m₁ a (next m b)) x n :=
    (setSize_outside hfirst _).trans (setNext_outside hfirst)
  split
  · rename_i hne
    exact hagree.trans (setPrev_outside (hnext hne))
  · exact hagree

end Frame

/-- **Allocation touches no data**: a range that is clear of every header and of the
free blocks keeps its bytes. -/
theorem allocMemory_outside {h h' : Heap} {P : Pool} {bs : List Seg} {sz : UInt32} {p x n : ℕ}
    (hr : Rep h P bs) (halloc : allocMemory h sz = some (p, h'))
    (hx : ∀ b ∈ bs, Outside b.addr x n)
    (hfree : ∀ b ∈ bs, b.free = true → x + n ≤ b.addr ∨ b.stop 24 ≤ x) :
    AgreeOn h.mem h'.mem x n := by
  by_cases hsz : sz = 0
  · rw [allocMemory, if_pos hsz] at halloc
    obtain ⟨rfl, rfl⟩ : NULL = p ∧ h = h' := by simpa using halloc
    exact .refl _ _ _
  have hfind := findSuitableBlock_eq (align sz) hr.linked
    (fun b hb => (hr.bounds b hb).1) hr.length_lt
  have hhead : headOr NULL bs = h.firstBlock := by
    rw [hr.first]
    obtain ⟨b, bs', rfl⟩ := List.exists_cons_of_ne_nil hr.ne_nil
    exact hr.tiles.1
  rw [hhead] at hfind
  cases hfit : BlockList.firstFit (align sz).toNat bs with
  | none =>
      simp only [allocMemory, if_neg hsz, hfind, hfit, if_true, Option.some.injEq,
        Prod.mk.injEq] at halloc
      rw [← halloc.2]
      exact .refl _ _ _
  | some found =>
      obtain ⟨pre, b, post⟩ := found
      obtain ⟨rfl, hbfree, hreq, -⟩ := BlockList.firstFit_spec hfit
      have hbounds := hr.bounds b (by simp)
      have hb : b ∈ pre ++ b :: post := by simp
      obtain ⟨-, hheader, -⟩ := Linked.append.mp hr.linked
      simp only [allocMemory, if_neg hsz, hfind, hfit, if_neg hbounds.1.ne', Option.some.injEq,
        Prod.mk.injEq] at halloc
      rw [← halloc.2]
      refine AgreeOn.trans ?_ (setFree_outside (hx b hb) false)
      split
      · rename_i hroom
        have hlt : (size h.mem b.addr).toNat < 2 ^ 31 := by
          have hint := P.lt_int
          rw [hheader.size_eq]
          unfold Pool.stop at hbounds
          omega
        have hsize := (hasRoomForSplit_iff (align sz) hlt (by rw [hheader.size_eq]; exact hreq)).mp
          hroom
        rw [hheader.size_eq] at hsize
        refine splitBlock_outside (hx b hb) ?_ fun hne => ?_
        · -- the new header lies inside the block that is split
          have hstop : b.stop 24 = b.addr + 24 + b.size := rfl
          unfold Outside
          rcases hfree b hb hbfree with hle | hle <;> omega
        · rw [hheader.next_eq] at hne ⊢
          cases post with
          | nil => exact absurd rfl hne
          | cons c post => exact hx c (by simp)
      · exact .refl _ _ _

section Release

variable {m : Mem} {P : Pool} {pre post : List Seg} {b : Seg} {x n : ℕ}

/-- A merge on a list touches no data. -/
theorem merge_outside {c : Seg} (hl : Linked m NULL (pre ++ b :: c :: post) NULL)
    (ht : Tiles 24 P.base (pre ++ b :: c :: post) P.stop)
    (hx : ∀ d ∈ pre ++ b :: c :: post, Outside d.addr x n) :
    AgreeOn m (mergeBlocks m b.addr c.addr) x n := by
  obtain ⟨-, -, -, -, ⟨hadj, -⟩⟩ := tiles_around ht
  obtain ⟨-, -, hc, -⟩ := Linked.append.mp hl
  refine mergeBlocks_outside (.inl (by omega)) (hx b (by simp)) fun hne => ?_
  rw [hc.next_eq] at hne ⊢
  cases post with
  | nil => exact absurd rfl hne
  | cons d post => exact hx d (by simp)

theorem mergeWithNext_outside (hl : Linked m NULL (pre ++ b :: post) NULL)
    (ht : Tiles 24 P.base (pre ++ b :: post) P.stop)
    (hx : ∀ d ∈ pre ++ b :: post, Outside d.addr x n) : AgreeOn m (mergeWithNext m b.addr) x n := by
  obtain ⟨-, hb, -⟩ := Linked.append.mp hl
  rw [mergeWithNext, hb.next_eq]
  cases post with
  | nil => exact .refl _ _ _
  | cons c post =>
      split
      · exact merge_outside hl ht hx
      · exact .refl _ _ _

theorem mergeWithPrevious_outside (hl : Linked m NULL (pre ++ b :: post) NULL)
    (ht : Tiles 24 P.base (pre ++ b :: post) P.stop)
    (hx : ∀ d ∈ pre ++ b :: post, Outside d.addr x n) :
    AgreeOn m (mergeWithPrevious m b.addr) x n := by
  rcases List.eq_nil_or_concat pre with rfl | ⟨pre', a, rfl⟩
  · rw [mergeWithPrevious_first hl]
    exact .refl _ _ _
  · simp only [List.concat_eq_append, List.append_assoc, List.cons_append,
      List.nil_append] at hl ht hx
    obtain ⟨-, -, hb, -⟩ := Linked.append.mp hl
    rw [mergeWithPrevious, hb.prev_eq]
    split
    · exact merge_outside hl ht hx
    · exact .refl _ _ _

/-- Gluing moves no block. -/
theorem mem_glue {c : Seg} : ∀ {l : List Seg}, c ∈ BlockList.glue 24 b l →
    ∃ d ∈ b :: l, d.addr = c.addr
  | [], hc => ⟨c, hc, rfl⟩
  | d :: l, hc => by
      rw [BlockList.glue] at hc
      split at hc
      · rcases List.mem_cons.mp hc with rfl | hc
        · exact ⟨b, by simp, rfl⟩
        · exact ⟨c, by simp [hc], rfl⟩
      · exact ⟨c, hc, rfl⟩

/-- **Release touches no data**: a range that is clear of every header keeps its bytes. -/
theorem freeMemory_outside {h : Heap} {bs : List Seg} (hr : Rep h P bs) (hb : b ∈ bs)
    (hx : ∀ d ∈ bs, Outside d.addr x n) :
    AgreeOn h.mem (freeMemory h (b.addr + 24)).mem x n := by
  obtain ⟨pre, post, rfl⟩ := List.append_of_mem hb
  rw [freeMemory, if_neg (show b.addr + 24 ≠ NULL by simp), blockHeaderSize_toNat]
  dsimp only
  rw [Nat.add_sub_cancel]
  split
  · exact .refl _ _ _
  have ht := BlockList.mark_tiles (a := b.addr) hr.tiles
  rw [BlockList.mark_append_cons (by norm_num) hr.tiles] at ht
  have hl := setFree_linked true hr.linked ht
  have hx₁ : ∀ d ∈ pre ++ { b with free := true } :: post, Outside d.addr x n := by
    intro d hd
    rcases List.mem_append.mp hd with hd | hd
    · exact hx d (by simp [hd])
    · rcases List.mem_cons.mp hd with rfl | hd
      · exact hx b hb
      · exact hx d (by simp [hd])
  have hnext := mergeWithNext_linked hl ht rfl
  obtain ⟨b', post', hglue, haddr, -⟩ := glue_eq_cons (b := { b with free := true }) rfl post
  have htnext : Tiles 24 P.base (pre ++ BlockList.glue 24 { b with free := true } post) P.stop := by
    obtain ⟨mid, hpre, hrest⟩ := Tiles.append.mp ht
    exact Tiles.append.mpr ⟨mid, hpre, BlockList.glue_tiles hrest⟩
  have hx₂ : ∀ d ∈ pre ++ BlockList.glue 24 { b with free := true } post, Outside d.addr x n := by
    intro d hd
    rcases List.mem_append.mp hd with hd | hd
    · exact hx d (by simp [hd])
    · obtain ⟨e, he, heq⟩ := mem_glue hd
      rw [← heq]
      exact hx₁ e (List.mem_append_right _ he)
  rw [hglue] at hnext htnext hx₂
  have hprev := mergeWithPrevious_outside hnext htnext hx₂
  rw [haddr] at hprev
  exact ((setFree_outside (hx b hb) true).trans (mergeWithNext_outside hl ht hx₁)).trans hprev

end Release

/-! ## Gaps -/

/-- The blocks that the clients hold, as their headers show them. -/
def held (s : Session Heap) : List Seg :=
  s.live.map fun q => ⟨q.1 - 24, (size s.heap.mem (q.1 - 24)).toNat, false⟩

/-- The gap holds a header and the request, rounded up. -/
def Holds (sz : UInt32) (lo hi : ℕ) : Prop := lo + (24 + (sz.toNat + 7) / 8 * 8) ≤ hi

/-- **What a request does**, as the blocks that the clients hold tell it. -/
structure FirstFit (P : Pool) (s : Session Heap) (sz : UInt32) : Prop where
  returns : (allocMemory s.heap sz).isSome
  null_iff : (∃ h', allocMemory s.heap sz = some (NULL, h')) ↔
    ∀ lo hi, Gap 24 P.base P.stop (held s) lo hi → ¬Holds sz lo hi
  unchanged : ∀ h', allocMemory s.heap sz = some (NULL, h') → h' = s.heap
  lowest : ∀ p h', allocMemory s.heap sz = some (p, h') → p ≠ NULL →
    ∃ lo hi, p = lo + blockHeaderSize.toNat ∧ Gap 24 P.base P.stop (held s) lo hi ∧
      Holds sz lo hi ∧ ∀ lo' hi', Gap 24 P.base P.stop (held s) lo' hi' →
        Holds sz lo' hi' → lo ≤ lo'
  others : ∀ p h', allocMemory s.heap sz = some (p, h') → ∀ q ∈ s.live,
    size h'.mem (q.1 - 24) = size s.heap.mem (q.1 - 24) ∧ isFree h'.mem (q.1 - 24) = false ∧
      AgreeOn s.heap.mem h'.mem q.1 (size s.heap.mem (q.1 - 24)).toNat

theorem mem_held {P : Pool} {s : Session Heap} {bs : List Seg} (hr : Rep s.heap P bs)
    (htr : Tracks s.live bs) (b : Seg) : b ∈ held s ↔ b ∈ used bs := by
  have hshow : ∀ c ∈ used bs, (⟨c.addr + 24 - 24, (size s.heap.mem (c.addr + 24 - 24)).toNat,
      false⟩ : Seg) = c := by
    intro c hc
    obtain ⟨hmem, hfree⟩ := BlockList.mem_used.mp hc
    rw [Nat.add_sub_cancel, (hr.linked.header c hmem).1, ← hfree]
  constructor
  · intro hb
    obtain ⟨q, hq, rfl⟩ := List.mem_map.mp hb
    obtain ⟨c, hc, hcq⟩ := List.mem_map.mp (htr.mem_iff.mp (List.mem_map_of_mem hq))
    rw [← hcq, hshow c hc]
    exact hc
  · intro hb
    obtain ⟨q, hq, hqb⟩ := List.mem_map.mp (htr.mem_iff.mpr (List.mem_map_of_mem hb))
    refine List.mem_map.mpr ⟨q, hq, ?_⟩
    rw [hqb]
    exact hshow b hb

/-- The gaps that hold a request are the free blocks that fit it. -/
theorem gap_holds {P : Pool} {s : Session Heap} {bs : List Seg} {sz : UInt32} {lo hi : ℕ}
    (hr : Rep s.heap P bs) (htr : Tracks s.live bs) (hle : sz.toNat ≤ 2 ^ 32 - 8) :
    Gap 24 P.base P.stop (held s) lo hi ∧ Holds sz lo hi ↔
      ∃ b ∈ bs, (b.free = true ∧ (align sz).toNat ≤ b.size) ∧ lo = b.addr ∧ hi = b.stop 24 := by
  have halign : (align sz).toNat = (sz.toNat + 7) / 8 * 8 := by
    rw [align_toNat, Nat.mod_eq_of_lt (by omega)]
  rw [BlockList.gap_congr (mem_held hr htr), BlockList.gap_iff hr.tiles hr.noFreePair
    (by norm_num), halign]
  unfold Holds
  constructor
  · rintro ⟨⟨b, hb, hfree, rfl, rfl⟩, hholds⟩
    refine ⟨b, hb, ⟨hfree, ?_⟩, rfl, rfl⟩
    unfold Seg.stop at hholds
    omega
  · rintro ⟨b, hb, ⟨hfree, hsize⟩, rfl, rfl⟩
    refine ⟨⟨b, hb, hfree, rfl, rfl⟩, ?_⟩
    unfold Seg.stop
    omega

/-- **The naive manager is a complete first fit** on every heap that was ever reached,
for every size that `ALIGN` does not wrap. -/
theorem alloc_firstFit (h : Heap) (P : Pool) (s : Session Heap)
    (hrun : Reaches (Session.Step manager insideBlocks) always (boot h P) s) (sz : UInt32)
    (hpos : 0 < sz) (hle : sz.toNat ≤ 2 ^ 32 - 8) : FirstFit P s sz := by
  obtain ⟨bs, hr, htr⟩ := hrun.invariant (inv_boot h P)
    fun _ _ _ hinv _ hstep => inv_step hinv hstep
  have hne : sz ≠ 0 := by
    rintro rfl
    exact absurd hpos (by decide)
  have hspec := allocMemory_rep hr hne
  have hothers : ∀ p h', allocMemory s.heap sz = some (p, h') → ∀ q ∈ s.live,
      size h'.mem (q.1 - 24) = size s.heap.mem (q.1 - 24) ∧ isFree h'.mem (q.1 - 24) = false ∧
        AgreeOn s.heap.mem h'.mem q.1 (size s.heap.mem (q.1 - 24)).toNat := by
    intro p h' halloc q hq
    obtain ⟨c, hc, hused, hcq⟩ := htr.mem (List.mem_map_of_mem hq)
    rw [hcq, Nat.add_sub_cancel]
    obtain ⟨hsize, hflag⟩ := hr.linked.header c hc
    have hdata : AgreeOn s.heap.mem h'.mem (c.addr + 24) (size s.heap.mem c.addr).toNat := by
      rw [hsize]
      refine allocMemory_outside hr halloc (fun b hb => ?_) fun b hb hfree => ?_
      · unfold Outside
        rcases hr.tiles.apart hb hc with rfl | hb | hb
        · exact .inr (le_refl _)
        all_goals
          unfold Seg.stop at hb
          omega
      · rcases hr.tiles.apart hb hc with rfl | hb | hb
        · exact absurd (hfree.symm.trans hused) (by simp)
        all_goals
          unfold Seg.stop at hb ⊢
          omega
    rcases allocMemory_cases hr halloc with ⟨-, rfl⟩ | ⟨pre, b, post, rfl, hfree, -, -, hr'⟩
    · exact ⟨rfl, hflag.trans hused, hdata⟩
    · have hkept : c ∈ pre ++ (BlockList.carve 24 8 (align sz).toNat b ++ post) := by
        have hmem := BlockList.mem_used.mpr ⟨hc, hused⟩
        rw [BlockList.used_append_free hfree] at hmem
        have hmem' : c ∈ used (pre ++ (BlockList.carve 24 8 (align sz).toNat b ++ post)) := by
          rw [BlockList.used_append_carve]
          rcases List.mem_append.mp hmem with hmem | hmem
          · exact List.mem_append_left _ hmem
          · exact List.mem_append_right _ (List.mem_cons_of_mem _ hmem)
        exact (BlockList.mem_used.mp hmem').1
      obtain ⟨hsize', hflag'⟩ := hr'.linked.header c hkept
      exact ⟨UInt32.toNat_inj.mp (hsize'.trans hsize.symm), hflag'.trans hused, hdata⟩
  cases hfit : BlockList.firstFit (align sz).toNat bs with
  | none =>
      rw [hfit] at hspec
      have hsame : ∀ {p h'}, allocMemory s.heap sz = some (p, h') → p = NULL ∧ h' = s.heap := by
        intro p h' halloc
        rw [hspec, Option.some.injEq, Prod.mk.injEq] at halloc
        exact ⟨halloc.1.symm, halloc.2.symm⟩
      refine ⟨by rw [hspec]; rfl, ⟨fun _ lo hi hgap hholds => ?_, fun _ => ⟨_, hspec⟩⟩,
        fun h' halloc => (hsame halloc).2, fun p h' halloc hp =>
          absurd (hsame halloc).1 hp, hothers⟩
      obtain ⟨b, hb, hfits, -⟩ := (gap_holds hr htr hle).mp ⟨hgap, hholds⟩
      exact BlockList.firstFit_none hfit b hb hfits
  | some found =>
      obtain ⟨pre, b, post⟩ := found
      rw [hfit] at hspec
      obtain ⟨h₁, hgot, -⟩ := hspec
      obtain ⟨rfl, hfree, hreq, hbefore⟩ := BlockList.firstFit_spec hfit
      have hfirst := (gap_holds hr htr hle).mpr ⟨b, by simp, ⟨hfree, hreq⟩, rfl, rfl⟩
      have hnot : ∀ h', allocMemory s.heap sz ≠ some (NULL, h') := by
        intro h' halloc
        rw [hgot, Option.some.injEq, Prod.mk.injEq] at halloc
        exact absurd halloc.1 (by simp)
      refine ⟨by rw [hgot]; rfl, ⟨fun ⟨h', halloc⟩ => absurd halloc (hnot h'), fun hall => ?_⟩,
        fun h' halloc => absurd halloc (hnot h'), fun p h' halloc _ => ?_, hothers⟩
      · exact absurd hfirst.2 (hall _ _ hfirst.1)
      · rw [hgot, Option.some.injEq, Prod.mk.injEq] at halloc
        refine ⟨b.addr, b.stop 24, halloc.1.symm, hfirst.1, hfirst.2, fun lo hi hgap hholds => ?_⟩
        obtain ⟨c, hc, hfits, rfl, -⟩ := (gap_holds hr htr hle).mp ⟨hgap, hholds⟩
        -- blocks come in the order of their addresses
        have hpair := hr.tiles.pairwise
        rw [List.pairwise_append, List.pairwise_cons] at hpair
        rcases List.mem_append.mp hc with hpre | hpost
        · exact absurd hfits (hbefore c hpre)
        · rcases List.mem_cons.mp hpost with rfl | hpost
          · exact le_refl _
          · have hle := hpair.2.1.1 c hpost
            unfold Seg.stop at hle
            omega

/-- A request passes the first gap by, and one that no gap holds is refused. -/
theorem alloc_firstFit_fragmented : ∃ s : Session Heap, s.live = [(memoryStart + 152, 100)] ∧
    (∃ h', allocMemory s.heap 200 = some (memoryStart + 280, h')) ∧ FirstFit kernelPool s 200 ∧
      allocMemory s.heap 4194100 = some (NULL, s.heap) ∧ FirstFit kernelPool s 4194100 := by
  obtain ⟨s, hrun, hlive, hr⟩ := fragmented insideBlocks always fun _ _ _ => trivial
  have hpassed := allocMemory_rep hr (show (200 : UInt32) ≠ 0 by decide)
  rw [show BlockList.firstFit (align 200).toNat fragments = some ([⟨memoryStart, 104, true⟩,
    ⟨memoryStart + 128, 104, false⟩], ⟨memoryStart + 256, 4194024, true⟩, []) by decide] at hpassed
  have hrefused := allocMemory_rep hr (show (4194100 : UInt32) ≠ 0 by decide)
  rw [show BlockList.firstFit (align 4194100).toNat fragments = none by decide] at hrefused
  obtain ⟨h', hplace, -⟩ := hpassed
  exact ⟨s, hlive, ⟨h', hplace⟩,
    alloc_firstFit zeroHeap kernelPool s hrun 200 (by decide) (by decide), hrefused,
    alloc_firstFit zeroHeap kernelPool s hrun 4194100 (by decide) (by decide)⟩

end BareKernel.NaiveManager
