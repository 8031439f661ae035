import BareKernel.Memory.Linked

/-!
# Freeing a pointer twice

Between the two calls the block may be merged into its neighbours, so the second
call reads a header that is stale memory inside a larger free block. The naive
manager finds that header still marked free and returns. The buddy manager takes
the bytes of the block off its counters a second time.
-/

namespace BareKernel

open ByteMemory Runs

/-- Requests other than allocations. -/
def noAlloc {σ : Type} (_ : Session σ) (r : Request) : Prop := ∀ size, r ≠ .alloc size

namespace NaiveManager

open BlockList (Seg Tiles Buried)

/-! ## The mark of a stale header -/

/-- A header at `x` is the one at `a`, or shares no byte with it. -/
def Spares (a x : ℕ) : Prop := x = a ∨ Clear 24 x a

variable {m : Mem} {a x : ℕ}

theorem Spares.setSize (h : Spares a x) (s : UInt32) :
    isFree (setSize m x s) a = isFree m a := by
  rcases h with rfl | h
  · exact isFree_setSize s
  · exact (header_congr (setSize_agreeOn h s)).2.1

theorem Spares.setNext (h : Spares a x) (v : ℕ) :
    isFree (setNext m x v) a = isFree m a := by
  rcases h with rfl | h
  · exact isFree_setNext
  · exact (header_congr (setNext_agreeOn h)).2.1

theorem Spares.setPrev (h : Spares a x) (v : ℕ) :
    isFree (setPrev m x v) a = isFree m a := by
  rcases h with rfl | h
  · exact isFree_setPrev
  · exact (header_congr (setPrev_agreeOn h)).2.1

/-- A merge writes sizes and links, never a mark. -/
theorem mergeBlocks_isFree {first second : ℕ} (hclear : Clear 24 first second)
    (hfirst : Spares a first) (hnext : next m second ≠ NULL → Spares a (next m second)) :
    isFree (mergeBlocks m first second) a = isFree m a := by
  have hsize : next (setSize m first (size m first + (blockHeaderSize + size m second))) second =
      next m second := (header_congr (setSize_agreeOn hclear _)).2.2.1
  have hlink : ∀ (m' : Mem) (v : ℕ), next (setNext m' first v) second = next m' second :=
    fun m' v => (header_congr (setNext_agreeOn hclear)).2.2.1
  simp only [mergeBlocks, hlink, hsize]
  split
  · rename_i hne
    rw [(hnext hne).setPrev, hfirst.setNext, hfirst.setSize]
  · rw [hfirst.setNext, hfirst.setSize]

section Merges

variable {P : Pool} {pre post : List Seg} {b : Seg}

/-- Two neighbours of the list have headers apart. -/
theorem clear_of_tiles {c : Seg} {lo hi : ℕ} (ht : Tiles 24 lo (pre ++ b :: c :: post) hi) :
    Clear 24 b.addr c.addr := by
  obtain ⟨-, -, -, hpost, -⟩ := tiles_around ht
  have := (hpost c (by simp)).1
  exact Or.inl (by omega)

theorem mergeWithNext_isFree (hl : Linked m NULL (pre ++ b :: post) NULL)
    (ht : Tiles 24 P.base (pre ++ b :: post) P.stop)
    (hs : ∀ d ∈ pre ++ b :: post, Spares a d.addr) :
    isFree (mergeWithNext m b.addr) a = isFree m a := by
  obtain ⟨-, hb, hpost⟩ := Linked.append.mp hl
  simp only [mergeWithNext, hb.next_eq]
  split
  · rename_i hguard
    cases post with
    | nil => exact absurd rfl hguard.1
    | cons c cs =>
        apply mergeBlocks_isFree (clear_of_tiles ht) (hs b (by simp))
        intro hne
        rw [hpost.1.next_eq] at hne ⊢
        cases cs with
        | nil => exact absurd rfl hne
        | cons d ds => exact hs d (by simp)
  · rfl

theorem mergeWithPrevious_isFree (hl : Linked m NULL (pre ++ b :: post) NULL)
    (ht : Tiles 24 P.base (pre ++ b :: post) P.stop)
    (hs : ∀ d ∈ pre ++ b :: post, Spares a d.addr) :
    isFree (mergeWithPrevious m b.addr) a = isFree m a := by
  rcases List.eq_nil_or_concat pre with rfl | ⟨pre', c, rfl⟩
  · rw [mergeWithPrevious_first hl]
  simp only [List.concat_eq_append, List.append_assoc, List.cons_append,
    List.nil_append] at hl ht hs
  obtain ⟨-, -, hb, -⟩ := Linked.append.mp hl
  simp only [mergeWithPrevious, hb.prev_eq]
  split
  · apply mergeBlocks_isFree (clear_of_tiles ht) (hs c (by simp))
    intro hne
    rw [hb.next_eq] at hne ⊢
    cases post with
    | nil => exact absurd rfl hne
    | cons d ds => exact hs d (by simp)
  · rfl

/-- Gluing makes no new address. -/
theorem glue_addr {d : Seg} {l : List Seg} (hd : d ∈ BlockList.glue 24 b l) :
    ∃ c ∈ b :: l, c.addr = d.addr := by
  cases l with
  | nil => exact ⟨d, hd, rfl⟩
  | cons c cs =>
      rw [BlockList.glue] at hd
      split at hd
      · rcases List.mem_cons.mp hd with rfl | hd
        · exact ⟨b, List.mem_cons_self, rfl⟩
        · exact ⟨d, by simp [hd], rfl⟩
      · exact ⟨d, hd, rfl⟩

theorem coalesce_isFree (hl : Linked m NULL (pre ++ b :: post) NULL)
    (ht : Tiles 24 P.base (pre ++ b :: post) P.stop) (hfree : b.free = true)
    (hs : ∀ d ∈ pre ++ b :: post, Spares a d.addr) :
    isFree (coalesce m b.addr) a = isFree m a := by
  have hl' := mergeWithNext_linked hl ht hfree
  have ht' : Tiles 24 P.base (pre ++ BlockList.glue 24 b post) P.stop := by
    obtain ⟨mid, hpre, hrest⟩ := Tiles.append.mp ht
    exact Tiles.append.mpr ⟨mid, hpre, BlockList.glue_tiles hrest⟩
  have hs' : ∀ d ∈ pre ++ BlockList.glue 24 b post, Spares a d.addr := by
    intro d hd
    rcases List.mem_append.mp hd with hd | hd
    · exact hs d (List.mem_append_left _ hd)
    · obtain ⟨c, hc, hcd⟩ := glue_addr hd
      rw [← hcd]
      exact hs c (List.mem_append_right _ hc)
  obtain ⟨b', post', hglue, haddr, -⟩ := glue_eq_cons hfree post
  rw [hglue] at hl' ht' hs'
  have hprev := mergeWithPrevious_isFree hl' ht' hs'
  rw [haddr] at hprev
  rw [coalesce, hprev, mergeWithNext_isFree hl ht hs]

end Merges

variable {h : Heap} {P : Pool} {bs : List Seg} {b : Seg}

/-- Freeing a block in use writes one mark, its own. -/
theorem freeMemory_isFree (hr : Rep h P bs) (hb : b ∈ bs) (hused : b.free = false)
    (hs : ∀ d ∈ bs, Spares a d.addr) :
    isFree (freeMemory h (b.addr + 24)).mem a = isFree (setFree h.mem b.addr true) a := by
  obtain ⟨pre, post, rfl⟩ := List.append_of_mem hb
  have hmark := BlockList.mark_append_cons (by norm_num) hr.tiles
  have htmark := BlockList.mark_tiles (a := b.addr) hr.tiles
  rw [hmark] at htmark
  have hlmark := setFree_linked true hr.linked htmark
  obtain ⟨-, hbh, -⟩ := Linked.append.mp hr.linked
  have hguard : ¬isFree h.mem b.addr = true := by simp [hbh.free_eq, hused]
  have hseg : b.addr + 24 - 24 = b.addr := by omega
  simp only [freeMemory, blockHeaderSize_toNat, hseg, if_neg hguard,
    if_neg (show b.addr + 24 ≠ NULL by simp)]
  refine coalesce_isFree (b := { b with free := true }) hlmark htmark rfl ?_
  intro d hd
  rcases List.mem_append.mp hd with hd | hd
  · exact hs d (List.mem_append_left _ hd)
  · rcases List.mem_cons.mp hd with rfl | hd
    · exact hs b hb
    · exact hs d (List.mem_append_right _ (List.mem_cons_of_mem _ hd))

/-! ## Until the second call -/

/-- The pointer `p` was freed: its old header is inside a free block, marked free. -/
def Stale (P : Pool) (p : ℕ) (s : Session Heap) : Prop :=
  ∃ bs, Rep s.heap P bs ∧ Tracks s.live bs ∧
    ∃ a, p = a + 24 ∧ Buried 24 a bs ∧ isFree s.heap.mem a = true

/-- The first call leaves such a header. -/
theorem stale_first {s : Session Heap} {p : ℕ} (hinv : Inv P s)
    (hp : p ∈ s.live.map Prod.fst) :
    Stale P p ⟨freeMemory s.heap p, s.live.filter fun q => q.1 ≠ p⟩ := by
  obtain ⟨bs, hr, htr⟩ := hinv
  obtain ⟨b, hb, hused, rfl⟩ := htr.mem hp
  refine ⟨_, freeMemory_rep hr hb hused, htr.release b.addr, b.addr, rfl,
    BlockList.release_buried_self hr.tiles hb, ?_⟩
  rw [freeMemory_isFree hr hb hused, isFree_setFree]
  intro d hd
  rcases hr.tiles.apart hd hb with rfl | hdb | hbd
  · exact Or.inl rfl
  all_goals
    unfold Seg.stop at *
    exact Or.inr (by unfold Clear; omega)

/-- Frees of other pointers and writes of other clients leave it so. -/
theorem stale_step {s t : Session Heap} {r : Request} {p : ℕ} (hs : Stale P p s)
    (hok : noAlloc s r) (hstep : Session.Step manager insideBlocks s r t) : Stale P p t := by
  obtain ⟨bs, hr, htr, a, rfl, hburied, hfree⟩ := hs
  have hspares : ∀ d ∈ bs, Spares a d.addr := by
    intro d hd
    rcases hburied.apart hr.tiles hd with ⟨hda, -⟩ | hclear
    · exact Or.inl hda
    · exact Or.inr hclear
  cases hstep with
  | allocNull => exact absurd rfl (hok _)
  | alloc => exact absurd rfl (hok _)
  | freeNull hcall =>
      obtain rfl : freeMemory s.heap NULL = _ := by simpa [manager] using hcall
      exact ⟨bs, by simpa [freeMemory] using hr, htr, a, rfl, hburied,
        by simpa [freeMemory] using hfree⟩
  | free hp hcall =>
      obtain ⟨b, hb, hused, rfl⟩ := htr.mem hp
      obtain rfl : freeMemory s.heap (b.addr + 24) = _ := by simpa [manager] using hcall
      refine ⟨_, freeMemory_rep hr hb hused, htr.release b.addr, a, rfl,
        BlockList.release_buried hr.tiles hburied, ?_⟩
      rw [freeMemory_isFree hr hb hused hspares]
      -- the block freed now is in use, so its header is not the buried one
      rcases hburied.apart hr.tiles hb with ⟨-, hbfree⟩ | hclear
      · rw [hused] at hbfree
        cases hbfree
      · rw [(header_congr (setFree_agreeOn hclear true)).2.1, hfree]
  | write hm =>
      have hclear := hr.inside_clear htr
      refine ⟨bs, hr.write fun c hc y hy hy' => hm y fun hwr => hclear y hwr c hc ⟨hy, hy'⟩,
        htr, a, rfl, hburied, ?_⟩
      refine (header_congr fun y hy hy' => hm y ?_).2.1.trans hfree
      rintro ⟨q, hq, hqy, hqy'⟩
      obtain ⟨b, hb, hused, hqb⟩ := htr.mem (List.mem_map_of_mem (f := Prod.fst) hq)
      rw [hqb, blockHeaderSize_toNat, Nat.add_sub_cancel, (hr.linked.header b hb).1] at hqy'
      obtain ⟨c, hc, hcfree, hplace⟩ := hburied
      rcases hr.tiles.apart hb hc with rfl | hbc | hcb
      · rw [hused] at hcfree
        cases hcfree
      all_goals
        simp only [Seg.stop] at *
        omega

/-- **The second call is harmless**: it finds the old header marked free. -/
theorem Stale.freeMemory {s : Session Heap} {p : ℕ} (hs : Stale P p s) :
    freeMemory s.heap p = s.heap := by
  obtain ⟨bs, -, -, a, rfl, -, hfree⟩ := hs
  rw [NaiveManager.freeMemory, if_neg (by simp), blockHeaderSize_toNat, Nat.add_sub_cancel,
    if_pos hfree]

end NaiveManager

namespace BuddyManager

open BuddyTree ImplicitTree
open NodeState

/-! ## Releasing a place that is free already -/

section Marks

variable {len k : ℕ}

/-- A vacant place of the order of the tree leaves nothing in it. -/
theorem eq_free_of_vacant {ord off a : ℕ} {t : Buddy} (hwf : WF ord t)
    (hvac : Vacant ord ord off t a) : t = .free := by
  by_contra hne
  have hsome : blocks ord off t ≠ [] := blocks_ne_nil hwf hne
  obtain ⟨b, hb⟩ := List.exists_mem_of_ne_nil _ hsome
  have hbounds := blocks_bounds b hb
  have hapart := hvac.apart b hb
  have hinside := hvac.inside
  have hpos : 0 < 2 ^ b.2 := Nat.two_pow_pos _
  simp only [Apart] at hapart
  omega

/-- The two halves below a node on the way to a vacant place. -/
theorem halves_of_vacant {nodeState : ℕ → NodeState} {idx ord off a : ℕ} {t : Buddy}
    (hwf : WF (ord + 1) t) (hshows : Shows nodeState idx t)
    (hvac : Vacant k (ord + 1) off t a) :
    ∃ l r, join l r = t ∧ WF ord l ∧ WF ord r ∧ Shows nodeState (2 * idx + 1) l ∧
      Shows nodeState (2 * idx + 2) r ∧ Vacant k (ord + 1) off (.split l r) a := by
  cases t with
  | free =>
      refine ⟨.free, .free, rfl, wf_free _, wf_free _, hshows.left_free, hshows.right_free,
        hvac.aligned, hvac.inside, ?_⟩
      simp [blocks]
  | full =>
      have hapart := hvac.apart (off, ord + 1) (by simp [blocks])
      have hinside := hvac.inside
      have hpos : 0 < 2 ^ k := Nat.two_pow_pos _
      simp only [Apart] at hapart
      omega
  | split l r =>
      obtain ⟨hwl, hwr, hne⟩ := hwf
      exact ⟨l, r, if_neg hne, hwl, hwr, hshows.2.1, hshows.2.2, hvac⟩

/-- **Releasing a vacant place changes no mark**, however far its buddies were
joined: the marks on the path are written again as they are. -/
theorem freeRec_vacant {M : ℕ} (hM : M < 32) (hlen : InArray len M k) :
    ∀ {ord d p a : ℕ} {nodeState : ℕ → NodeState} {t : Buddy} (off : ℕ), d + ord = M →
      p < 2 ^ d → k ≤ ord → WF ord t → Shows nodeState (node d p) t → Vacant k ord off t a →
      freeRec len k ord (node d p) a nodeState = some nodeState := by
  intro ord d p a nodeState t off hd hp hk hwf hshows hvac
  have hin := hlen.node hp (by omega)
  obtain rfl | hne := eq_or_ne k ord
  · obtain rfl := eq_free_of_vacant hwf hvac
    have hroot : nodeState (node d p) = FREE := hshows.root
    rw [freeRec_here hin, ← hroot, Function.update_eq_self]
  cases ord with
  | zero => omega
  | succ ord =>
      have hkord : k ≤ ord := by omega
      obtain ⟨l, r, hjoin, hwl, hwr, hl, hr, hvac'⟩ := halves_of_vacant hwf hshows hvac
      have hpl : 2 * p < 2 ^ (d + 1) := by rw [pow_succ]; omega
      have hpr : 2 * p + 1 < 2 ^ (d + 1) := by rw [pow_succ]; omega
      have hchild : 2 * node d p + 2 < len := by
        rw [node_right]
        exact Nat.lt_of_not_le (hlen.node hpr (by omega))
      have hlow : a < 2 ^ (ord + 1) := by
        have hinside := hvac.inside
        have hpos : 0 < 2 ^ k := Nat.two_pow_pos _
        omega
      obtain ⟨b, hboth, hmark⟩ := bothFree_join hl hr hchild
      rw [hjoin] at hmark
      have hsame : Function.update nodeState (node d p) (if b then FREE else SPLIT) =
          nodeState := by
        funext n
        by_cases hn : n = node d p
        · exact hmark.unique hshows n (hn ▸ below_self _)
        · exact Function.update_of_ne hn _ _
      rw [freeRec_descend hin (by omega) (by omega) hlow]
      rcases halves hkord hvac.aligned with hleft | hright
      · have hpos : 0 < 2 ^ k := Nat.two_pow_pos _
        rw [node_left] at hl
        have ih := freeRec_vacant hM hlen off (by omega) hpl hkord hwl hl (hvac'.left hleft)
        rw [← node_left] at ih
        rw [if_neg (by omega), ih, Option.bind_some, hboth, Option.map_some, hsame]
      · rw [node_right] at hr
        have ih := freeRec_vacant hM hlen (off + 2 ^ ord) (by omega) hpr hkord hwr hr
          (hvac'.right hkord hright)
        rw [← node_right] at ih
        rw [if_pos hright, ih, Option.bind_some, hboth, Option.map_some, hsame]

end Marks

/-! ## Until the second call -/

/-- Clients that write only to the data bytes of the blocks they hold. -/
def insideBlocks (s : Session Heap) (a : ℕ) : Prop :=
  ∃ q ∈ s.live, q.1 ≤ a ∧
    a < s.heap.poolBase + (blockOf s.heap q.1).1 + 2 ^ (blockOf s.heap q.1).2

variable {len base M : ℕ} {h : Heap} {t : Buddy}

/-- The pointer `p` was freed: its place is vacant, and its old header still
tells the order. -/
def Stale (base M p k : ℕ) (s : Session Heap) : Prop :=
  ∃ t, Rep s.heap base M t ∧ Tracks base M s.live t ∧
    ∃ o, p = base + o + 8 ∧ 4 ≤ k ∧ k ≤ M ∧ orderField.get s.heap.mem (base + o) = k ∧
      Vacant k M 0 t o

/-- The places of a released block. -/
theorem vacant_release {b : ℕ × ℕ} (hb : b ∈ blocks M 0 t) :
    Vacant b.2 M 0 (release b.2 M b.1 t) b.1 := by
  have hperm : (blocks M 0 t).Perm (b :: blocks M 0 (BuddyTree.release b.2 M b.1 t)) := by
    simpa using release_blocks (k := b.2) (o := b.1) (t := t) 0 (by simpa using hb)
  have hbounds := blocks_bounds b hb
  refine ⟨blocks_aligned (dvd_zero _) b hb, by omega, fun c hc => ?_⟩
  have hapart := (List.pairwise_cons.mp (blocks_apart hperm)).1 c hc
  rw [Nat.zero_add]
  exact hapart.symm

/-- What those clients write lies behind the header of a block. -/
theorem inside_block {s : Session Heap} {a : ℕ} (hr : Rep s.heap base M t)
    (htr : Tracks base M s.live t) (ha : insideBlocks s a) :
    ∃ b ∈ blocks M 0 t, base + b.1 + 8 ≤ a ∧ a < base + b.1 + 2 ^ b.2 := by
  obtain ⟨q, hq, hqa, hqa'⟩ := ha
  obtain ⟨b, hb, hqb⟩ := htr.mem (List.mem_map_of_mem hq)
  rw [hqb, hr.blockOf_eq hb, hr.poolBase] at hqa'
  exact ⟨b, hb, hqb ▸ hqa, hqa'⟩

/-- The first call leaves such a header. -/
theorem stale_first {s : Session Heap} {p : ℕ} {h₁ : Heap} (hlen : LongEnough len M)
    (hinv : Inv base M s) (hp : p ∈ s.live.map Prod.fst)
    (hcall : freeMemory len s.heap p = some h₁) :
    Stale base M p (blockOf s.heap p).2 ⟨h₁, s.live.filter fun q => q.1 ≠ p⟩ := by
  obtain ⟨t, hr, htr⟩ := hinv
  obtain ⟨b, hb, rfl⟩ := htr.mem hp
  obtain ⟨h', heq, hr'⟩ := freeMemory_rep hr hb (hlen.order (hr.order_le b hb))
  obtain rfl : h' = h₁ := Option.some.inj (heq.symm.trans hcall)
  rw [hr.blockOf_eq hb]
  refine ⟨_, hr', htr.release hb, b.1, rfl, hr.order_le b hb, (blocks_bounds b hb).1, ?_,
    vacant_release hb⟩
  rw [freeMemory_mem heq]
  exact hr.header b hb

/-- Frees of other pointers and writes of other clients leave it so. -/
theorem stale_step {s s' : Session Heap} {r : Request} {p k : ℕ} (hlen : LongEnough len M)
    (hs : Stale base M p k s) (hok : noAlloc s r)
    (hstep : Session.Step (manager len) insideBlocks s r s') : Stale base M p k s' := by
  obtain ⟨t, hr, htr, o, rfl, hfour, hkM, hheader, hvac⟩ := hs
  cases hstep with
  | allocNull => exact absurd rfl (hok _)
  | alloc => exact absurd rfl (hok _)
  | freeNull hcall =>
      obtain rfl : s.heap = _ := by simpa [manager, freeMemory] using hcall
      exact ⟨t, hr, htr, o, rfl, hfour, hkM, hheader, hvac⟩
  | free hp hcall =>
      obtain ⟨b, hb, rfl⟩ := htr.mem hp
      obtain ⟨h', heq, hr'⟩ := freeMemory_rep hr hb (hlen.order (hr.order_le b hb))
      obtain rfl : h' = _ := Option.some.inj (heq.symm.trans hcall)
      have hperm : (blocks M 0 t).Perm (b :: blocks M 0 (BuddyTree.release b.2 M b.1 t)) := by
        simpa using release_blocks (k := b.2) (o := b.1) (t := t) 0 (by simpa using hb)
      refine ⟨_, hr', htr.release hb, o, rfl, hfour, hkM, ?_, hvac.aligned, hvac.inside,
        fun c hc => hvac.apart c (hperm.mem_iff.mpr (List.mem_cons_of_mem _ hc))⟩
      rw [freeMemory_mem heq]
      exact hheader
  | write hm =>
      have houtside : ∀ y, (∀ b ∈ blocks M 0 t,
          ¬(base + b.1 + 8 ≤ y ∧ y < base + b.1 + 2 ^ b.2)) → ¬insideBlocks s y := by
        intro y hy hwr
        obtain ⟨b, hb, hin⟩ := inside_block hr htr hwr
        exact hy b hb hin
      refine ⟨t, hr.write fun b hb => hm _ (houtside _ ?_), htr, o, rfl, hfour, hkM, ?_, hvac⟩
      · intro c hc hin
        have hpos : 0 < 2 ^ b.2 := Nat.two_pow_pos _
        rcases blocks_eq_or_apart hb hc with rfl | hapart
        · omega
        · simp only [Apart] at hapart
          omega
      · rw [← hheader]
        refine orderField.get_congr (n := 1) (by simp [orderField]) fun y hy hy' => hm y ?_
        apply houtside
        intro c hc hin
        have hapart := hvac.apart c hc
        have hpos : 0 < 2 ^ k := Nat.two_pow_pos _
        simp only [Apart] at hapart
        omega

/-- **The second call moves the counters and nothing else.** It writes every mark
as it is, and takes the bytes of the block off `usedBytes` again. -/
theorem Stale.freeMemory {s : Session Heap} {p k : ℕ} (hlen : LongEnough len M)
    (hs : Stale base M p k s) :
    freeMemory len s.heap p = some { s.heap with
      usedBytes := s.heap.usedBytes - (orderSize k - hdrSize)
      freeBytes := s.heap.freeBytes + orderSize k } := by
  obtain ⟨t, hr, -, o, rfl, hfour, hkM, hheader, hvac⟩ := hs
  have hM := hr.maxOrder_le
  have hpow : 2 ^ M ≤ 2 ^ 22 := Nat.pow_le_pow_right (by norm_num) hM
  have hinside := hvac.inside
  have hptr : ¬(base + o + 8 = NULL ∨ s.heap.poolBase = NULL) := by
    rw [hr.poolBase]
    simp [hr.base_ne]
  have hpos : 0 < 2 ^ k := Nat.two_pow_pos _
  have hhdr : base + o + 8 - 8 = base + o := Nat.add_sub_cancel _ 8
  have hoff : (base + o - base) % 2 ^ 32 = o := by
    rw [Nat.add_sub_cancel_left, Nat.mod_eq_of_lt (by omega)]
  have hmarks : freeRec len k M 0 o s.heap.nodeState = some s.heap.nodeState := by
    have hshows : Shows s.heap.nodeState (node 0 0) t := hr.shows
    exact freeRec_vacant (M := M) (by omega) (hlen.order hfour) 0 (Nat.zero_add M)
      (by norm_num) hkM hr.wf hshows hvac
  rw [BuddyManager.freeMemory, if_neg hptr]
  simp only [hdrSize_toNat, hhdr, hr.poolBase, hr.maxOrder, hoff, hheader, hmarks,
    Option.map_some]

/-- **A double free spoils the statistics.** After any run, the second call for a
pointer leaves every mark as it was and counts its block as free once more. -/
theorem double_free_counts {bytes : UInt32} {h₀ h₁ : Heap} {s s' : Session Heap} {p : ℕ}
    (hbase : base ≠ NULL) (hbytes : minBlockSize ≤ bytes) (hzero : ∀ n, h.nodeState n = FREE)
    (hboot : createMemoryManager h base bytes = some h₀) (hlen : LongEnough len h₀.maxOrder)
    (hrun : Reaches (Session.Step (manager len) headersIntact) always ⟨h₀, []⟩ s)
    (hp : p ∈ s.live.map Prod.fst) (hfree : freeMemory len s.heap p = some h₁)
    (hbetween : Reaches (Session.Step (manager len) insideBlocks) noAlloc
      ⟨h₁, s.live.filter fun q => q.1 ≠ p⟩ s') :
    freeMemory len s'.heap p = some { s'.heap with
      usedBytes := s'.heap.usedBytes - (orderSize (blockOf s.heap p).2 - hdrSize)
      freeBytes := s'.heap.freeBytes + orderSize (blockOf s.heap p).2 } := by
  obtain ⟨h', hboot', hr⟩ := createMemoryManager_rep hbase hbytes hzero
  obtain rfl : h' = h₀ := Option.some.inj (hboot'.symm.trans hboot)
  rw [hr.maxOrder] at hlen
  have hinv : Inv base _ (⟨h', []⟩ : Session Heap) := ⟨.free, hr, by simp [Tracks, blocks]⟩
  have hreached : Inv base _ s :=
    hrun.invariant hinv fun _ _ _ hi _ hstep => inv_step hlen hi hstep
  have hstale : Stale base _ p _ s' := hbetween.invariant (stale_first hlen hreached hp hfree)
    fun _ _ _ hs hok hstep => stale_step hlen hs hok hstep
  exact hstale.freeMemory hlen

/-! ## Any call moves the counters -/

theorem orderSize_ne_zero (order : ℕ) : orderSize order ≠ 0 := by
  intro hzero
  have htoNat := congrArg UInt32.toNat hzero
  have hlt : 2 ^ ((UInt32.ofNat order).toNat % 32) < 2 ^ 32 :=
    Nat.pow_lt_pow_right (by norm_num) (Nat.mod_lt _ (by norm_num))
  rw [orderSize, UInt32.toNat_shiftLeft, UInt32.toNat_one, Nat.shiftLeft_eq, one_mul,
    Nat.mod_eq_of_lt hlt] at htoNat
  exact absurd htoNat (Nat.two_pow_pos _).ne'

/-- A call with a pointer adds a block to the free bytes. -/
theorem freeMemory_freeBytes {h' : Heap} {p : ℕ} (hp : p ≠ NULL) (hbase : h.poolBase ≠ NULL)
    (hcall : freeMemory len h p = some h') : h'.freeBytes ≠ h.freeBytes := by
  rw [freeMemory, if_neg (not_or.mpr ⟨hp, hbase⟩)] at hcall
  obtain ⟨ns, -, rfl⟩ := Option.map_eq_some_iff.mp hcall
  intro hsame
  apply orderSize_ne_zero (orderField.get h.mem (p - hdrSize.toNat))
  have htoNat := congrArg UInt32.toNat hsame
  apply UInt32.toNat_inj.mp
  have hlt := (orderSize (orderField.get h.mem (p - hdrSize.toNat))).toNat_lt
  have hlt' := h.freeBytes.toNat_lt
  rw [UInt32.toNat_add] at htoNat
  rw [UInt32.toNat_zero]
  omega

/-- The manager works on a pool, and no pointer held is `NULL`. -/
def Placed (s : Session Heap) : Prop :=
  s.heap.poolBase ≠ NULL ∧ ∀ q ∈ s.live, q.1 ≠ NULL

theorem allocMemory_poolBase {h' : Heap} {size : UInt32} {p : ℕ}
    (hcall : allocMemory len h size = some (p, h')) : h'.poolBase = h.poolBase := by
  rw [allocMemory] at hcall
  split at hcall
  · obtain ⟨-, rfl⟩ := Prod.mk.inj (Option.some.inj hcall)
    rfl
  split at hcall
  · cases hcall
  split at hcall
  · obtain ⟨-, rfl⟩ := Prod.mk.inj (Option.some.inj hcall)
    rfl
  split at hcall
  · cases hcall
  all_goals
    obtain ⟨-, rfl⟩ := Prod.mk.inj (Option.some.inj hcall)
    rfl

theorem freeMemory_poolBase {h' : Heap} {p : ℕ} (hcall : freeMemory len h p = some h') :
    h'.poolBase = h.poolBase := by
  rw [freeMemory] at hcall
  split at hcall
  · rw [Option.some.inj hcall]
  · obtain ⟨ns, -, rfl⟩ := Option.map_eq_some_iff.mp hcall
    rfl

theorem placed_step {writable : Session Heap → ℕ → Prop} {s s' : Session Heap} {r : Request}
    (hs : Placed s) (hstep : Session.Step (manager len) writable s r s') : Placed s' := by
  obtain ⟨hbase, hlive⟩ := hs
  cases hstep with
  | allocNull hcall => exact ⟨by rwa [allocMemory_poolBase hcall], hlive⟩
  | alloc hcall hp =>
      refine ⟨by rwa [allocMemory_poolBase hcall], fun q hq => ?_⟩
      rcases List.mem_cons.mp hq with rfl | hq
      · exact hp
      · exact hlive q hq
  | freeNull hcall =>
      have hcall' : freeMemory len s.heap NULL = some _ := hcall
      exact ⟨by rwa [freeMemory_poolBase hcall'], hlive⟩
  | free hp hcall =>
      exact ⟨by rwa [freeMemory_poolBase hcall], fun q hq => hlive q (List.mem_of_mem_filter hq)⟩
  | write hm => exact ⟨hbase, hlive⟩

end BuddyManager

/-! ## Either manager -/

/-- The data bytes of the blocks that the clients hold. -/
def Linked.insideBlocks : (l : Linked) → Session l.Heap → ℕ → Prop
  | naive => NaiveManager.insideBlocks
  | buddy => BuddyManager.insideBlocks

/-- The manager was just created on a pool, and no client holds a pointer. -/
def Linked.Created : (l : Linked) → Session l.Heap → Prop
  | naive, s => ∃ h P, s = NaiveManager.boot h P
  | buddy, s => ∃ h base bytes, base ≠ NULL ∧ BuddyManager.minBlockSize ≤ bytes ∧
      BuddyManager.createMemoryManager h base bytes = some s.heap ∧ s.live = []

/-- The state of the manager is the same: the block list, which is in the memory,
or the marks and the counters. -/
def Linked.Same : (l : Linked) → l.Heap → l.Heap → Prop
  | naive, h, h' => h' = h
  | buddy, h, h' => h'.nodeState = h.nodeState ∧ h'.usedBytes = h.usedBytes ∧
      h'.freeBytes = h.freeBytes

/-- **A double free is harmless exactly in the naive manager.** In every reachable
heap, for every live pointer that is freed, and after any further frees of live
pointers and writes to blocks held: a second call for it leaves the state of the
manager as it was if and only if the naive manager is linked in. -/
theorem double_free (l : Linked) {s₀ s t : Session l.Heap} {p : ℕ} {h : l.Heap}
    (hboot : l.Created s₀) (hrun : Reaches (Session.Step l.manager l.insideBlocks) always s₀ s)
    (hp : p ∈ s.live.map Prod.fst) (hfree : l.manager.freeMemory s.heap p = some h)
    (hbetween : Reaches (Session.Step l.manager l.insideBlocks) noAlloc
      ⟨h, s.live.filter fun q => q.1 ≠ p⟩ t) :
    (∃ h', l.manager.freeMemory t.heap p = some h' ∧ l.Same t.heap h') ↔ l = .naive := by
  cases l with
  | naive =>
      obtain ⟨h₀, P, rfl⟩ := hboot
      have hinv : NaiveManager.Inv P s := hrun.invariant (NaiveManager.inv_boot h₀ P)
        fun _ _ _ hi _ hstep => NaiveManager.inv_step hi hstep
      obtain rfl : NaiveManager.freeMemory s.heap p = h := Option.some.inj hfree
      have hstale : NaiveManager.Stale P p t :=
        hbetween.invariant (NaiveManager.stale_first hinv hp)
          fun _ _ _ hs hok hstep => NaiveManager.stale_step hs hok hstep
      exact iff_of_true ⟨_, rfl, hstale.freeMemory⟩ rfl
  | buddy =>
      obtain ⟨h₀, base, bytes, hbase, hbytes, hcreate, hlive⟩ := hboot
      have hplaced₀ : BuddyManager.Placed s₀ := by
        refine ⟨?_, by simp [hlive]⟩
        rw [BuddyManager.createMemoryManager, if_neg] at hcreate
        · obtain ⟨order, -, heq⟩ := Option.map_eq_some_iff.mp hcreate
          rw [← heq]
          exact hbase
        · rintro (hnull | hsmall)
          · exact hbase hnull
          · exact absurd hbytes (UInt32.not_le.mpr hsmall)
      have hplaced : BuddyManager.Placed s := hrun.invariant hplaced₀
        fun _ _ _ hs _ hstep => BuddyManager.placed_step hs hstep
      have hstep : Session.Step Linked.buddy.manager Linked.buddy.insideBlocks s (.free p)
          ⟨h, s.live.filter fun q => q.1 ≠ p⟩ := .free hp hfree
      have hfirst : BuddyManager.Placed ⟨h, s.live.filter fun q => q.1 ≠ p⟩ :=
        BuddyManager.placed_step hplaced hstep
      have hsecond : BuddyManager.Placed t := hbetween.invariant hfirst
        fun _ _ _ hs _ hstep => BuddyManager.placed_step hs hstep
      obtain ⟨q, hq, rfl⟩ := List.mem_map.mp hp
      refine iff_of_false ?_ (by simp)
      rintro ⟨h', hcall, -, -, hsame⟩
      exact BuddyManager.freeMemory_freeBytes (hplaced.2 q hq) hsecond.1 hcall hsame

/-- 100 bytes from the naive manager, freed twice. -/
theorem double_free_naive : ∃ s t : Session NaiveManager.Heap,
    s.live = [(memoryStart + 24, 100)] ∧
      t.heap = NaiveManager.freeMemory s.heap (memoryStart + 24) ∧
      ∃ h', NaiveManager.manager.freeMemory t.heap (memoryStart + 24) = some h' ∧
        Linked.Same .naive t.heap h' := by
  obtain ⟨h, halloc⟩ := NaiveManager.boot_alloc NaiveManager.zeroHeap NaiveManager.kernelPool
    100 (by decide) (by decide)
  have hstep : Session.Step Linked.naive.manager Linked.naive.insideBlocks
      (NaiveManager.boot NaiveManager.zeroHeap NaiveManager.kernelPool) (.alloc 100)
      ⟨h, [(memoryStart + 24, 100)]⟩ := .alloc halloc (by decide)
  exact ⟨⟨h, [(memoryStart + 24, 100)]⟩, ⟨NaiveManager.freeMemory h (memoryStart + 24), _⟩,
    rfl, rfl, (double_free .naive ⟨_, _, rfl⟩ ((Reaches.refl _).tail trivial hstep)
      List.mem_cons_self rfl (Reaches.refl _)).mpr rfl⟩

/-- 100 bytes from the buddy manager, freed twice in a row: the second call adds
128 bytes to the free ones again. -/
theorem double_free_buddy : ∃ (s₀ s t : Session BuddyManager.Heap) (h : BuddyManager.Heap),
    Linked.Created .buddy s₀ ∧
    Reaches (Session.Step Linked.buddy.manager Linked.buddy.insideBlocks) always s₀ s ∧
    s.live = [(memoryStart + 8, 100)] ∧
    Linked.buddy.manager.freeMemory s.heap (memoryStart + 8) = some h ∧
    Reaches (Session.Step Linked.buddy.manager Linked.buddy.insideBlocks) noAlloc
      ⟨h, s.live.filter fun q => q.1 ≠ memoryStart + 8⟩ t ∧
    ¬∃ h', Linked.buddy.manager.freeMemory t.heap (memoryStart + 8) = some h' ∧
      Linked.Same .buddy t.heap h' := by
  obtain ⟨h₀, hboot, hr⟩ := BuddyManager.zeroHeap_rep
  have hfive : BuddyManager.InArray BuddyManager.nodeStateLength 22 7 :=
    BuddyManager.inArray_five (le_refl _) (by decide)
  obtain ⟨t₁, htree⟩ : ∃ t₁, BuddyTree.alloc 7 22 .free = some (0, t₁) :=
    BuddyTree.alloc_free (by decide)
  have hspec := BuddyManager.allocMemory_rep hr (show (100 : UInt32) ≠ 0 by decide)
    (show BuddyManager.sizeToOrder 100 = some 7 by decide) (.inl hfive)
  simp only [htree] at hspec
  obtain ⟨h₁, halloc, hr₁⟩ := hspec
  have hblock : (0, 7) ∈ BuddyTree.blocks 22 0 t₁ := by
    have hperm := BuddyTree.alloc_blocks 0 htree
    exact hperm.mem_iff.mpr List.mem_cons_self
  obtain ⟨h₂, hfree, hr₂⟩ := BuddyManager.freeMemory_rep hr₁ hblock hfive
  have hcreated : Linked.Created .buddy ⟨h₀, []⟩ :=
    ⟨_, memoryStart, memorySize, by decide, by decide, hboot, rfl⟩
  have hstep : Session.Step Linked.buddy.manager Linked.buddy.insideBlocks ⟨h₀, []⟩ (.alloc 100)
      ⟨h₁, [(memoryStart + 8, 100)]⟩ := .alloc halloc (by decide)
  refine ⟨⟨h₀, []⟩, ⟨h₁, [(memoryStart + 8, 100)]⟩, _, h₂, hcreated,
    (Reaches.refl _).tail trivial hstep, rfl, hfree, Reaches.refl _, ?_⟩
  rintro ⟨h', hcall, -, -, hsame⟩
  have hbase : h₂.poolBase ≠ NULL := by
    rw [hr₂.poolBase]
    exact hr₂.base_ne
  exact BuddyManager.freeMemory_freeBytes (by decide) hbase hcall hsame

end BareKernel
