import Mathlib.Data.List.Chain
import Mathlib.Data.List.Sort
import Mathlib.Algebra.BigOperators.Group.List.Basic
import Mathlib.Tactic.Common
import Mathlib.Tactic.Ring

/-!
# First-fit block lists

The abstract state of an allocator that tiles its pool with blocks: a list of
segments, each a header of `hdr` bytes followed by `size` data bytes, either
free or in use. Allocation takes the first free segment that is large enough
and carves the request off its front when at least `rest` data bytes would
remain behind a new header; release marks a segment free and glues free
neighbours together. Nothing here mentions memory or pointers.
-/

namespace BlockList

/-- A block: where its header starts, its data bytes, and whether it is free. -/
structure Seg where
  addr : ℕ
  size : ℕ
  free : Bool
deriving DecidableEq, Repr

/-- The first address after the block. -/
def Seg.stop (hdr : ℕ) (b : Seg) : ℕ := b.addr + hdr + b.size

/-- The blocks cover `[lo, hi)` exactly, each one starting where its
predecessor stops. -/
def Tiles (hdr : ℕ) : ℕ → List Seg → ℕ → Prop
  | lo, [], hi => lo = hi
  | lo, b :: bs, hi => b.addr = lo ∧ Tiles hdr (b.stop hdr) bs hi

/-- No two neighbouring blocks are both free. -/
def NoFreePair (bs : List Seg) : Prop :=
  bs.IsChain fun a b => ¬(a.free = true ∧ b.free = true)

/-- The blocks in use. -/
def used (bs : List Seg) : List Seg := bs.filter fun b => !b.free

@[simp] theorem mem_used {b : Seg} {bs : List Seg} :
    b ∈ used bs ↔ b ∈ bs ∧ b.free = false := by
  simp [used]

/-! ## Tilings -/

section Tilings

variable {hdr : ℕ}

theorem Tiles.append {xs ys : List Seg} : ∀ {lo hi : ℕ},
    Tiles hdr lo (xs ++ ys) hi ↔ ∃ mid, Tiles hdr lo xs mid ∧ Tiles hdr mid ys hi := by
  induction xs with
  | nil => simp [Tiles]
  | cons b xs ih =>
      intro lo hi
      simp only [List.cons_append, Tiles, ih]
      constructor
      · rintro ⟨hb, mid, hxs, hys⟩
        exact ⟨mid, ⟨hb, hxs⟩, hys⟩
      · rintro ⟨mid, ⟨hb, hxs⟩, hys⟩
        exact ⟨hb, mid, hxs, hys⟩

theorem Tiles.le : ∀ {bs : List Seg} {lo hi : ℕ}, Tiles hdr lo bs hi → lo ≤ hi
  | [], _, _, h => le_of_eq h
  | b :: bs, lo, hi, ⟨hb, hbs⟩ => by
      have := Tiles.le hbs
      unfold Seg.stop at this
      omega

theorem Tiles.bounds : ∀ {bs : List Seg} {lo hi : ℕ}, Tiles hdr lo bs hi →
    ∀ b ∈ bs, lo ≤ b.addr ∧ b.stop hdr ≤ hi
  | c :: bs, lo, hi, ⟨hc, hbs⟩, b, hb => by
      rcases List.mem_cons.mp hb with rfl | hb
      · exact ⟨hc.ge, hbs.le⟩
      · have := Tiles.bounds hbs b hb
        unfold Seg.stop at this ⊢
        omega

/-- Blocks of a tiling come in address order and do not overlap. -/
theorem Tiles.pairwise : ∀ {bs : List Seg} {lo hi : ℕ}, Tiles hdr lo bs hi →
    bs.Pairwise fun a b => a.stop hdr ≤ b.addr
  | [], _, _, _ => List.Pairwise.nil
  | _ :: _, _, _, ⟨_, hbs⟩ =>
      List.pairwise_cons.mpr ⟨fun b hb => (hbs.bounds b hb).1, hbs.pairwise⟩

/-- Two blocks of one tiling are the same block or share no byte. -/
theorem Tiles.apart {bs : List Seg} {lo hi : ℕ} (h : Tiles hdr lo bs hi) {a b : Seg}
    (ha : a ∈ bs) (hb : b ∈ bs) : a = b ∨ a.stop hdr ≤ b.addr ∨ b.stop hdr ≤ a.addr := by
  have : Std.Symm fun a b : Seg => a.stop hdr ≤ b.addr ∨ b.stop hdr ≤ a.addr :=
    ⟨fun _ _ h => Or.symm h⟩
  have hpair : bs.Pairwise fun a b => a.stop hdr ≤ b.addr ∨ b.stop hdr ≤ a.addr :=
    h.pairwise.imp fun hab => Or.inl hab
  by_cases hab : a = b
  · exact Or.inl hab
  · exact Or.inr (hpair.forall ha hb hab)

/-- In a tiling with real headers the start address names the block. -/
theorem Tiles.eq_of_addr {bs : List Seg} {lo hi : ℕ} (h : Tiles hdr lo bs hi)
    (hpos : 0 < hdr) {a b : Seg} (ha : a ∈ bs) (hb : b ∈ bs) (hab : a.addr = b.addr) :
    a = b := by
  rcases h.apart ha hb with h | h | h
  · exact h
  all_goals
    unfold Seg.stop at h
    omega

/-- Headers and data add up to the pool. -/
theorem Tiles.total : ∀ {bs : List Seg} {lo hi : ℕ}, Tiles hdr lo bs hi →
    lo + ((bs.map Seg.size).sum + hdr * bs.length) = hi
  | [], _, _, h => by simpa [Tiles] using h
  | b :: bs, lo, hi, ⟨hb, hbs⟩ => by
      have ih := hbs.total
      simp only [List.map_cons, List.sum_cons, List.length_cons, Seg.stop] at ih ⊢
      rw [← ih, ← hb]
      ring

theorem Tiles.length_mul_le {bs : List Seg} {lo hi : ℕ} (h : Tiles hdr lo bs hi) :
    hdr * bs.length ≤ hi - lo := by
  have := h.total
  omega

end Tilings

/-! ## Allocation: first fit, carved when room is left -/

/-- The first free block with at least `req` data bytes, with the blocks on
either side of it. -/
def firstFit (req : ℕ) : List Seg → Option (List Seg × Seg × List Seg)
  | [] => none
  | b :: bs =>
      if b.free = true ∧ req ≤ b.size then some ([], b, bs)
      else (firstFit req bs).map fun (pre, c, post) => (b :: pre, c, post)

/-- What becomes of the chosen block: the request carved off its front, or the
whole block. -/
def carve (hdr rest req : ℕ) (b : Seg) : List Seg :=
  if req + hdr + rest ≤ b.size then
    [{ b with size := req, free := false },
      { addr := b.addr + hdr + req, size := b.size - req - hdr, free := true }]
  else [{ b with free := false }]

/-- The block that is handed out. -/
def taken (hdr rest req : ℕ) (b : Seg) : Seg :=
  { b with size := if req + hdr + rest ≤ b.size then req else b.size, free := false }

section Allocation

variable {hdr rest req : ℕ}

/-- **First fit**: the chosen block fits, and no block before it does. -/
theorem firstFit_spec : ∀ {bs pre post : List Seg} {b : Seg},
    firstFit req bs = some (pre, b, post) →
      bs = pre ++ b :: post ∧ b.free = true ∧ req ≤ b.size ∧
        ∀ c ∈ pre, ¬(c.free = true ∧ req ≤ c.size)
  | c :: bs, pre, post, b, h => by
      rw [firstFit] at h
      split at h
      · rename_i hc
        obtain ⟨rfl, rfl, rfl⟩ : [] = pre ∧ c = b ∧ bs = post := by simpa using h
        exact ⟨rfl, hc.1, hc.2, by simp⟩
      · rename_i hc
        obtain ⟨⟨pre', b', post'⟩, hfit, heq⟩ := Option.map_eq_some_iff.mp h
        obtain ⟨rfl, rfl, rfl⟩ : c :: pre' = pre ∧ b' = b ∧ post' = post := by simpa using heq
        obtain ⟨rfl, hfree, hsize, hpre⟩ := firstFit_spec hfit
        refine ⟨rfl, hfree, hsize, ?_⟩
        intro d hd
        rcases List.mem_cons.mp hd with rfl | hd
        · exact hc
        · exact hpre d hd

theorem firstFit_none : ∀ {bs : List Seg}, firstFit req bs = none →
    ∀ b ∈ bs, ¬(b.free = true ∧ req ≤ b.size)
  | c :: bs, h, b, hb => by
      rw [firstFit] at h
      split at h
      · cases h
      · rename_i hc
        rcases List.mem_cons.mp hb with rfl | hb
        · exact hc
        · exact firstFit_none (Option.map_eq_none_iff.mp h) b hb

theorem carve_tiles (b : Seg) :
    Tiles hdr b.addr (carve hdr rest req b) (b.stop hdr) := by
  unfold carve
  split
  · simp only [Tiles, Seg.stop, true_and]
    omega
  · simp [Tiles, Seg.stop]

theorem used_carve (b : Seg) : used (carve hdr rest req b) = [taken hdr rest req b] := by
  unfold carve taken used
  split <;> simp [*]

/-- Allocation hands out one block and keeps the others in use. -/
theorem used_append_carve {pre post : List Seg} (b : Seg) :
    used (pre ++ (carve hdr rest req b ++ post)) =
      used pre ++ taken hdr rest req b :: used post := by
  have hcarve : used (carve hdr rest req b) = [taken hdr rest req b] := used_carve b
  simp only [used, List.filter_append] at hcarve ⊢
  rw [hcarve]
  rfl

theorem used_append_free {pre post : List Seg} {b : Seg} (hfree : b.free = true) :
    used (pre ++ b :: post) = used pre ++ used post := by
  simp [used, hfree]

theorem le_taken_size {b : Seg} (h : req ≤ b.size) : req ≤ (taken hdr rest req b).size := by
  unfold taken
  dsimp only
  split <;> omega

/-- Allocation keeps the tiling. -/
theorem Tiles.carve {lo hi : ℕ} {pre post : List Seg} {b : Seg}
    (h : Tiles hdr lo (pre ++ b :: post) hi) :
    Tiles hdr lo (pre ++ (carve hdr rest req b ++ post)) hi := by
  obtain ⟨mid, hpre, hb, hpost⟩ := Tiles.append.mp h
  refine Tiles.append.mpr ⟨mid, hpre, Tiles.append.mpr ⟨b.stop hdr, ?_, hpost⟩⟩
  exact hb ▸ carve_tiles b

/-- Carving hands out a block in use and leaves free only what was free. -/
theorem NoFreePair.carve {pre post : List Seg} {b : Seg} (hfree : b.free = true)
    (h : NoFreePair (pre ++ b :: post)) :
    NoFreePair (pre ++ (carve hdr rest req b ++ post)) := by
  unfold NoFreePair at *
  rw [List.isChain_append, List.isChain_cons] at h
  obtain ⟨hpre, ⟨hb, hpost⟩, hseam⟩ := h
  rw [List.isChain_append]
  unfold BlockList.carve
  split
  · refine ⟨hpre, ?_, by simp⟩
    simp only [List.cons_append, List.nil_append, List.isChain_cons, List.head?_cons]
    refine ⟨by simp, ?_, hpost⟩
    intro c hc
    simpa [hfree] using hb c hc
  · refine ⟨hpre, ?_, by simp⟩
    simp only [List.cons_append, List.nil_append, List.isChain_cons]
    exact ⟨by simp, hpost⟩

end Allocation

/-! ## Release: mark free, then glue free neighbours -/

/-- Put `b` in front of `l`, as one block with the first of `l` when both are
free. -/
def glue (hdr : ℕ) (b : Seg) : List Seg → List Seg
  | [] => [b]
  | c :: cs =>
      if b.free = true ∧ c.free = true then
        { b with size := b.size + (hdr + c.size) } :: cs
      else b :: c :: cs

/-- Glue every run of free neighbours. -/
def coalesce (hdr : ℕ) (bs : List Seg) : List Seg := bs.foldr (glue hdr) []

/-- Mark the block at `a` free. -/
def mark (a : ℕ) (bs : List Seg) : List Seg :=
  bs.map fun b => if b.addr = a then { b with free := true } else b

def release (hdr a : ℕ) (bs : List Seg) : List Seg := coalesce hdr (mark a bs)

section Release

variable {hdr : ℕ}

theorem glue_tiles {b : Seg} {l : List Seg} {lo hi : ℕ}
    (h : Tiles hdr lo (b :: l) hi) : Tiles hdr lo (glue hdr b l) hi := by
  cases l with
  | nil => exact h
  | cons c cs =>
      rw [glue]
      split
      · obtain ⟨hb, hc, hcs⟩ := h
        refine ⟨hb, ?_⟩
        have hstop : Seg.stop hdr { b with size := b.size + (hdr + c.size) } = c.stop hdr := by
          simp only [Seg.stop] at hc ⊢
          omega
        rw [hstop]
        exact hcs
      · exact h

theorem coalesce_tiles : ∀ {bs : List Seg} {lo hi : ℕ}, Tiles hdr lo bs hi →
    Tiles hdr lo (coalesce hdr bs) hi
  | [], _, _, h => h
  | _ :: _, _, _, ⟨hb, hbs⟩ => glue_tiles ⟨hb, coalesce_tiles hbs⟩

theorem used_glue (b : Seg) (l : List Seg) : used (glue hdr b l) = used (b :: l) := by
  cases l with
  | nil => rfl
  | cons c cs =>
      rw [glue]
      split
      · rename_i h
        simp [used, h.1, h.2]
      · rfl

theorem used_coalesce : ∀ bs : List Seg, used (coalesce hdr bs) = used bs
  | [] => rfl
  | b :: bs => by
      have ih := used_coalesce bs
      rw [coalesce, List.foldr_cons, ← coalesce, used_glue]
      simp only [used, List.filter_cons] at ih ⊢
      rw [ih]

theorem glue_noFreePair {b : Seg} {l : List Seg} (h : NoFreePair l) :
    NoFreePair (glue hdr b l) := by
  unfold NoFreePair at *
  cases l with
  | nil => exact List.isChain_singleton _
  | cons c cs =>
      rw [glue]
      rw [List.isChain_cons] at h
      split
      · rename_i hbc
        rw [List.isChain_cons]
        refine ⟨?_, h.2⟩
        intro d hd
        simpa [hbc.1, hbc.2] using h.1 d hd
      · rename_i hbc
        rw [List.isChain_cons, List.isChain_cons]
        refine ⟨?_, h⟩
        intro d hd
        obtain rfl : c = d := by simpa using hd
        exact hbc

theorem coalesce_noFreePair : ∀ bs : List Seg, NoFreePair (coalesce hdr bs)
  | [] => List.isChain_nil
  | _ :: bs => glue_noFreePair (coalesce_noFreePair bs)

/-- A list without free neighbours is already glued. -/
theorem coalesce_of_noFreePair : ∀ {bs : List Seg}, NoFreePair bs → coalesce hdr bs = bs
  | [], _ => rfl
  | [_], _ => rfl
  | b :: c :: cs, h => by
      unfold NoFreePair at h
      rw [List.isChain_cons] at h
      have ih : coalesce hdr (c :: cs) = c :: cs := coalesce_of_noFreePair h.2
      rw [coalesce, List.foldr_cons, ← coalesce, ih, glue, if_neg (h.1 c (by simp))]

theorem mark_tiles {a : ℕ} : ∀ {bs : List Seg} {lo hi : ℕ}, Tiles hdr lo bs hi →
    Tiles hdr lo (mark a bs) hi
  | [], _, _, h => h
  | b :: bs, lo, hi, ⟨hb, hbs⟩ => by
      have ih := mark_tiles (a := a) hbs
      simp only [mark, List.map_cons] at ih ⊢
      split <;> exact ⟨hb, ih⟩

theorem used_mark (a : ℕ) : ∀ bs : List Seg,
    used (mark a bs) = (used bs).filter fun b => b.addr ≠ a
  | [] => rfl
  | b :: bs => by
      have ih := used_mark a bs
      simp only [mark, used, List.map_cons] at ih ⊢
      by_cases hba : b.addr = a <;> cases hfree : b.free <;>
        simp [hba, hfree, ih]

theorem release_tiles {a lo hi : ℕ} {bs : List Seg} (h : Tiles hdr lo bs hi) :
    Tiles hdr lo (release hdr a bs) hi :=
  coalesce_tiles (mark_tiles h)

theorem release_noFreePair (a : ℕ) (bs : List Seg) : NoFreePair (release hdr a bs) :=
  coalesce_noFreePair _

/-- **Frame of release**: the blocks still in use are the others, unchanged. -/
theorem used_release (a : ℕ) (bs : List Seg) :
    used (release hdr a bs) = (used bs).filter fun b => b.addr ≠ a := by
  rw [release, used_coalesce, used_mark]

end Release

/-! ## Release at a known block

The two neighbours are the only blocks that can be glued, so releasing a block
of a list without free neighbours changes three blocks at most. -/

section ReleaseAt

variable {hdr : ℕ}

/-- Gluing makes free blocks no smaller. -/
theorem glue_room {n : ℕ} {b : Seg} {l : List Seg}
    (h : ∃ c ∈ b :: l, c.free = true ∧ n ≤ c.size) :
    ∃ c ∈ glue hdr b l, c.free = true ∧ n ≤ c.size := by
  cases l with
  | nil => exact h
  | cons d ds =>
      rw [glue]
      split
      · rename_i hbd
        obtain ⟨c, hc, hfree, hsize⟩ := h
        rcases List.mem_cons.mp hc with rfl | hc
        · exact ⟨_, List.mem_cons_self, hbd.1, by simp only []; omega⟩
        · rcases List.mem_cons.mp hc with rfl | hc
          · exact ⟨_, List.mem_cons_self, hbd.1, by simp only []; omega⟩
          · exact ⟨c, List.mem_cons_of_mem _ hc, hfree, hsize⟩
      · exact h

theorem coalesce_room {n : ℕ} : ∀ {bs : List Seg}, (∃ c ∈ bs, c.free = true ∧ n ≤ c.size) →
    ∃ c ∈ coalesce hdr bs, c.free = true ∧ n ≤ c.size
  | b :: bs, ⟨c, hc, hfree, hsize⟩ => by
      apply glue_room
      rcases List.mem_cons.mp hc with rfl | hc
      · exact ⟨c, List.mem_cons_self, hfree, hsize⟩
      · obtain ⟨d, hd, hroom⟩ := coalesce_room ⟨c, hc, hfree, hsize⟩
        exact ⟨d, List.mem_cons_of_mem _ hd, hroom⟩

/-- **What was released can be had again**: a free block is at least as large. -/
theorem release_room {b : Seg} {bs : List Seg} (hb : b ∈ bs) :
    ∃ c ∈ release hdr b.addr bs, c.free = true ∧ b.size ≤ c.size := by
  apply coalesce_room
  refine ⟨{ b with free := true }, ?_, rfl, le_refl _⟩
  unfold mark
  rw [List.mem_map]
  exact ⟨b, hb, if_pos rfl⟩

theorem mark_eq_self {a : ℕ} {bs : List Seg} (h : ∀ c ∈ bs, c.addr ≠ a) :
    mark a bs = bs := by
  rw [mark, List.map_congr_left fun c hc => if_neg (h c hc), List.map_id']

theorem mark_append_cons {pre post : List Seg} {b : Seg} {lo hi : ℕ} (hpos : 0 < hdr)
    (h : Tiles hdr lo (pre ++ b :: post) hi) :
    mark b.addr (pre ++ b :: post) = pre ++ { b with free := true } :: post := by
  have hpair := h.pairwise
  rw [List.pairwise_append, List.pairwise_cons] at hpair
  obtain ⟨-, ⟨hpost, -⟩, hpre⟩ := hpair
  have hpre' : mark b.addr pre = pre := mark_eq_self fun c hc => by
    have := hpre c hc b (by simp)
    unfold Seg.stop at this
    omega
  have hpost' : mark b.addr post = post := mark_eq_self fun c hc => by
    have := hpost c hc
    unfold Seg.stop at this
    omega
  simp only [mark, List.map_append, List.map_cons, if_true] at hpre' hpost' ⊢
  rw [hpre', hpost']

theorem foldr_glue_eq_append : ∀ {xs l : List Seg}, NoFreePair (xs ++ l) →
    xs.foldr (glue hdr) l = xs ++ l
  | [], _, _ => rfl
  | b :: xs, l, h => by
      have h' := h
      unfold NoFreePair at h'
      rw [List.cons_append, List.isChain_cons] at h'
      rw [List.foldr_cons, foldr_glue_eq_append h'.2, List.cons_append]
      cases hl : xs ++ l with
      | nil => rfl
      | cons c cs => rw [glue, if_neg (h'.1 c (by simp [hl]))]

theorem release_first {post : List Seg} {b : Seg} {lo hi : ℕ} (hpos : 0 < hdr)
    (h : Tiles hdr lo (b :: post) hi) (hne : NoFreePair (b :: post)) :
    release hdr b.addr (b :: post) = glue hdr { b with free := true } post := by
  have hmark : mark b.addr ([] ++ b :: post) = [] ++ { b with free := true } :: post :=
    mark_append_cons hpos h
  rw [List.nil_append, List.nil_append] at hmark
  rw [release, hmark, coalesce, List.foldr_cons, ← coalesce,
    coalesce_of_noFreePair (List.isChain_cons.mp hne).2]

/-- The predecessor `a` is glued to the result of gluing the released block to
its successor; nothing before `a` moves. -/
theorem release_snoc {pre post : List Seg} {a b : Seg} {lo hi : ℕ} (hpos : 0 < hdr)
    (h : Tiles hdr lo (pre ++ a :: b :: post) hi) (hne : NoFreePair (pre ++ a :: b :: post)) :
    release hdr b.addr (pre ++ a :: b :: post) =
      pre ++ glue hdr a (glue hdr { b with free := true } post) := by
  have hmark : mark b.addr (pre ++ [a] ++ b :: post) =
      pre ++ [a] ++ { b with free := true } :: post := mark_append_cons hpos (by simpa using h)
  simp only [List.append_assoc, List.cons_append, List.nil_append] at hmark
  unfold NoFreePair at hne
  rw [List.isChain_append, List.isChain_cons, List.isChain_cons] at hne
  obtain ⟨hpre, ⟨-, -, hpost⟩, hseam⟩ := hne
  have hglue : NoFreePair (glue hdr a (glue hdr { b with free := true } post)) :=
    glue_noFreePair (glue_noFreePair hpost)
  have hhead : ∀ l : List Seg, ∀ c ∈ (glue hdr a l).head?, c.free = a.free := by
    intro l c hc
    cases l with
    | nil => simp [glue] at hc; rw [← hc]
    | cons d ds =>
        rw [glue] at hc
        split at hc <;> simp at hc <;> rw [← hc]
  have hall : NoFreePair (pre ++ glue hdr a (glue hdr { b with free := true } post)) := by
    unfold NoFreePair
    rw [List.isChain_append]
    refine ⟨hpre, hglue, ?_⟩
    intro x hx y hy
    rw [hhead _ y hy]
    exact hseam x hx a (by simp)
  rw [release, hmark, coalesce, List.foldr_append, List.foldr_cons, List.foldr_cons,
    ← coalesce, coalesce_of_noFreePair hpost, foldr_glue_eq_append hall]

end ReleaseAt

/-! ## Headers left behind inside free blocks -/

section Buried

variable {hdr a x lo hi : ℕ} {bs : List Seg}

/-- A free block starts at `a`, or has swallowed a whole header at `a`. -/
def Buried (hdr a : ℕ) (bs : List Seg) : Prop :=
  ∃ c ∈ bs, c.free = true ∧ (c.addr = a ∨ c.addr + hdr ≤ a ∧ a + hdr ≤ c.stop hdr)

theorem glue_buried {b : Seg} {l : List Seg} (ht : Tiles hdr lo (b :: l) hi)
    (h : Buried hdr a (b :: l)) : Buried hdr a (glue hdr b l) := by
  cases l with
  | nil => exact h
  | cons d ds =>
      rw [glue]
      split
      · rename_i hbd
        obtain ⟨-, hd, -⟩ := ht
        obtain ⟨c, hc, hfree, hplace⟩ := h
        rcases List.mem_cons.mp hc with rfl | hc
        · refine ⟨_, List.mem_cons_self, hbd.1, ?_⟩
          simp only [Seg.stop] at *
          omega
        · rcases List.mem_cons.mp hc with rfl | hc
          · -- the header of the second block is now data of the first
            refine ⟨_, List.mem_cons_self, hbd.1, Or.inr ?_⟩
            simp only [Seg.stop] at *
            omega
          · exact ⟨c, List.mem_cons_of_mem _ hc, hfree, hplace⟩
      · exact h

theorem coalesce_buried : ∀ {bs : List Seg} {lo : ℕ}, Tiles hdr lo bs hi → Buried hdr a bs →
    Buried hdr a (coalesce hdr bs)
  | b :: bs, lo, ⟨hb, hbs⟩, ⟨c, hc, hfree, hplace⟩ => by
      have hrest : Tiles hdr lo (b :: coalesce hdr bs) hi := ⟨hb, coalesce_tiles hbs⟩
      apply glue_buried hrest
      rcases List.mem_cons.mp hc with rfl | hc
      · exact ⟨c, List.mem_cons_self, hfree, hplace⟩
      · obtain ⟨d, hd, hd'⟩ := coalesce_buried hbs ⟨c, hc, hfree, hplace⟩
        exact ⟨d, List.mem_cons_of_mem _ hd, hd'⟩

/-- A buried header stays buried when other blocks are released. -/
theorem release_buried (ht : Tiles hdr lo bs hi) (h : Buried hdr a bs) :
    Buried hdr a (release hdr x bs) := by
  apply coalesce_buried (mark_tiles ht)
  obtain ⟨c, hc, hfree, hplace⟩ := h
  by_cases hcx : c.addr = x
  · refine ⟨{ c with free := true }, ?_, rfl, hplace⟩
    exact List.mem_map.mpr ⟨c, hc, if_pos hcx⟩
  · exact ⟨c, List.mem_map.mpr ⟨c, hc, if_neg hcx⟩, hfree, hplace⟩

/-- The header of a released block is buried. -/
theorem release_buried_self {b : Seg} (ht : Tiles hdr lo bs hi) (hb : b ∈ bs) :
    Buried hdr b.addr (release hdr b.addr bs) := by
  apply coalesce_buried (mark_tiles ht)
  exact ⟨{ b with free := true }, List.mem_map.mpr ⟨b, hb, if_pos rfl⟩, rfl, Or.inl rfl⟩

/-- A buried header meets the header of a block only where it is that header. -/
theorem Buried.apart (h : Buried hdr a bs) (ht : Tiles hdr lo bs hi) {d : Seg} (hd : d ∈ bs) :
    d.addr = a ∧ d.free = true ∨ d.addr + hdr ≤ a ∨ a + hdr ≤ d.addr := by
  obtain ⟨c, hc, hfree, hplace⟩ := h
  rcases ht.apart hc hd with rfl | hcd | hdc
  · tauto
  all_goals
    simp only [Seg.stop] at *
    omega

end Buried

/-! ## Gaps between the blocks in use -/

/-- A maximal range of `[lo, hi)` without a byte of the blocks `us`, between two of them
or one of them and an end. -/
structure Gap (hdr lo hi : ℕ) (us : List Seg) (a e : ℕ) : Prop where
  start : a = lo ∨ ∃ b ∈ us, a = b.stop hdr
  stop : e = hi ∨ ∃ b ∈ us, e = b.addr
  clear : ∀ b ∈ us, b.stop hdr ≤ a ∨ e ≤ b.addr
  nonempty : a < e

section Gaps

variable {hdr lo hi : ℕ} {bs : List Seg} {b : Seg}

/-- Something starts at the bottom of what is not empty. -/
theorem Tiles.first (h : Tiles hdr lo bs hi) (hlt : lo < hi) : ∃ b ∈ bs, b.addr = lo := by
  cases bs with
  | nil => exact absurd h hlt.ne
  | cons b bs => exact ⟨b, List.mem_cons_self, h.1⟩

/-- Behind a block is the end, or another block that is not free with it. -/
theorem Tiles.next (h : Tiles hdr lo bs hi) (hne : NoFreePair bs) (hb : b ∈ bs) :
    b.stop hdr = hi ∨ ∃ c ∈ bs, c.addr = b.stop hdr ∧ ¬(b.free = true ∧ c.free = true) := by
  obtain ⟨pre, post, rfl⟩ := List.append_of_mem hb
  obtain ⟨mid, -, -, hpost⟩ := Tiles.append.mp h
  cases post with
  | nil => exact .inl hpost
  | cons c post =>
      unfold NoFreePair at hne
      rw [List.isChain_append, List.isChain_cons] at hne
      exact .inr ⟨c, by simp, hpost.1, hne.2.1.1 c (by simp)⟩

/-- In front of a block is the bottom, or another block that is not free with it. -/
theorem Tiles.previous (h : Tiles hdr lo bs hi) (hne : NoFreePair bs) (hb : b ∈ bs) :
    b.addr = lo ∨ ∃ c ∈ bs, b.addr = c.stop hdr ∧ ¬(c.free = true ∧ b.free = true) := by
  obtain ⟨pre, post, rfl⟩ := List.append_of_mem hb
  obtain rfl | ⟨pre', c, rfl⟩ := List.eq_nil_or_concat pre
  · exact .inl h.1
  · rw [List.concat_eq_append, List.append_assoc, List.singleton_append] at h hne
    obtain ⟨mid, -, -, hrest⟩ := Tiles.append.mp h
    unfold NoFreePair at hne
    rw [List.isChain_append, List.isChain_cons] at hne
    exact .inr ⟨c, by simp, hrest.1, hne.2.1.1 b (by simp)⟩

/-- **The gaps are the free blocks**, when no two free blocks are neighbours. -/
theorem gap_iff (h : Tiles hdr lo bs hi) (hne : NoFreePair bs) (hpos : 0 < hdr) {a e : ℕ} :
    Gap hdr lo hi (used bs) a e ↔ ∃ b ∈ bs, b.free = true ∧ a = b.addr ∧ e = b.stop hdr := by
  constructor
  · rintro ⟨hstart, hstop, hclear, hlt⟩
    have hend : e ≤ hi := by
      rcases hstop with rfl | ⟨c, hc, rfl⟩
      · exact le_refl _
      · have hbounds := h.bounds c (mem_used.mp hc).1
        unfold Seg.stop at hbounds
        omega
    -- a gap starts where a block starts, and this block is free
    obtain ⟨b, hb, hba⟩ : ∃ b ∈ bs, b.addr = a := by
      rcases hstart with rfl | ⟨c, hc, rfl⟩
      · exact h.first (hlt.trans_le hend)
      · rcases h.next hne (mem_used.mp hc).1 with heq | ⟨d, hd, hda, -⟩
        · omega
        · exact ⟨d, hd, hda⟩
    have hroom : b.addr < b.stop hdr := by
      unfold Seg.stop
      omega
    have hfree : b.free = true := by
      by_contra hused
      rcases hclear b (mem_used.mpr ⟨hb, by simpa using hused⟩) with hle | hle <;> omega
    refine ⟨b, hb, hfree, hba.symm, ?_⟩
    have hlow : b.stop hdr ≤ e := by
      rcases hstop with rfl | ⟨c, hc, rfl⟩
      · exact (h.bounds b hb).2
      · rcases h.apart hb (mem_used.mp hc).1 with rfl | hle | hle
        · exact absurd hlt (by omega)
        · exact hle
        · unfold Seg.stop at hle
          omega
    rcases h.next hne hb with heq | ⟨d, hd, hda, hpair⟩
    · omega
    · have hdused : d.free = false := by
        simpa [hfree] using hpair
      have hdroom : d.addr < d.stop hdr := by
        unfold Seg.stop
        omega
      rcases hclear d (mem_used.mpr ⟨hd, hdused⟩) with hle | hle <;> omega
  · rintro ⟨b, hb, hfree, rfl, rfl⟩
    refine ⟨?_, ?_, fun c hc => ?_, ?_⟩
    · rcases h.previous hne hb with heq | ⟨c, hc, heq, hpair⟩
      · exact .inl heq
      · exact .inr ⟨c, mem_used.mpr ⟨hc, by simpa [hfree] using hpair⟩, heq⟩
    · rcases h.next hne hb with heq | ⟨c, hc, heq, hpair⟩
      · exact .inl heq
      · exact .inr ⟨c, mem_used.mpr ⟨hc, by simpa [hfree] using hpair⟩, heq.symm⟩
    · obtain ⟨hmem, hused⟩ := mem_used.mp hc
      rcases h.apart hb hmem with rfl | hle | hle
      · exact absurd (hfree.symm.trans hused) (by simp)
      · exact .inr hle
      · exact .inl hle
    · unfold Seg.stop
      omega

theorem gap_congr {a e : ℕ} {us vs : List Seg} (h : ∀ b, b ∈ us ↔ b ∈ vs) :
    Gap hdr lo hi us a e ↔ Gap hdr lo hi vs a e := by
  constructor
  · rintro ⟨hstart, hstop, hclear, hlt⟩
    exact ⟨hstart.imp_right fun ⟨b, hb, heq⟩ => ⟨b, (h b).mp hb, heq⟩,
      hstop.imp_right fun ⟨b, hb, heq⟩ => ⟨b, (h b).mp hb, heq⟩,
      fun b hb => hclear b ((h b).mpr hb), hlt⟩
  · rintro ⟨hstart, hstop, hclear, hlt⟩
    exact ⟨hstart.imp_right fun ⟨b, hb, heq⟩ => ⟨b, (h b).mpr hb, heq⟩,
      hstop.imp_right fun ⟨b, hb, heq⟩ => ⟨b, (h b).mpr hb, heq⟩,
      fun b hb => hclear b ((h b).mp hb), hlt⟩

/-- **The list is determined by its blocks in use**: the free ones fill the gaps. -/
theorem eq_of_used {cs : List Seg} (hpos : 0 < hdr) (h : Tiles hdr lo bs hi)
    (hne : NoFreePair bs) (h' : Tiles hdr lo cs hi) (hne' : NoFreePair cs)
    (hused : ∀ b, b ∈ used bs ↔ b ∈ used cs) : bs = cs := by
  have hfree : ∀ {xs ys : List Seg}, Tiles hdr lo xs hi → NoFreePair xs → Tiles hdr lo ys hi →
      NoFreePair ys → (∀ b, b ∈ used xs ↔ b ∈ used ys) → ∀ b ∈ xs, b.free = true → b ∈ ys := by
    intro xs ys hx hnx hy hny hsame b hb hbfree
    have hgap := (gap_iff hx hnx hpos).mpr ⟨b, hb, hbfree, rfl, rfl⟩
    obtain ⟨c, hc, hcfree, haddr, hstop⟩ := (gap_iff hy hny hpos).mp ((gap_congr hsame).mp hgap)
    obtain rfl : b = c := by
      obtain ⟨baddr, bsize, bfree⟩ := b
      obtain ⟨caddr, csize, cfree⟩ := c
      simp only [Seg.stop] at *
      subst hbfree hcfree haddr
      congr 1
      omega
    exact hc
  have hmem : ∀ {xs ys : List Seg}, Tiles hdr lo xs hi → NoFreePair xs → Tiles hdr lo ys hi →
      NoFreePair ys → (∀ b, b ∈ used xs ↔ b ∈ used ys) → ∀ b ∈ xs, b ∈ ys := by
    intro xs ys hx hnx hy hny hsame b hb
    cases hbfree : b.free with
    | true => exact hfree hx hnx hy hny hsame b hb hbfree
    | false => exact (mem_used.mp ((hsame b).mp (mem_used.mpr ⟨hb, hbfree⟩))).1
  -- both lists are sorted by address and have the same blocks
  have hsorted : ∀ {xs : List Seg}, Tiles hdr lo xs hi →
      xs.Pairwise fun b c => b.addr < c.addr := by
    intro xs hx
    refine hx.pairwise.imp fun hbc => ?_
    unfold Seg.stop at hbc
    omega
  have hirrefl : Std.Irrefl fun b c : Seg => b.addr < c.addr := ⟨fun b => lt_irrefl b.addr⟩
  have hantisymm : Std.Antisymm fun b c : Seg => b.addr < c.addr :=
    ⟨fun b c hbc hcb => absurd hbc (lt_asymm hcb)⟩
  exact (hsorted h).eq_of_mem_iff (hsorted h') fun {b} =>
    ⟨hmem h hne h' hne' hused b, hmem h' hne' h hne (fun b => (hused b).symm) b⟩

end Gaps

end BlockList
