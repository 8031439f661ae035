import BareKernel.Memory.BuddyOrders

/-!
# The buddy manager finds every free place

With enough marks for every order, a request is refused only when each place of its
order meets a live block, and then nothing is changed. Otherwise the lowest place is
given.
-/

namespace BareKernel.BuddyManager

open ByteMemory BuddyTree ImplicitTree Runs
open NodeState

/-- A place of order `k` in the pool, aligned to its size. -/
def Place (s : Session Heap) (k a : ℕ) : Prop := 2 ^ k ∣ a ∧ a + 2 ^ k ≤ s.heap.poolSize.toNat

/-- Some live block has a byte in the place. -/
def Taken (s : Session Heap) (k a : ℕ) : Prop :=
  ∃ q ∈ s.live, (blockOf s.heap q.1).1 < a + 2 ^ k ∧
    a < (blockOf s.heap q.1).1 + 2 ^ (blockOf s.heap q.1).2

/-- **What a request of order `k` does**, as the live blocks tell it. -/
structure Complete (len : ℕ) (s : Session Heap) (size : UInt32) (k : ℕ) : Prop where
  returns : (allocMemory len s.heap size).isSome
  null_iff : (∃ h', allocMemory len s.heap size = some (NULL, h')) ↔ ∀ a, Place s k a → Taken s k a
  unchanged : ∀ h', allocMemory len s.heap size = some (NULL, h') →
    h'.nodeState = s.heap.nodeState ∧ h'.usedBytes = s.heap.usedBytes ∧
      h'.freeBytes = s.heap.freeBytes
  lowest : ∀ p h', allocMemory len s.heap size = some (p, h') → p ≠ NULL →
    ∃ a, p = s.heap.poolBase + a + hdrSize.toNat ∧ (Place s k a ∧ ¬Taken s k a) ∧
      ∀ a', Place s k a' → ¬Taken s k a' → a ≤ a'

variable {len base M k a : ℕ} {h₀ : Heap} {s : Session Heap} {t : Buddy}

/-- The vacant places of the tree are the places that no live block meets. -/
theorem Rep.vacant_iff (hr : Rep s.heap base M t) (htr : Tracks base M s.live t) :
    Vacant k M 0 t a ↔ Place s k a ∧ ¬Taken s k a := by
  constructor
  · intro hvacant
    refine ⟨⟨hvacant.aligned, hr.poolSize ▸ hvacant.inside⟩, ?_⟩
    rintro ⟨q, hq, hlow, hhigh⟩
    obtain ⟨b, hb, hqb⟩ := htr.mem (List.mem_map_of_mem hq)
    rw [hqb, hr.blockOf_eq hb] at hlow hhigh
    have hapart := hvacant.apart b hb
    simp only [Apart] at hapart
    omega
  · rintro ⟨⟨haligned, hinside⟩, hfree⟩
    refine ⟨haligned, hr.poolSize ▸ hinside, fun b hb => ?_⟩
    obtain ⟨q, hq, hqb⟩ := htr.mem_live hb
    by_contra hmeets
    apply hfree
    refine ⟨q, hq, ?_⟩
    rw [hqb, hr.blockOf_eq hb]
    simp only [Apart] at hmeets
    omega

/-- **The buddy manager is complete** on every heap that was ever reached, for every
request that is not of nothing and whose order is not above that of the pool. -/
theorem alloc_complete (h₀ : Heap) (base : ℕ) (bytes : UInt32) (len : ℕ) (s : Session Heap)
    (hboot : Booted h₀ base bytes) (hlen : LongEnough len h₀.maxOrder)
    (hrun : Reaches (Session.Step (manager len) headersIntact) always ⟨h₀, []⟩ s)
    (size : UInt32) (k : ℕ) (hsize : size ≠ 0) (hk : sizeToOrder size = some k)
    (hkM : k ≤ s.heap.maxOrder) : Complete len s size k := by
  obtain ⟨t, hr, htr⟩ := hboot.inv hlen hrun
  rw [hr.maxOrder] at hkM
  have hspec := allocMemory_rep hr hsize hk (hlen.admits t size hsize k hk)
  have hplaces := alloc_vacant 0 hr.wf hkM
  cases htree : BuddyTree.alloc k h₀.maxOrder t with
  | none =>
      rw [htree] at hspec hplaces
      have hsame : ∀ {p h'}, allocMemory len s.heap size = some (p, h') → p = NULL ∧ h' =
        s.heap := by
        intro p h' halloc
        rw [hspec, Option.some.injEq, Prod.mk.injEq] at halloc
        exact ⟨halloc.1.symm, halloc.2.symm⟩
      refine ⟨by rw [hspec]; rfl, ⟨fun _ a ha => ?_, fun _ => ⟨_, hspec⟩⟩, fun h' halloc => ?_,
        fun p h' halloc hp => absurd (hsame halloc).1 hp⟩
      · by_contra hfree
        exact hplaces a ((hr.vacant_iff htr).mpr ⟨ha, hfree⟩)
      · rw [(hsame halloc).2]
        exact ⟨rfl, rfl, rfl⟩
  | some place =>
      obtain ⟨o, t'⟩ := place
      rw [htree] at hspec hplaces
      obtain ⟨h₁, hgot, -⟩ := hspec
      obtain ⟨hvacant, hleast⟩ := hplaces
      have hroom := (hr.vacant_iff htr).mp hvacant
      have hnot : ∀ h', allocMemory len s.heap size ≠ some (NULL, h') := by
        intro h' halloc
        rw [hgot, Option.some.injEq, Prod.mk.injEq] at halloc
        exact absurd halloc.1 (by simp)
      refine ⟨by rw [hgot]; rfl, ⟨fun ⟨h', halloc⟩ => absurd halloc (hnot h'), fun hall => ?_⟩,
        fun h' halloc => absurd halloc (hnot h'), fun p h' halloc _ => ?_⟩
      · exact absurd (hall o hroom.1) hroom.2
      · rw [hgot, Option.some.injEq, Prod.mk.injEq] at halloc
        refine ⟨o, ?_, hroom, fun a' ha' hfree => hleast a' ((hr.vacant_iff htr).mpr ⟨ha', hfree⟩)⟩
        rw [hr.poolBase, hdrSize_toNat]
        exact halloc.1.symm

/-- A request passes the first gap by, and one that needs the whole pool is refused. -/
theorem alloc_complete_fragmented : ∃ s : Session Heap, s.live = [(memoryStart + 136, 100)] ∧
    (∃ h', allocMemory (2 ^ 19 - 1) s.heap 200 = some (memoryStart + 264, h')) ∧
      Complete (2 ^ 19 - 1) s 200 8 ∧
        allocMemory (2 ^ 19 - 1) s.heap 4000000 = some (NULL, s.heap) ∧
          Complete (2 ^ 19 - 1) s 4000000 22 := by
  obtain ⟨h₀, hcreate, hr⟩ := zeroHeap_rep
  have hlong : LongEnough (2 ^ 19 - 1) 22 := le_refl _
  have hbooted : Booted h₀ memoryStart memorySize :=
    ⟨by decide, by decide, zeroHeap, fun _ => rfl, hcreate⟩
  obtain ⟨s, hrun, hlive, hr'⟩ := fragmented (hlong.order (by decide)) headersIntact always
    (fun _ _ _ => trivial) hr
  have hpassed := allocMemory_rep (k := 8) hr' (show (200 : UInt32) ≠ 0 by decide) (by decide)
    (.inl (hlong.order (by decide)))
  rw [show alloc 8 22 (above (.split .free .full)) = some (256,
    (fun t => .split t .free)^[13] (.split (.split .free .full) .full)) by decide] at hpassed
  have hrefused := allocMemory_rep (k := 22) hr' (show (4000000 : UInt32) ≠ 0 by decide)
    (by decide) (.inl (hlong.order (by decide)))
  rw [show alloc 22 22 (above (.split .free .full)) = none by decide] at hrefused
  obtain ⟨h', hplace, -⟩ := hpassed
  have hcomplete := alloc_complete h₀ memoryStart memorySize (2 ^ 19 - 1) s hbooted
    (hr.maxOrder.symm ▸ hlong) hrun
  exact ⟨s, hlive, ⟨h', hplace⟩,
    hcomplete 200 8 (by decide) (by decide) (by rw [hr'.maxOrder]; decide), hrefused,
    hcomplete 4000000 22 (by decide) (by decide) (by rw [hr'.maxOrder])⟩

/-- **Nothing is not given**: `size_to_order(0)` is 5, every place of this order is
free at boot, and `allocMemory(0)` is `NULL`. -/
theorem alloc_nothing : ∃ h₀, createMemoryManager zeroHeap memoryStart memorySize = some h₀ ∧
    (sizeToOrder 0 = some 5 ∧ 5 ≤ h₀.maxOrder) ∧
      (∃ h', allocMemory (2 ^ 19 - 1) h₀ 0 = some (NULL, h')) ∧
        ¬∀ a, Place ⟨h₀, []⟩ 5 a → Taken ⟨h₀, []⟩ 5 a := by
  obtain ⟨h₀, hcreate, hr⟩ := zeroHeap_rep
  refine ⟨h₀, hcreate, ⟨by decide, hr.maxOrder ▸ by decide⟩, ⟨h₀, ?_⟩, fun hall => ?_⟩
  · rw [allocMemory, if_pos (.inr rfl)]
  · obtain ⟨q, hq, -⟩ := hall 0 ⟨dvd_zero _, by rw [hr.poolSize]; decide⟩
    exact absurd hq (by simp)

end BareKernel.BuddyManager
