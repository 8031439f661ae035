import BareKernel.Memory.Linked
import BareKernel.Memory.NaiveCompleteness

/-!
# Heaps that keep their contract

What a client of the heap relies on, whichever manager is linked in and whatever it answers:
a block it gets is its own, a block it holds keeps its bytes, and nothing happens to the null
pointer. The sizes it may ask for are a parameter, because both managers keep the contract for
some sizes only.
-/

namespace BareKernel

open ByteMemory Runs

/-- A size that a request can be served with: the pool is smaller than `2 ^ 31` bytes. -/
def Servable (size : UInt32) : Prop := size ≠ 0 ∧ size.toNat < 2 ^ 31

instance (size : UInt32) : Decidable (Servable size) := by
  unfold Servable
  infer_instance

/-- Nothing that was asked for in `s` has changed in `t`. -/
def Keeps {σ : Type} (M : Manager σ) (s t : Session σ) : Prop :=
  ∀ a, s.requested a → M.mem t.heap a = M.mem s.heap a

/-- In the states `I` the heap keeps its contract for requests of the sizes `ok`. -/
structure Honest {σ : Type} (M : Manager σ) (ok : UInt32 → Prop) (I : Session σ → Prop) :
    Prop where
  mem_withMem : ∀ h m, M.mem (M.withMem h m) = m
  alloc : ∀ {s size}, I s → ok size → ∃ p t, s.alloc M size = some (p, t) ∧ I t ∧ Keeps M s t ∧
    (p ≠ NULL → Servable size)
  free : ∀ {s p}, I s → p ∈ s.live.map Prod.fst → ∃ t, s.free M p = some t ∧ I t ∧
    ∀ a, t.requested a → M.mem t.heap a = M.mem s.heap a
  freeNull : ∀ {s}, I s → s.free M NULL = some s
  write : ∀ {s m}, I s → (∀ a, ¬s.requested a → m a = M.mem s.heap a) →
    I { s with heap := M.withMem s.heap m }
  apart : ∀ {s}, I s → s.live.Pairwise fun q r => q.1 + q.2.toNat ≤ r.1 ∨ r.1 + r.2.toNat ≤ q.1
  sized : ∀ {s}, I s → ∀ q ∈ s.live, q.1 ≠ NULL ∧ q.2 ≠ 0 ∧ q.1 < 2 ^ 64

section Facts

variable {σ : Type} {M : Manager σ} {ok : UInt32 → Prop} {I : Session σ → Prop} {s t u : Session σ}
  {p : ℕ} {size : UInt32}

theorem Session.requested_of_mem {q : ℕ × UInt32} {a : ℕ} (hq : q ∈ s.live) (hlow : q.1 ≤ a)
    (hhigh : a < q.1 + q.2.toNat) : s.requested a := ⟨q, hq, hlow, hhigh⟩

theorem Session.requested_mono (hlive : ∀ q ∈ s.live, q ∈ t.live) {a : ℕ} (h : s.requested a) :
    t.requested a := by
  obtain ⟨q, hq, hlow, hhigh⟩ := h
  exact ⟨q, hlive q hq, hlow, hhigh⟩

theorem toNat_pos {size : UInt32} (h : size ≠ 0) : 0 < size.toNat := by
  rw [Nat.pos_iff_ne_zero]
  intro hzero
  exact h (UInt32.toNat_inj.mp hzero)

/-- No address is handed out twice. -/
theorem Honest.nodup (hM : Honest M ok I) (hI : I s) : (s.live.map Prod.fst).Nodup := by
  rw [List.Nodup, List.pairwise_map]
  refine List.Pairwise.imp_of_mem (fun {q r} hq hr hqr heq => ?_) (hM.apart hI)
  have hq' := toNat_pos (hM.sized hI q hq).2.1
  have hr' := toNat_pos (hM.sized hI r hr).2.1
  omega

theorem Honest.clear (hM : Honest M ok I) (hI : I s) {q r : ℕ × UInt32} (hq : q ∈ s.live)
    (hr : r ∈ s.live) (hne : q ≠ r) : q.1 + q.2.toNat ≤ r.1 ∨ r.1 + r.2.toNat ≤ q.1 := by
  have hsymm : Std.Symm fun q r : ℕ × UInt32 => q.1 + q.2.toNat ≤ r.1 ∨ r.1 + r.2.toNat ≤ q.1 :=
    ⟨fun _ _ h => h.symm⟩
  exact (hM.apart hI).forall hq hr hne

end Facts

/-! ## A heap with a script -/

/-- A heap that answers from a script: an address, and how many bytes there are at most. It keeps
one byte of its own, and when that byte is gone a block that is given back is the end of it. -/
structure ScriptedHeap where
  mem : Mem
  script : ℕ → ℕ × ℕ
  guard : ℕ

def ScriptedHeap.Intact (h : ScriptedHeap) : Prop := h.mem h.guard = 255

instance (h : ScriptedHeap) : Decidable h.Intact := by
  unfold ScriptedHeap.Intact
  infer_instance

def ScriptedHeap.manager : Manager ScriptedHeap where
  mem := mem
  withMem h m := { h with mem := m }
  allocMemory h size :=
    some (if Servable size ∧ size.toNat ≤ (h.script 0).2 then (h.script 0).1 else NULL,
      { h with script := fun n => h.script (n + 1) })
  freeMemory h _ := if h.Intact then some h else none

/-- The places of the script are apart from each other, from the blocks that are held and from the
byte of the heap. -/
structure Scripted (s : Session ScriptedHeap) : Prop where
  apart : s.live.Pairwise fun q r => q.1 + q.2.toNat ≤ r.1 ∨ r.1 + r.2.toNat ≤ q.1
  sized : ∀ q ∈ s.live, q.1 ≠ NULL ∧ q.2 ≠ 0 ∧ q.1 < 2 ^ 64
  bound : ∀ n, (s.heap.script n).1 < 2 ^ 64
  clear : ∀ n, ∀ q ∈ s.live, (s.heap.script n).1 ≠ NULL →
    (s.heap.script n).1 + (s.heap.script n).2 ≤ q.1 ∨ q.1 + q.2.toNat ≤ (s.heap.script n).1
  places : ∀ m n, m < n → (s.heap.script m).1 ≠ NULL → (s.heap.script n).1 ≠ NULL →
    (s.heap.script m).1 + (s.heap.script m).2 ≤ (s.heap.script n).1 ∨
      (s.heap.script n).1 + (s.heap.script n).2 ≤ (s.heap.script m).1
  intact : s.heap.Intact
  alone : ¬s.requested s.heap.guard
  spared : ∀ n, (s.heap.script n).1 ≠ NULL → s.heap.guard < (s.heap.script n).1 ∨
    (s.heap.script n).1 + (s.heap.script n).2 ≤ s.heap.guard

theorem scripted_honest : Honest ScriptedHeap.manager (fun _ => True) Scripted where
  mem_withMem _ _ := rfl
  alloc := by
    intro s size hs _
    refine ⟨_, _, rfl, ?_, fun _ _ => rfl, fun hp => ?_⟩
    · by_cases hgrant : Servable size ∧ size.toNat ≤ (s.heap.script 0).2
      · rw [if_pos hgrant]
        by_cases hnull : (s.heap.script 0).1 = NULL
        · rw [if_pos hnull]
          exact ⟨hs.apart, hs.sized, fun n => hs.bound (n + 1), fun n => hs.clear (n + 1),
            fun m n hmn => hs.places (m + 1) (n + 1) (Nat.succ_lt_succ hmn), hs.intact, hs.alone,
            fun n => hs.spared (n + 1)⟩
        · rw [if_neg hnull]
          refine ⟨?_, ?_, fun n => hs.bound (n + 1), fun n q hq hn => ?_,
            fun m n hmn => hs.places (m + 1) (n + 1) (Nat.succ_lt_succ hmn), hs.intact, ?_,
            fun n => hs.spared (n + 1)⟩
          · rw [List.pairwise_cons]
            refine ⟨fun q hq => ?_, hs.apart⟩
            have hclear := hs.clear 0 q hq hnull
            dsimp only
            omega
          · intro q hq
            rcases List.mem_cons.mp hq with rfl | hq
            · exact ⟨hnull, hgrant.1.1, hs.bound 0⟩
            · exact hs.sized q hq
          · rcases List.mem_cons.mp hq with rfl | hq
            · have hplaces := hs.places 0 (n + 1) (Nat.succ_pos n) hnull hn
              dsimp only at hn ⊢
              omega
            · exact hs.clear (n + 1) q hq hn
          · rintro ⟨q, hq, hlow, hhigh⟩
            rcases List.mem_cons.mp hq with rfl | hq
            · have hspared := hs.spared 0 hnull
              dsimp only at hlow hhigh
              omega
            · exact hs.alone ⟨q, hq, hlow, hhigh⟩
      · rw [if_neg hgrant, if_pos rfl]
        exact ⟨hs.apart, hs.sized, fun n => hs.bound (n + 1), fun n => hs.clear (n + 1),
          fun m n hmn => hs.places (m + 1) (n + 1) (Nat.succ_lt_succ hmn), hs.intact, hs.alone,
          fun n => hs.spared (n + 1)⟩
    · by_contra hno
      apply hp
      rw [if_neg fun hgrant => hno hgrant.1]
  free := by
    intro s p hs _
    refine ⟨⟨s.heap, s.live.filter fun q => q.1 ≠ p⟩, ?_, ⟨hs.apart.filter _,
      fun q hq => hs.sized q (List.mem_filter.mp hq).1, hs.bound,
      fun n q hq => hs.clear n q (List.mem_filter.mp hq).1, hs.places, hs.intact, ?_, hs.spared⟩,
      fun _ _ => rfl⟩
    · change (if s.heap.Intact then some s.heap else none).map _ = _
      rw [if_pos hs.intact]
      rfl
    · rintro ⟨q, hq, hbytes⟩
      exact hs.alone ⟨q, (List.mem_filter.mp hq).1, hbytes⟩
  freeNull := by
    intro s hs
    have hall : s.live.filter (fun q => q.1 ≠ NULL) = s.live := by
      rw [List.filter_eq_self]
      exact fun q hq => decide_eq_true (hs.sized q hq).1
    change (if s.heap.Intact then some s.heap else none).map
      (fun h => (⟨h, s.live.filter fun q => q.1 ≠ NULL⟩ : Session ScriptedHeap)) = some s
    rw [hall, if_pos hs.intact]
    rfl
  write hs hm :=
    ⟨hs.apart, hs.sized, hs.bound, hs.clear, hs.places, (hm _ hs.alone).trans hs.intact,
    hs.alone, hs.spared⟩
  apart hs := hs.apart
  sized hs := hs.sized

/-! ## The two managers -/

/-- The sizes that the manager serves or refuses, whatever else the clients hold. -/
def Linked.Accepts : Linked → UInt32 → Prop
  | naive, size => size.toNat ≤ 2 ^ 32 - 8
  | buddy, size => size = 0 ∨ 9 ≤ size.toNat ∧ size.toNat ≤ 2 ^ 31 - 8

/-- No block of size 0 is handed out by a manager that refuses this size. -/
theorem Session.sized_of_reaches {σ : Type} {M : Manager σ} {ok : Session σ → Request → Prop}
    {s₀ s : Session σ} (hrefused : ∀ h p h', M.allocMemory h 0 = some (p, h') → p = NULL)
    (hstart : s₀.live = []) (hrun : Reaches (Session.Step M Session.requested) ok s₀ s) :
    ∀ q ∈ s.live, q.2 ≠ 0 := by
  refine hrun.invariant (I := fun s => ∀ q ∈ s.live, q.2 ≠ 0) (by simp [hstart]) ?_
  rintro s r t hs - hstep q hq
  cases hstep with
  | allocNull | freeNull | write => exact hs q hq
  | alloc halloc hp =>
      rcases List.mem_cons.mp hq with rfl | hq
      · rintro rfl
        exact hp (hrefused _ _ _ halloc)
      · exact hs q hq
  | free => exact hs q (List.mem_of_mem_filter hq)

/-- A pool that starts above the null pointer and ends below `2 ^ 64`. -/
theorem Session.Sound.addresses {σ : Type} {s : Session σ} {metadata : ℕ → Prop}
    (h : s.Sound memoryStart memorySize.toNat metadata) :
    ∀ q ∈ s.live, q.1 ≠ NULL ∧ q.1 < 2 ^ 64 := by
  intro q hq
  obtain ⟨hlow, hhigh⟩ := h.inside q hq
  have hstart : memoryStart = 15728640 := rfl
  have hbytes : memorySize.toNat = 4194304 := by decide
  exact ⟨by simp only [NULL]; omega, by omega⟩

/-- A call for the null pointer changes nothing. -/
theorem Session.free_null {σ : Type} {M : Manager σ} {s : Session σ}
    (hfree : M.freeMemory s.heap NULL = some s.heap) (hlive : ∀ q ∈ s.live, q.1 ≠ NULL) :
    s.free M NULL = some s := by
  have hfilter : (s.live.filter fun q => q.1 ≠ NULL) = s.live :=
    List.filter_eq_self.mpr fun q hq => decide_eq_true (hlive q hq)
  rw [Session.free, hfree, Option.map_some, hfilter]

theorem naive_honest :
    Honest NaiveManager.manager Linked.naive.Accepts (Linked.Reachable .naive) where
  mem_withMem _ _ := rfl
  alloc := by
    rintro s size ⟨h, hrun⟩ hok
    obtain ⟨bs, hr, -, hfits⟩ := naive_covered hrun
    obtain ⟨⟨p, h'⟩, halloc⟩ :=
      Option.isSome_iff_exists.mp (NaiveManager.allocMemory_isSome hr size)
    have hcall := Session.alloc_eq NaiveManager.manager s size halloc
    refine ⟨p, _, hcall, ⟨h, Session.alloc_reaches hrun (.inl hok) hcall⟩, ?_, fun hp => ?_⟩
    · rintro a ⟨q, hq, hlow, hhigh⟩
      obtain ⟨b, hb, hused, hqb, hsize⟩ := hfits q hq
      have hstop : b.stop 24 = b.addr + 24 + b.size := rfl
      refine NaiveManager.allocMemory_outside (x := a) (n := 1) hr halloc (fun c hc => ?_)
        (fun c hc hfree => ?_) a (le_refl a) (Nat.lt_succ_self a)
      · have hapart := hr.data_apart hb hc (a := a) (by omega) (by omega)
        unfold NaiveManager.Outside
        omega
      · rcases hr.tiles.apart hb hc with rfl | hleft | hright
        · exact absurd (hfree.symm.trans hused) (by simp)
        · exact .inl (by omega)
        · exact .inr (by omega)
    · rcases NaiveManager.allocMemory_cases hr halloc with
        ⟨rfl, -⟩ | ⟨pre, b, post, rfl, -, hreq, rfl, -⟩
      · exact absurd rfl hp
      · have hbounds := hr.bounds b (by simp)
        have hpool := NaiveManager.kernelPool.lt_int
        have hle := le_align hok
        unfold NaiveManager.Pool.stop at hbounds
        refine ⟨?_, by omega⟩
        rintro rfl
        rw [NaiveManager.allocMemory, if_pos rfl] at halloc
        exact hp (Prod.mk.inj (Option.some.inj halloc)).1.symm
  free := by
    rintro s p ⟨h, hrun⟩ hp
    obtain ⟨bs, hr, htr, hfits⟩ := naive_covered hrun
    refine ⟨_, rfl, ⟨h, Session.free_reaches hrun trivial hp rfl⟩, ?_⟩
    rintro a ⟨q, hq, hlow, hhigh⟩
    obtain ⟨b, hb, -, rfl⟩ := htr.mem hp
    obtain ⟨c, hc, -, hqc, hsize⟩ := hfits q (List.mem_of_mem_filter hq)
    refine NaiveManager.freeMemory_outside (x := a) (n := 1) hr hb (fun d hd => ?_) a (le_refl a)
      (Nat.lt_succ_self a)
    have hapart := hr.data_apart hc hd (a := a) (by omega) (by omega)
    unfold NaiveManager.Outside
    omega
  freeNull := by
    rintro s ⟨h, hrun⟩
    exact Session.free_null rfl fun q hq => ((naive_covered hrun).sound.addresses q hq).1
  write := by
    rintro s m ⟨h, hrun⟩ hm
    exact ⟨h, hrun.tail (e := .write m) trivial (.write hm)⟩
  apart := by
    rintro s ⟨h, hrun⟩
    exact (naive_covered hrun).sound.disjoint
  sized := by
    rintro s ⟨h, hrun⟩ q hq
    obtain ⟨hnull, hlt⟩ := (naive_covered hrun).sound.addresses q hq
    refine ⟨hnull, Session.sized_of_reaches (fun h p h' halloc => ?_) rfl hrun q hq, hlt⟩
    exact (Prod.mk.inj (Option.some.inj halloc)).1.symm

theorem buddy_honest : Honest (BuddyManager.manager BuddyManager.nodeStateLength)
    Linked.buddy.Accepts (Linked.Reachable .buddy) where
  mem_withMem _ _ := rfl
  alloc := by
    rintro s size ⟨h, h₀, hzero, hboot, hrun⟩ hok
    obtain ⟨t, hr, -, hfive, -⟩ := buddy_covered hzero hboot hrun
    have hle : size.toNat ≤ 2 ^ 31 - 8 := by
      rcases hok with rfl | ⟨-, hle⟩
      · exact Nat.zero_le _
      · exact hle
    have hnoWrap : BuddyManager.noWrap s (.alloc size) := by
      rcases hok with hsize | ⟨hnine, hle⟩
      · exact .inl hsize
      · exact .inr (.inl ⟨hnine, by omega⟩)
    obtain ⟨⟨p, h'⟩, halloc⟩ := Option.isSome_iff_exists.mp
      (BuddyManager.allocMemory_isSome hr (hr.admits hfive hnoWrap) hle)
    obtain ⟨u, hcall, hheap⟩ : ∃ u,
        s.alloc (BuddyManager.manager BuddyManager.nodeStateLength) size = some (p, u) ∧
          u.heap = h' := ⟨_, Session.alloc_eq _ s size halloc, rfl⟩
    have hreaches := Session.alloc_reaches hrun hnoWrap hcall
    refine ⟨p, u, hcall, ⟨h, h₀, hzero, hboot, hreaches⟩, fun a ha => ?_, fun hp => ?_⟩
    · change u.heap.mem a = s.heap.mem a
      rw [hheap]
      by_cases hp : p = NULL
      · rcases BuddyManager.allocMemory_cases hr (hr.admits hfive hnoWrap) halloc with
          ⟨-, rfl⟩ | ⟨_, o, _, _, _, _, rfl, _⟩
        · rfl
        · exact absurd hp (Nat.succ_ne_zero _)
      · -- the order is written in front of the new block, where nobody asked for bytes
        have hlive := Session.alloc_live hcall
        rw [if_neg hp] at hlive
        have hrequested : u.requested a :=
          Session.requested_mono (fun q hq => hlive ▸ List.mem_cons_of_mem _ hq) ha
        have hclear := (buddy_covered hzero hboot hreaches).sound.noMetadata a hrequested
        rcases BuddyManager.allocMemory_mem halloc with hmem | ⟨order, hpos, hmem⟩
        · exact congrFun hmem a
        · rw [hmem]
          refine store_outside _ ?_
          by_contra hin
          simp only [BuddyManager.orderField, BuddyManager.hdrSize_toNat] at hin hpos
          refine hclear ⟨(p, size), hlive ▸ List.mem_cons_self, ?_, ?_⟩
          · rw [BuddyManager.hdrSize_toNat]
            omega
          · show a < p
            omega
    · refine ⟨?_, by omega⟩
      rintro rfl
      have hnull : BuddyManager.allocMemory BuddyManager.nodeStateLength s.heap 0 =
          some (NULL, s.heap) := if_pos (.inr rfl)
      exact hp (Prod.mk.inj (Option.some.inj (halloc.symm.trans hnull))).1
  free := by
    rintro s p ⟨h, h₀, hzero, hboot, hrun⟩ hp
    obtain ⟨t, hr, htr, hfive, -⟩ := buddy_covered hzero hboot hrun
    obtain ⟨b, hb, rfl⟩ := htr.mem hp
    obtain ⟨h₁, hfree, -⟩ := BuddyManager.freeMemory_rep hr hb
      (BuddyManager.inArray_five hr.maxOrder_le (hfive b hb))
    have hcall : s.free (BuddyManager.manager BuddyManager.nodeStateLength)
        (memoryStart + b.1 + 8) = some _ := Option.map_eq_some_iff.mpr ⟨h₁, hfree, rfl⟩
    exact ⟨_, hcall, ⟨h, h₀, hzero, hboot, Session.free_reaches hrun trivial hp hcall⟩,
      fun a _ => congrFun (BuddyManager.freeMemory_mem hfree) a⟩
  freeNull := by
    rintro s ⟨h, h₀, hzero, hboot, hrun⟩
    have hfree : BuddyManager.freeMemory BuddyManager.nodeStateLength s.heap NULL = some s.heap :=
      if_pos (.inl rfl)
    exact Session.free_null hfree fun q hq =>
      ((buddy_covered hzero hboot hrun).sound.addresses q hq).1
  write := by
    rintro s m ⟨h, h₀, hzero, hboot, hrun⟩ hm
    exact ⟨h, h₀, hzero, hboot, hrun.tail (e := .write m) trivial (.write hm)⟩
  apart := by
    rintro s ⟨h, h₀, hzero, hboot, hrun⟩
    exact (buddy_covered hzero hboot hrun).sound.disjoint
  sized := by
    rintro s ⟨h, h₀, hzero, hboot, hrun⟩ q hq
    obtain ⟨hnull, hlt⟩ := (buddy_covered hzero hboot hrun).sound.addresses q hq
    refine ⟨hnull, Session.sized_of_reaches (fun h p h' halloc => ?_) rfl hrun q hq, hlt⟩
    have hrefused : BuddyManager.allocMemory BuddyManager.nodeStateLength h 0 = some (NULL, h) :=
      if_pos (.inr rfl)
    exact (Prod.mk.inj (Option.some.inj (halloc.symm.trans hrefused))).1

/-- **Both managers keep the contract**, in every state that the clients of the kernel's pool
can reach. -/
theorem Linked.honest (l : Linked) : Honest l.manager l.Accepts l.Reachable := by
  cases l with
  | naive => exact naive_honest
  | buddy => exact buddy_honest

end BareKernel
