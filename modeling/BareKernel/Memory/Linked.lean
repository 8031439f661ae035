import BareKernel.Memory.ClientContract

/-!
# Either manager

The kernel is linked with one of the two managers. Its queues allocate blocks of
sixteen bytes one at a time; what they need of the heap is stated once and holds of
both managers in every run whose requests do not wrap.
-/

namespace BareKernel

open ByteMemory Runs

/-- Which of the two managers is linked in. -/
inductive Linked : Type where
  | naive
  | buddy
deriving DecidableEq, Repr

def Linked.Heap : Linked → Type
  | naive => NaiveManager.Heap
  | buddy => BuddyManager.Heap

def Linked.manager : (l : Linked) → Manager l.Heap
  | naive => NaiveManager.manager
  | buddy => BuddyManager.manager BuddyManager.nodeStateLength

/-- What the clients of the kernel's pool have reached with requests that do not wrap. -/
def Linked.Reachable : (l : Linked) → Session l.Heap → Prop
  | naive, s => ∃ h, NaiveRun NaiveManager.noWrap (naiveStart h) s
  | buddy, s => ∃ h h₀, (∀ n, h.nodeState n = .FREE) ∧
      BuddyManager.createMemoryManager h memoryStart memorySize = some h₀ ∧
      BuddyRun BuddyManager.noWrap ⟨h₀, []⟩ s

/-! ## Calls of one client -/

namespace Session

variable {σ : Type} (M : Manager σ)

def alloc (s : Session σ) (size : UInt32) : Option (ℕ × Session σ) :=
  (M.allocMemory s.heap size).map fun (p, h) =>
    (p, ⟨h, if p = NULL then s.live else (p, size) :: s.live⟩)

def free (s : Session σ) (p : ℕ) : Option (Session σ) :=
  (M.freeMemory s.heap p).map fun h => ⟨h, s.live.filter fun q => q.1 ≠ p⟩

/-- A field of the record at `a` gets a value. -/
def set (s : Session σ) (f : Field) (a v : ℕ) : Session σ :=
  { s with heap := M.withMem s.heap (f.set (M.mem s.heap) a v) }

theorem free_live {M : Manager σ} {s t : Session σ} {p : ℕ} (h : s.free M p = some t) :
    t.live = s.live.filter fun q => q.1 ≠ p := by
  obtain ⟨h₁, -, rfl⟩ := Option.map_eq_some_iff.mp h
  rfl

theorem alloc_live {M : Manager σ} {s t : Session σ} {p : ℕ} {size : UInt32}
    (h : s.alloc M size = some (p, t)) :
    t.live = if p = NULL then s.live else (p, size) :: s.live := by
  obtain ⟨⟨r, h₁⟩, -, heq⟩ := Option.map_eq_some_iff.mp h
  obtain ⟨rfl, rfl⟩ := Prod.mk.inj heq
  rfl

end Session

/-! ## What the queues need -/

/-- A heap in the states `I` serves blocks of the size of a node: no call fails to
return, blocks that are held do not overlap, the fields of a held block can be
written, and a block that was released can be had again at once. -/
structure Serves {σ : Type} (M : Manager σ) (I : Session σ → Prop) : Prop where
  alloc : ∀ {s}, I s → ∃ p t, s.alloc M nodeSize = some (p, t) ∧ I t
  free : ∀ {s p}, I s → (p, nodeSize) ∈ s.live → ∃ t, s.free M p = some t ∧ I t
  again : ∀ {s p t}, I s → (p, nodeSize) ∈ s.live → s.free M p = some t →
    ∃ q u, t.alloc M nodeSize = some (q, u) ∧ q ≠ NULL ∧ I u
  set : ∀ {s p f v}, I s → (p, nodeSize) ∈ s.live → f.off + f.width ≤ nodeSize.toNat →
    I (s.set M f p v)
  apart : ∀ {s}, I s → s.live.Pairwise fun q r => q.1 + q.2.toNat ≤ r.1 ∨ r.1 + r.2.toNat ≤ q.1

section Runs

variable {σ : Type} {M : Manager σ} {ok : Session σ → Request → Prop} {s₀ s : Session σ}

theorem Session.alloc_eq (M : Manager σ) (s : Session σ) (size : UInt32) {p : ℕ} {h : σ}
    (halloc : M.allocMemory s.heap size = some (p, h)) :
    s.alloc M size = some (p, ⟨h, if p = NULL then s.live else (p, size) :: s.live⟩) :=
  Option.map_eq_some_iff.mpr ⟨(p, h), halloc, rfl⟩

/-- A call of `allocMemory` is a step of the clients. -/
theorem Session.alloc_reaches {size : UInt32} {p : ℕ} {t : Session σ}
    (hrun : Reaches (Session.Step M Session.requested) ok s₀ s) (hok : ok s (.alloc size))
    (hcall : s.alloc M size = some (p, t)) :
    Reaches (Session.Step M Session.requested) ok s₀ t := by
  obtain ⟨⟨q, h⟩, halloc, heq⟩ := Option.map_eq_some_iff.mp hcall
  obtain ⟨rfl, rfl⟩ := Prod.mk.inj heq
  by_cases hq : q = NULL
  · subst hq
    rw [if_pos rfl]
    exact hrun.tail hok (.allocNull halloc)
  · rw [if_neg hq]
    exact hrun.tail hok (.alloc halloc hq)

/-- So is a call of `freeMemory` for a block that is held. -/
theorem Session.free_reaches {p : ℕ} {t : Session σ}
    (hrun : Reaches (Session.Step M Session.requested) ok s₀ s) (hok : ok s (.free p))
    (hp : p ∈ s.live.map Prod.fst) (hcall : s.free M p = some t) :
    Reaches (Session.Step M Session.requested) ok s₀ t := by
  obtain ⟨h, hfree, rfl⟩ := Option.map_eq_some_iff.mp hcall
  exact hrun.tail hok (.free hp hfree)

/-- And a write to a field inside what was asked for. -/
theorem Session.set_reaches {p v : ℕ} {size : UInt32} {f : Field}
    (hrun : Reaches (Session.Step M Session.requested) ok s₀ s) (hok : ∀ m, ok s (.write m))
    (hp : (p, size) ∈ s.live) (hf : f.off + f.width ≤ size.toNat) :
    Reaches (Session.Step M Session.requested) ok s₀ (s.set M f p v) := by
  refine hrun.tail (hok _) (.write fun a ha => ?_)
  apply store_outside
  by_contra hin
  exact ha ⟨(p, size), hp, by simp only; omega, by simp only; omega⟩

end Runs

theorem naive_serves : Serves NaiveManager.manager (Linked.Reachable .naive) where
  alloc := by
    rintro s ⟨h, hrun⟩
    obtain ⟨bs, hr, -⟩ := naive_covered hrun
    obtain ⟨⟨p, h'⟩, halloc⟩ :=
      Option.isSome_iff_exists.mp (NaiveManager.allocMemory_isSome hr nodeSize)
    have hcall := Session.alloc_eq NaiveManager.manager s nodeSize halloc
    exact ⟨p, _, hcall, h, Session.alloc_reaches hrun (Or.inl (by decide)) hcall⟩
  free := by
    rintro s p ⟨h, hrun⟩ hp
    exact ⟨_, rfl, h, Session.free_reaches hrun trivial (List.mem_map_of_mem hp) rfl⟩
  again := by
    rintro s p t ⟨h, hrun⟩ hp hcall
    obtain ⟨q, h', halloc, hq⟩ := (node_again h BuddyManager.zeroHeap).1 s p hrun hp
    have hfree := Session.free_reaches hrun trivial (List.mem_map_of_mem hp) hcall
    obtain ⟨h₁, hfreed, rfl⟩ := Option.map_eq_some_iff.mp hcall
    obtain rfl : NaiveManager.freeMemory s.heap p = h₁ := Option.some.inj hfreed
    have hagain := Session.alloc_eq NaiveManager.manager
      ⟨NaiveManager.freeMemory s.heap p, s.live.filter fun q => q.1 ≠ p⟩ nodeSize halloc
    exact ⟨q, _, hagain, hq, h, Session.alloc_reaches hfree (Or.inl (by decide)) hagain⟩
  set := by
    rintro s p f v ⟨h, hrun⟩ hp hf
    exact ⟨h, Session.set_reaches hrun (fun _ => trivial) hp hf⟩
  apart := by
    rintro s ⟨h, hrun⟩
    exact (naive_covered hrun).sound.disjoint

theorem buddy_serves : Serves (BuddyManager.manager BuddyManager.nodeStateLength)
    (Linked.Reachable .buddy) where
  alloc := by
    rintro s ⟨h, h₀, hzero, hboot, hrun⟩
    obtain ⟨t, hr, -, hfive, -⟩ := buddy_covered hzero hboot hrun
    have hok : BuddyManager.noWrap s (.alloc nodeSize) := Or.inr (Or.inl (by decide))
    obtain ⟨⟨p, h'⟩, halloc⟩ := Option.isSome_iff_exists.mp
      (BuddyManager.allocMemory_isSome hr (hr.admits hfive hok) (by decide))
    have hcall := Session.alloc_eq (BuddyManager.manager BuddyManager.nodeStateLength) s
      nodeSize halloc
    exact ⟨p, _, hcall, h, h₀, hzero, hboot, Session.alloc_reaches hrun hok hcall⟩
  free := by
    rintro s p ⟨h, h₀, hzero, hboot, hrun⟩ hp
    obtain ⟨t, hr, -, hfive, hfits⟩ := buddy_covered hzero hboot hrun
    obtain ⟨b, hb, hpb, -⟩ := hfits _ hp
    obtain rfl : p = memoryStart + b.1 + 8 := hpb
    obtain ⟨h₁, hfree, -⟩ := BuddyManager.freeMemory_rep hr hb
      (BuddyManager.inArray_five hr.maxOrder_le (hfive b hb))
    have hcall : s.free (BuddyManager.manager BuddyManager.nodeStateLength)
        (memoryStart + b.1 + 8) = some _ := Option.map_eq_some_iff.mpr ⟨h₁, hfree, rfl⟩
    exact ⟨_, hcall, h, h₀, hzero, hboot,
      Session.free_reaches hrun trivial (List.mem_map_of_mem hp) hcall⟩
  again := by
    rintro s p t ⟨h, h₀, hzero, hboot, hrun⟩ hp hcall
    obtain ⟨q, h', halloc, hq⟩ :=
      (node_again NaiveManager.zeroHeap h).2 h₀ s p hzero hboot hrun hp
    have hfree := Session.free_reaches hrun trivial (List.mem_map_of_mem hp) hcall
    obtain ⟨h₁, hfreed, rfl⟩ := Option.map_eq_some_iff.mp hcall
    have hfreed' : BuddyManager.freeMemory BuddyManager.nodeStateLength s.heap p = some h₁ :=
      hfreed
    rw [hfreed', Option.bind_some] at halloc
    have hagain := Session.alloc_eq (BuddyManager.manager BuddyManager.nodeStateLength)
      ⟨h₁, s.live.filter fun q => q.1 ≠ p⟩ nodeSize halloc
    exact ⟨q, _, hagain, hq, h, h₀, hzero, hboot,
      Session.alloc_reaches hfree (Or.inr (Or.inl (by decide))) hagain⟩
  set := by
    rintro s p f v ⟨h, h₀, hzero, hboot, hrun⟩ hp hf
    exact ⟨h, h₀, hzero, hboot, Session.set_reaches hrun (fun _ => trivial) hp hf⟩
  apart := by
    rintro s ⟨h, h₀, hzero, hboot, hrun⟩
    exact (buddy_covered hzero hboot hrun).sound.disjoint

/-- **Both managers serve the queues.** -/
theorem Linked.serves (l : Linked) : Serves l.manager l.Reachable := by
  cases l with
  | naive => exact naive_serves
  | buddy => exact buddy_serves

/-! ## A heap with some blocks -/

section Packed

open BlockList (Seg firstFit)

/-- The list after `n` requests of 16 bytes: the blocks are packed at the start. -/
def packed (n : ℕ) : List Seg :=
  (List.range n).map (fun i => ⟨memoryStart + 40 * i, 16, false⟩) ++
    [⟨memoryStart + 40 * n, 4194280 - 40 * n, true⟩]

theorem firstFit_used {req : ℕ} {ys pre post : List Seg} {b : Seg} : ∀ {xs : List Seg},
    (∀ c ∈ xs, c.free = false) → firstFit req ys = some (pre, b, post) →
      firstFit req (xs ++ ys) = some (xs ++ pre, b, post)
  | [], _, h => h
  | c :: xs, hused, h => by
      have hc : ¬(c.free = true ∧ req ≤ c.size) := by simp [hused c List.mem_cons_self]
      rw [List.cons_append, firstFit, if_neg hc,
        firstFit_used (fun d hd => hused d (List.mem_cons_of_mem _ hd)) h]
      rfl

/-- The naive manager hands out the blocks one behind the other. -/
theorem naive_packed : ∀ n ≤ 1000, ∃ s : Session NaiveManager.Heap,
    NaiveRun NaiveManager.noWrap (naiveStart NaiveManager.zeroHeap) s ∧
      NaiveManager.Rep s.heap NaiveManager.kernelPool (packed n) ∧
        ∀ i < n, (memoryStart + 24 + 40 * i, nodeSize) ∈ s.live
  | 0, _ => by
      refine ⟨_, Reaches.refl _, ?_, by simp⟩
      exact NaiveManager.createMemoryManager_rep NaiveManager.zeroHeap NaiveManager.kernelPool
  | n + 1, hn => by
      obtain ⟨s, hrun, hr, hlive⟩ := naive_packed n (by omega)
      have hspec := NaiveManager.allocMemory_rep hr (show nodeSize ≠ 0 by decide)
      have halign : (align nodeSize).toNat = 16 := by decide
      have hfit : firstFit 16 (packed n) = some
          ((List.range n).map (fun i => ⟨memoryStart + 40 * i, 16, false⟩) ++ [],
            ⟨memoryStart + 40 * n, 4194280 - 40 * n, true⟩, []) := by
        refine firstFit_used ?_ ?_
        · intro c hc
          obtain ⟨i, -, rfl⟩ := List.mem_map.mp hc
          rfl
        · simp only [firstFit, true_and]
          rw [if_pos (by omega)]
      rw [halign, hfit] at hspec
      obtain ⟨h', halloc, hr'⟩ := hspec
      have hnull : memoryStart + 40 * n + 24 ≠ NULL := Nat.succ_ne_zero _
      have hok : NaiveManager.noWrap s (.alloc nodeSize) := Or.inl (by decide)
      refine ⟨⟨h', (memoryStart + 40 * n + 24, nodeSize) :: s.live⟩,
        hrun.tail hok (.alloc halloc hnull), ?_, ?_⟩
      · have hsame : packed (n + 1) =
            (List.range n).map (fun i => ⟨memoryStart + 40 * i, 16, false⟩) ++ [] ++
              (BlockList.carve 24 8 16 ⟨memoryStart + 40 * n, 4194280 - 40 * n, true⟩ ++ []) := by
          rw [packed, List.range_succ, List.map_append, BlockList.carve,
            if_pos (by simp only; omega), List.append_nil, List.append_nil, List.append_assoc]
          congr 1
        rw [hsame]
        exact hr'
      · intro i hi
        rcases Nat.lt_succ_iff_lt_or_eq.mp hi with hlt | rfl
        · exact List.mem_cons_of_mem _ (hlive i hlt)
        · rw [Nat.add_right_comm]
          exact List.mem_cons_self

end Packed

end BareKernel
