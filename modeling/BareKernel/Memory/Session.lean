import BareKernel.Memory.MemoryManager
import BareKernel.Lib.Runs

/-!
# Clients of a memory manager

A session is a heap together with the pointers its clients hold. The clients
request memory of any size, give back pointers they hold, and write to memory
where they may.
-/

namespace BareKernel

open ByteMemory

/-- What the rest of the kernel links against: one of the two managers. A
call without result is one that does not return. -/
structure Manager (σ : Type) where
  mem : σ → Mem
  withMem : σ → Mem → σ
  allocMemory : σ → UInt32 → Option (ℕ × σ)
  freeMemory : σ → ℕ → Option σ

/-- The heap and the live allocations, each with the size that was requested. -/
structure Session (σ : Type) where
  heap : σ
  live : List (ℕ × UInt32)

inductive Request : Type where
  | alloc (size : UInt32)
  | free (memorySegment : ℕ)
  | write (m : Mem)

/-- One step of the clients. `writable` says which bytes they may change. -/
inductive Session.Step {σ : Type} (M : Manager σ) (writable : Session σ → ℕ → Prop) :
    Session σ → Request → Session σ → Prop
  | allocNull {s : Session σ} {size : UInt32} {h : σ} :
      M.allocMemory s.heap size = some (NULL, h) →
      Step M writable s (.alloc size) { s with heap := h }
  | alloc {s : Session σ} {size : UInt32} {p : ℕ} {h : σ} :
      M.allocMemory s.heap size = some (p, h) → p ≠ NULL →
      Step M writable s (.alloc size) ⟨h, (p, size) :: s.live⟩
  | freeNull {s : Session σ} {h : σ} :
      M.freeMemory s.heap NULL = some h →
      Step M writable s (.free NULL) { s with heap := h }
  | free {s : Session σ} {p : ℕ} {h : σ} :
      p ∈ s.live.map Prod.fst → M.freeMemory s.heap p = some h →
      Step M writable s (.free p) ⟨h, s.live.filter fun q => q.1 ≠ p⟩
  | write {s : Session σ} {m : Mem} :
      (∀ a, ¬writable s a → m a = M.mem s.heap a) →
      Step M writable s (.write m) { s with heap := M.withMem s.heap m }

/-- Clients that write only to the bytes they asked for. -/
def Session.requested {σ : Type} (s : Session σ) (a : ℕ) : Prop :=
  ∃ q ∈ s.live, q.1 ≤ a ∧ a < q.1 + q.2.toNat

/-- **The contract of a heap** with its clients: every range that was asked for
lies in the pool and is disjoint from the others and from the bytes the
manager keeps for itself. -/
structure Session.Sound {σ : Type} (s : Session σ) (base bytes : ℕ) (metadata : ℕ → Prop) :
    Prop where
  inside : ∀ q ∈ s.live, base ≤ q.1 ∧ q.1 + q.2.toNat ≤ base + bytes
  disjoint : s.live.Pairwise fun q r => q.1 + q.2.toNat ≤ r.1 ∨ r.1 + r.2.toNat ≤ q.1
  noMetadata : ∀ a, s.requested a → ¬metadata a

end BareKernel
