import BareKernel.Lib.LinkedList
import Mathlib.Data.Option.Basic
import Mathlib.Data.List.Nodup

/-!
# The linked queue

`queueADT.c` over a heap of nodes. A pointer is the address of a block, and 0 is `NULL`. What the
code does with a block that was freed, or was never handed out, is undefined: such an operation
has no result. `allocMemory` is told by the block that it hands out.

Queues are lists: every queue has a chain of nodes from `first` to `last`, the chains have no node
in common, and a node is live as long as it is in one of them.
-/

namespace BareKernel.QueueADT

open LinkedList

/-! ## The code -/

/-- `queueCDT`. -/
structure Ends : Type where
  first : ℕ
  last : ℕ

/-- `allocated` and `freed` are the nodes that were handed out and given back so far. -/
structure Heap : Type where
  nodes : ℕ → Option (Node ℕ)
  queues : ℕ → Option Ends
  allocated : List ℕ
  freed : List ℕ

namespace Heap

def empty : Heap := ⟨fun _ => none, fun _ => none, [], []⟩

def allocNode (H : Heap) (block data : ℕ) : Heap :=
  { H with
    nodes := Function.update H.nodes block (some ⟨data, 0⟩)
    allocated := block :: H.allocated }

/-- `a->tail = tail`. -/
def setTail (H : Heap) (a tail : ℕ) : Option Heap := do
  let node ← H.nodes a
  return { H with nodes := Function.update H.nodes a (some { node with tail }) }

def freeNode (H : Heap) (a : ℕ) : Option Heap := do
  let _ ← H.nodes a
  return { H with nodes := Function.update H.nodes a none, freed := a :: H.freed }

def setEnds (H : Heap) (q : ℕ) (ends : Option Ends) : Heap :=
  { H with queues := Function.update H.queues q ends }

end Heap

def newQueue (H : Heap) (block : ℕ) : ℕ × Heap :=
  if block = 0 then (0, H) else (block, H.setEnds block (some ⟨0, 0⟩))

def queue (H : Heap) (q element block : ℕ) : Option Heap :=
  if q = 0 ∨ block = 0 then some H
  else do
    let H := H.allocNode block element
    let ends ← H.queues q
    if ends.first = 0 then return H.setEnds q (some ⟨block, block⟩)
    else
      let H ← H.setTail ends.last block
      return H.setEnds q (some { ends with last := block })

def dequeue (H : Heap) (q : ℕ) : Option (ℕ × Heap) :=
  if q = 0 then some (0, H)
  else do
    let ends ← H.queues q
    if ends.first = 0 then return (0, H)
    else
      let temp ← H.nodes ends.first
      let H := H.setEnds q (some ⟨temp.tail, if temp.tail = 0 then 0 else ends.last⟩)
      return (temp.data, ← H.freeNode ends.first)

def isEmpty (H : Heap) (q : ℕ) : Option ℕ :=
  if q = 0 then some 1
  else do
    let ends ← H.queues q
    return if ends.first = 0 then 1 else 0

/-- The branch of `removeFromQueue` that found the element, in `current`. -/
def unlink (H : Heap) (q prev current : ℕ) : Option Heap := do
  let ends ← H.queues q
  let node ← H.nodes current
  if prev = 0 then
    (H.setEnds q (some ⟨node.tail, if node.tail = 0 then 0 else ends.last⟩)).freeNode current
  else
    let H ← H.setTail prev node.tail
    (H.setEnds q
      (some { ends with last := if current = ends.last then prev else ends.last })).freeNode
      current

/-- The loop of `removeFromQueue`. -/
def search (H : Heap) (q element : ℕ) : ℕ → ℕ → ℕ → Option (ℕ × Heap)
  | 0, _, _ => none
  | fuel + 1, prev, current =>
      if current = 0 then some (0, H)
      else do
        let node ← H.nodes current
        if node.data = element then return (1, ← unlink H q prev current)
        else search H q element fuel current node.tail

def removeFromQueue (fuel : ℕ) (H : Heap) (q element : ℕ) : Option (ℕ × Heap) :=
  if q = 0 then some (0, H)
  else do
    let ends ← H.queues q
    if ends.first = 0 then return (0, H) else search H q element fuel 0 ends.first

/-- The loop of `freeQueue`. -/
def drain (q : ℕ) : ℕ → Heap → Option Heap
  | 0, _ => none
  | fuel + 1, H => do
      if (← isEmpty H q) ≠ 0 then return H
      else
        let (_, H) ← dequeue H q
        drain q fuel H

def freeQueue (fuel : ℕ) (H : Heap) (q : ℕ) : Option Heap :=
  if q = 0 then some H
  else do
    let H ← drain q fuel H
    return H.setEnds q none

inductive Call : Type where
  | newQueue (block : ℕ)
  | queue (q element block : ℕ)
  | dequeue (q : ℕ)
  | isEmpty (q : ℕ)
  | removeFromQueue (q element : ℕ)
  | freeQueue (q : ℕ)

/-- What the call returns, 0 if nothing, and the heap after it. -/
def Call.exec (fuel : ℕ) (H : Heap) : Call → Option (ℕ × Heap)
  | .newQueue block => some (QueueADT.newQueue H block)
  | .queue q element block => (QueueADT.queue H q element block).map fun H => (0, H)
  | .dequeue q => QueueADT.dequeue H q
  | .isEmpty q => (QueueADT.isEmpty H q).map fun r => (r, H)
  | .removeFromQueue q element => QueueADT.removeFromQueue fuel H q element
  | .freeQueue q => (QueueADT.freeQueue fuel H q).map fun H => (0, H)

def run (fuel : ℕ) (H : Heap) : List Call → Option (List ℕ × Heap)
  | [] => some ([], H)
  | c :: calls => do
      let (r, H) ← c.exec fuel H
      let (results, H) ← run fuel H calls
      return (r :: results, H)

/-! ## Callers -/

/-- A block that `allocMemory` may hand out. -/
def Fresh (H : Heap) (block : ℕ) : Prop := block ≠ 0 ∧ H.nodes block = none ∧ H.queues block = none

def IsQueue (H : Heap) (q : ℕ) : Prop := q = 0 ∨ (H.queues q).isSome

/-- The queue is `NULL` or was not freed, and allocations of nodes succeed. -/
def Call.Valid (H : Heap) : Call → Prop
  | .newQueue block => block = 0 ∨ Fresh H block
  | .queue q _ block => IsQueue H q ∧ Fresh H block
  | .dequeue q => IsQueue H q
  | .isEmpty q => IsQueue H q
  | .removeFromQueue q _ => IsQueue H q
  | .freeQueue q => IsQueue H q

/-- Every call is valid when it is made. -/
def Valid (fuel : ℕ) (H : Heap) : List Call → Prop
  | [] => True
  | c :: calls => c.Valid H ∧ ∀ r H', c.exec fuel H = some (r, H') → Valid fuel H' calls

/-! ## Lists -/

/-- The queues as lists. -/
abbrev Lists : Type := ℕ → Option (List ℕ)

/-- **What the calls are for.** -/
def Call.apply (L : Lists) : Call → ℕ × Lists
  | .newQueue block => (block, if block = 0 then L else Function.update L block (some []))
  | .queue q element _ => (0, Function.update L q ((L q).map (· ++ [element])))
  | .dequeue q => (((L q).getD []).headD 0, Function.update L q ((L q).map List.tail))
  | .isEmpty q => (if (L q).getD [] = [] then 1 else 0, L)
  | .removeFromQueue q element =>
      (if element ∈ (L q).getD [] then 1 else 0, Function.update L q ((L q).map (·.erase element)))
  | .freeQueue q => (0, Function.update L q none)

def applyAll (L : Lists) : List Call → List ℕ × Lists
  | [] => ([], L)
  | c :: calls =>
    ((c.apply L).1 :: (applyAll (c.apply L).2 calls).1, (applyAll (c.apply L).2 calls).2)

/-! ## Chains -/

abbrev Chains : Type := ℕ → Option (List (ℕ × ℕ))

def Chains.lists (chains : Chains) : Lists := fun q => (chains q).map contents

def Chains.addressesOf (chains : Chains) (q : ℕ) : List ℕ := addresses ((chains q).getD [])

def lastOf (chain : List (ℕ × ℕ)) : ℕ := (addresses chain).getLastD 0

/-- The chain goes from `first` to `last`, with no node twice. -/
structure Chain (nodes : ℕ → Option (Node ℕ)) (ends : Ends) (chain : List (ℕ × ℕ)) : Prop where
  segment : Segment nodes ends.first chain 0
  last : ends.last = lastOf chain
  nodup : (addresses chain).Nodup

/-- A node was freed as often as it was handed out, except for the last time if it is live. -/
def Balanced (H : Heap) : Prop :=
  ∀ a, H.allocated.count a = H.freed.count a + (H.nodes a).isSome.toNat

/-- **The invariant**: the queues are chains without a common node, and the live nodes are
theirs. -/
structure Linked (H : Heap) (chains : Chains) : Prop where
  null : chains 0 = none
  chained : ∀ q, Option.Rel (Chain H.nodes) (H.queues q) (chains q)
  apart : ∀ q q', q ≠ q' → (chains.addressesOf q).Disjoint (chains.addressesOf q')
  live : ∀ a, (H.nodes a).isSome ↔ ∃ q, a ∈ chains.addressesOf q
  balanced : Balanced H

section Linked

variable {H H' : Heap} {chains : Chains} {chain chain' before rest : List (ℕ × ℕ)} {q a x block : ℕ}

theorem addressesOf_some (h : chains q = some chain) : chains.addressesOf q = addresses chain := by
  unfold Chains.addressesOf
  rw [h]
  rfl

theorem addressesOf_update_self (new : Option (List (ℕ × ℕ))) :
    Chains.addressesOf (Function.update chains q new) q = addresses (new.getD []) := by
  unfold Chains.addressesOf
  rw [Function.update_self]

theorem addressesOf_update_of_ne {q' : ℕ} (h : q' ≠ q) (new : Option (List (ℕ × ℕ))) :
    Chains.addressesOf (Function.update chains q new) q' = chains.addressesOf q' := by
  unfold Chains.addressesOf
  rw [Function.update_of_ne h]

theorem lists_update (new : Option (List (ℕ × ℕ))) :
    Chains.lists (Function.update chains q new) = Function.update chains.lists q
      (new.map contents) := by
  funext q'
  unfold Chains.lists
  by_cases h : q' = q
  · subst h
    rw [Function.update_self, Function.update_self]
  · rw [Function.update_of_ne h, Function.update_of_ne h]

theorem linked_empty : Linked .empty fun _ => none where
  null := rfl
  chained _ := .none
  apart _ _ _ := List.disjoint_nil_left _
  live _ := iff_of_false Bool.false_ne_true fun ⟨_, h⟩ => List.not_mem_nil h
  balanced _ := rfl

/-- The nodes of a chain are live. -/
theorem Linked.isSome_of_mem (h : Linked H chains) (ha : a ∈ chains.addressesOf q) :
    (H.nodes a).isSome :=
  (h.live a).mpr ⟨q, ha⟩

/-- **Another chain for one queue**, made of its own nodes and fresh ones. Nodes that it lost are
dead. -/
theorem Linked.replace (h : Linked H chains) (hq : q ≠ 0) {new : Option (List (ℕ × ℕ))}
    (hqueues : ∀ q' ≠ q, H'.queues q' = H.queues q')
    (hchain : Option.Rel (Chain H'.nodes) (H'.queues q) new)
    (hsame : ∀ a ∉ chains.addressesOf q, a ∉ addresses (new.getD []) → H'.nodes a = H.nodes a)
    (hnew : ∀ a ∈ addresses (new.getD []), a ∈ chains.addressesOf q ∨ H.nodes a = none)
    (hlive : ∀ a ∈ addresses (new.getD []), (H'.nodes a).isSome)
    (hgone : ∀ a ∈ chains.addressesOf q, a ∉ addresses (new.getD []) → H'.nodes a = none)
    (hbalanced : Balanced H') : Linked H' (Function.update chains q new) := by
  -- nodes of the other queues are neither old nor new
  have hother : ∀ q' ≠ q, ∀ a ∈ chains.addressesOf q',
      a ∉ chains.addressesOf q ∧ a ∉ addresses (new.getD []) := by
    intro q' hne a ha
    have hold : a ∉ chains.addressesOf q := fun hmem => h.apart q' q hne ha hmem
    refine ⟨hold, fun hmem => ?_⟩
    rcases hnew a hmem with hmem | hdead
    · exact hold hmem
    · have hsome := h.isSome_of_mem ha
      rw [hdead] at hsome
      exact Bool.false_ne_true hsome
  constructor
  · rw [Function.update_of_ne hq.symm]
    exact h.null
  · intro q'
    by_cases hne : q' = q
    · subst hne
      rw [Function.update_self]
      exact hchain
    · have hthere := h.chained q'
      rw [Function.update_of_ne hne, hqueues q' hne]
      cases hends : H.queues q' with
      | none =>
          rw [hends] at hthere
          cases hc : chains q' with
          | none => exact .none
          | some chain =>
              rw [hc] at hthere
              cases hthere
      | some ends =>
          rw [hends] at hthere
          cases hc : chains q' with
          | none =>
              rw [hc] at hthere
              cases hthere
          | some chain =>
              rw [hc] at hthere
              obtain ⟨hthere⟩ := hthere
              refine .some ⟨segment_congr (fun a ha => ?_) hthere.segment, hthere.last,
                hthere.nodup⟩
              rw [← addressesOf_some hc] at ha
              exact hsame a (hother q' hne a ha).1 (hother q' hne a ha).2
  · have hone : ∀ q' ≠ q, (Chains.addressesOf (Function.update chains q new) q').Disjoint
        (addresses (new.getD [])) := by
      intro q' hne a ha hmem
      rw [addressesOf_update_of_ne hne] at ha
      exact (hother q' hne a ha).2 hmem
    intro q₁ q₂ hne
    by_cases h₁ : q₁ = q
    · subst h₁
      rw [addressesOf_update_self]
      exact List.disjoint_symm (hone q₂ hne.symm)
    · by_cases h₂ : q₂ = q
      · subst h₂
        rw [addressesOf_update_self]
        exact hone q₁ h₁
      · rw [addressesOf_update_of_ne h₁, addressesOf_update_of_ne h₂]
        exact h.apart q₁ q₂ hne
  · intro a
    by_cases hmem : a ∈ addresses (new.getD [])
    · refine iff_of_true (hlive a hmem) ⟨q, ?_⟩
      rw [addressesOf_update_self]
      exact hmem
    by_cases hold : a ∈ chains.addressesOf q
    · rw [hgone a hold hmem]
      refine iff_of_false Bool.false_ne_true ?_
      rintro ⟨q', ha⟩
      by_cases hne : q' = q
      · subst hne
        rw [addressesOf_update_self] at ha
        exact hmem ha
      · rw [addressesOf_update_of_ne hne] at ha
        exact h.apart q' q hne ha hold
    · rw [hsame a hold hmem, h.live a]
      apply exists_congr
      intro q'
      by_cases hne : q' = q
      · subst hne
        rw [addressesOf_update_self]
        exact iff_of_false hold hmem
      · rw [addressesOf_update_of_ne hne]
  · exact hbalanced

/-! ### The operations on nodes -/

theorem balanced_allocNode (h : Balanced H) (hblock : H.nodes block = none) (data : ℕ) :
    Balanced (H.allocNode block data) := by
  intro a
  have ha := h a
  unfold Heap.allocNode
  dsimp only
  by_cases hne : a = block
  · subst hne
    rw [hblock] at ha
    rw [List.count_cons_self, Function.update_self, ha]
    rfl
  · rw [List.count_cons_of_ne (Ne.symm hne), Function.update_of_ne hne, ha]

/-- A store to a live node. -/
theorem balanced_store (h : Balanced H) (ha : (H.nodes a).isSome) (node : Node ℕ)
    (queues : ℕ → Option Ends) :
    Balanced { H with nodes := Function.update H.nodes a (some node), queues } := by
  intro b
  have hb := h b
  dsimp only
  by_cases hne : b = a
  · subst hne
    rw [ha] at hb
    rw [Function.update_self, hb]
    rfl
  · rw [Function.update_of_ne hne, hb]

theorem balanced_freeNode (h : Balanced H) (ha : (H.nodes a).isSome) (queues : ℕ → Option Ends) :
    Balanced { H with nodes := Function.update H.nodes a none, queues, freed := a :: H.freed } := by
  intro b
  have hb := h b
  dsimp only
  by_cases hne : b = a
  · subst hne
    rw [ha] at hb
    rw [List.count_cons_self, Function.update_self, hb]
    rfl
  · rw [List.count_cons_of_ne (Ne.symm hne), Function.update_of_ne hne, hb]

theorem setTail_some {node : Node ℕ} (h : H.nodes a = some node) (tail : ℕ) : H.setTail a tail =
    some { H with nodes := Function.update H.nodes a (some { node with tail }) } := by
  unfold Heap.setTail
  rw [h]
  rfl

theorem freeNode_some {node : Node ℕ} (h : H.nodes a = some node) : H.freeNode a =
    some { H with nodes := Function.update H.nodes a none, freed := a :: H.freed } := by
  unfold Heap.freeNode
  rw [h]
  rfl

/-! ### The ends -/

@[simp] theorem lastOf_nil : lastOf [] = 0 := rfl

@[simp] theorem lastOf_concat : lastOf (chain ++ [(a, x)]) = a := by
  simp [lastOf]

/-- A queue has a chain. -/
theorem Linked.ends (h : Linked H chains) (hc : chains q = some chain) :
    q ≠ 0 ∧ ∃ ends, H.queues q = some ends ∧ Chain H.nodes ends chain := by
  refine ⟨?_, ?_⟩
  · rintro rfl
    rw [h.null] at hc
    cases hc
  · have hq := h.chained q
    rw [hc] at hq
    cases hends : H.queues q with
    | none =>
        rw [hends] at hq
        cases hq
    | some ends =>
        rw [hends] at hq
        obtain ⟨hq⟩ := hq
        exact ⟨ends, rfl, hq⟩

/-- **Both ends are null together**, exactly if the chain is empty. -/
theorem Chain.ends_null {nodes : ℕ → Option (Node ℕ)} {ends : Ends} (h : Chain nodes ends chain) :
    (ends.first = 0 ↔ chain = []) ∧ (ends.last = 0 ↔ chain = []) := by
  refine ⟨segment_empty h.segment, ?_⟩
  rw [h.last]
  rcases List.eq_nil_or_concat' chain with rfl | ⟨init, ⟨a, x⟩, rfl⟩
  · exact iff_of_true rfl rfl
  · rw [lastOf_concat]
    have ha := (segment_mem h.segment a (by simp)).1
    exact iff_of_false ha (by simp)

/-! ### Appending -/

theorem queue_first {ends : Ends} (hq : q ≠ 0) (hblock : block ≠ 0) (hends : H.queues q = some ends)
    (hfirst : ends.first = 0) (element : ℕ) : queue H q element block =
    some ((H.allocNode block element).setEnds q (some ⟨block, block⟩)) := by
  unfold queue
  rw [if_neg (not_or.mpr ⟨hq, hblock⟩)]
  simp [Heap.allocNode, hends, hfirst]

theorem queue_last {ends : Ends} {element : ℕ} {node : Node ℕ} (hq : q ≠ 0) (hblock : block ≠ 0)
    (hends : H.queues q = some ends) (hfirst : ends.first ≠ 0)
    (hlast : (H.allocNode block element).nodes ends.last = some node) : queue H q element block =
    some { H.allocNode block element with
      nodes := Function.update (H.allocNode block element).nodes ends.last
        (some { node with tail := block })
      queues := Function.update H.queues q (some { ends with last := block }) } := by
  unfold queue
  rw [if_neg (not_or.mpr ⟨hq, hblock⟩)]
  have hthere : (H.allocNode block element).queues q = some ends := hends
  simp only [Option.bind_eq_bind, hthere, Option.bind_some, hfirst, if_false, setTail_some hlast]
  rfl

/-- **The new node is the last one.** -/
theorem queue_linked (h : Linked H chains) (hc : chains q = some chain) (hblock : Fresh H block)
    (element : ℕ) : ∃ H', queue H q element block = some H' ∧
      Linked H' (Function.update chains q (some (chain ++ [(block, element)]))) := by
  obtain ⟨hq, ends, hends, hchain⟩ := h.ends hc
  obtain ⟨hne, hdead, -⟩ := hblock
  have hold := addressesOf_some hc
  have hunused : block ∉ addresses chain := by
    intro hmem
    have hsome := (segment_mem hchain.segment block hmem).2
    rw [hdead] at hsome
    exact Bool.false_ne_true hsome
  have hnodup : (addresses (chain ++ [(block, element)])).Nodup := by
    rw [addresses_append, List.nodup_append_comm]
    exact List.nodup_cons.mpr ⟨hunused, hchain.nodup⟩
  have hbalanced := balanced_allocNode h.balanced hdead element
  have hnode : (H.allocNode block element).nodes block = some ⟨element, 0⟩ :=
    Function.update_self _ _ _
  have hothers : ∀ a ≠ block, (H.allocNode block element).nodes a = H.nodes a :=
    fun a ha => Function.update_of_ne ha _ _
  have hfresh : ∀ a ∈ addresses (chain ++ [(block, element)]),
      a ∈ chains.addressesOf q ∨ H.nodes a = none := by
    intro a ha
    rw [addresses_append] at ha
    rcases List.mem_append.mp ha with ha | ha
    · exact .inl (hold ▸ ha)
    · rw [List.mem_singleton.mp ha]
      exact .inr hdead
  have hkept : ∀ a ∈ chains.addressesOf q, a ∈ addresses (chain ++ [(block, element)]) := by
    intro a ha
    rw [hold] at ha
    rw [addresses_append]
    exact List.mem_append_left _ ha
  rcases List.eq_nil_or_concat' chain with rfl | ⟨init, ⟨l, x⟩, rfl⟩
  · -- the queue is empty
    refine ⟨_, queue_first hq hne hends (hchain.ends_null.1.mpr rfl) element, ?_⟩
    have hchain' : Chain (H.allocNode block element).nodes ⟨block, block⟩ [(block, element)] :=
      ⟨⟨⟨rfl, hne⟩, 0, hnode, rfl⟩, rfl, hnodup⟩
    refine h.replace hq (fun q' hne => Function.update_of_ne hne _ _) ?_ ?_ hfresh ?_ ?_ hbalanced
    · rw [Heap.setEnds]
      dsimp only
      rw [Function.update_self]
      exact .some hchain'
    · intro a _ ha
      exact hothers a fun h => ha (List.mem_singleton.mpr h)
    · exact fun a ha => (segment_mem hchain'.segment a ha).2
    · exact fun a ha hnot => absurd (hkept a ha) hnot
  · -- the last node gets the new one as its tail
    have hfirst : ends.first ≠ 0 := fun h => by simpa using hchain.ends_null.1.mp h
    have hlast : ends.last = l := hchain.last.trans lastOf_concat
    obtain ⟨p, -, -, tail, hl, htail⟩ := segment_append.mp hchain.segment
    have hlne : l ≠ block := by
      rintro rfl
      exact hunused (by simp)
    have hl' : (H.allocNode block element).nodes ends.last = some ⟨x, tail⟩ := by
      rw [hlast, hothers l hlne]
      exact hl
    refine ⟨_, queue_last hq hne hends hfirst hl', ?_⟩
    have hlinit : l ∉ addresses init := by
      have hnot := (nodup_addresses_middle hchain.nodup).1
      rwa [List.append_nil] at hnot
    have hsegment := segment_retarget
      (segment_congr (fun a ha => hothers a (fun h => hunused (h ▸ ha))) hchain.segment)
        hlinit block
    have hchain' : Chain (Function.update (H.allocNode block element).nodes l (some ⟨x, block⟩))
        { ends with last := block } (init ++ [(l, x)] ++ [(block, element)]) := by
      refine ⟨segment_append.mpr ⟨block, hsegment, ⟨rfl, hne⟩, 0, ?_, rfl⟩,
        lastOf_concat.symm, hnodup⟩
      rw [Function.update_of_ne hlne.symm]
      exact hnode
    rw [hlast]
    refine h.replace hq (fun q' hne => Function.update_of_ne hne _ _) ?_ ?_ hfresh ?_ ?_ ?_
    · dsimp only
      rw [Function.update_self]
      exact .some hchain'
    · intro a hnot ha
      rw [hold] at hnot
      dsimp only
      rw [Function.update_of_ne, hothers a]
      · rintro rfl
        exact ha (by simp)
      · rintro rfl
        exact hnot (by simp)
    · exact fun a ha => (segment_mem hchain'.segment a ha).2
    · exact fun a ha hnot => absurd (hkept a ha) hnot
    · have hthere : ((H.allocNode block element).nodes l).isSome := by
        rw [← hlast, hl']
        rfl
      exact balanced_store hbalanced hthere ⟨x, block⟩ _

/-! ### Removing -/

theorem unlink_head {ends : Ends} {node : Node ℕ} (hends : H.queues q = some ends)
    (hnode : H.nodes a = some node) : unlink H q 0 a =
    some { H with
      nodes := Function.update H.nodes a none
      queues := Function.update H.queues q
        (some ⟨node.tail, if node.tail = 0 then 0 else ends.last⟩)
      freed := a :: H.freed } := by
  unfold unlink
  simp only [Option.bind_eq_bind, hends, hnode, Option.bind_some, if_true]
  exact freeNode_some hnode

theorem unlink_behind {ends : Ends} {node prev : Node ℕ} {p : ℕ} (hp : p ≠ 0) (hpa : a ≠ p)
    (hends : H.queues q = some ends) (hnode : H.nodes a = some node)
    (hprev : H.nodes p = some prev) :
    unlink H q p a =
    some { H with
      nodes :=
        Function.update (Function.update H.nodes p (some { prev with tail := node.tail })) a none
      queues := Function.update H.queues q
        (some { ends with last := if a = ends.last then p else ends.last })
      freed := a :: H.freed } := by
  unfold unlink
  simp only [Option.bind_eq_bind, hends, hnode, Option.bind_some, hp, if_false, setTail_some hprev]
  exact freeNode_some ((Function.update_of_ne hpa _ _).trans hnode)

/-- **A node is taken out and freed**, wherever it stands in the chain. -/
theorem unlink_linked (h : Linked H chains) (hc : chains q = some (before ++ (a, x) :: rest)) :
    ∃ H', unlink H q (lastOf before) a = some H' ∧ H'.freed = a :: H.freed ∧
      Linked H' (Function.update chains q (some (before ++ rest))) := by
  obtain ⟨hq, ends, hends, hchain⟩ := h.ends hc
  have hold := addressesOf_some hc
  obtain ⟨p, hbefore, ⟨rfl, hane⟩, tail, ha, hrest⟩ := segment_append.mp hchain.segment
  obtain ⟨hnotIn, hnodup⟩ := nodup_addresses_middle hchain.nodup
  have hsub : ∀ b ∈ addresses (before ++ rest), b ∈ chains.addressesOf q := by
    intro b hb
    rw [hold]
    simp only [addresses_append, addresses_cons, List.mem_append, List.mem_cons] at hb ⊢
    tauto
  have honly : ∀ b ∈ chains.addressesOf q, b ∉ addresses (before ++ rest) → b = p := by
    intro b hb hnot
    rw [hold] at hb
    simp only [addresses_append, addresses_cons, List.mem_append, List.mem_cons] at hb hnot
    tauto
  have hout : p ∈ chains.addressesOf q := by
    rw [hold]
    simp
  rcases List.eq_nil_or_concat' before with rfl | ⟨init, ⟨b, y⟩, rfl⟩
  · -- the first node
    obtain rfl : ends.first = p := hbefore
    refine ⟨_, unlink_head hends ha, rfl, ?_⟩
    have hchain' : Chain (Function.update H.nodes ends.first none)
        ⟨tail, if tail = 0 then 0 else ends.last⟩ rest := by
      refine ⟨segment_congr (fun b hb => ?_) hrest, ?_, hnodup⟩
      · apply Function.update_of_ne
        rintro rfl
        exact hnotIn hb
      · rcases List.eq_nil_or_concat' rest with rfl | ⟨more, ⟨c, z⟩, rfl⟩
        · obtain rfl : tail = 0 := hrest
          rfl
        · have hne : tail ≠ 0 := fun h => by simpa using (segment_empty hrest).mp h
          have hlast := hchain.last
          rw [List.nil_append, ← List.cons_append, lastOf_concat] at hlast
          rw [lastOf_concat, ← hlast, if_neg hne]
    refine h.replace hq (fun q' hne => Function.update_of_ne hne _ _) ?_ ?_ ?_ ?_ ?_ ?_
    · dsimp only
      rw [Function.update_self]
      exact .some hchain'
    · intro b hb _
      apply Function.update_of_ne
      rintro rfl
      exact hb hout
    · exact fun b hb => .inl (hsub b hb)
    · exact fun b hb => (segment_mem hchain'.segment b hb).2
    · intro b hb hnot
      rw [honly b hb hnot]
      exact Function.update_self _ _ _
    · exact balanced_freeNode h.balanced (h.isSome_of_mem hout) _
  · -- the node behind another
    obtain ⟨b', hinit, ⟨rfl, hbne⟩, tail', hb, hbp⟩ := segment_append.mp hbefore
    obtain rfl : tail' = p := hbp
    have hne : tail' ≠ b' := by
      rintro rfl
      exact hnotIn (by simp)
    rw [lastOf_concat]
    refine ⟨_, unlink_behind hbne hne hends ha hb, rfl, ?_⟩
    have hbnot : b' ∉ addresses init ∧ b' ∉ addresses rest := by
      rw [List.append_assoc] at hnodup
      have hmem := (nodup_addresses_middle hnodup).1
      rwa [addresses_append, List.mem_append, not_or] at hmem
    have hsegment :
        Segment (Function.update (Function.update H.nodes b' (some ⟨y, tail⟩)) tail' none)
        ends.first (init ++ [(b', y)] ++ rest) 0 := by
      refine segment_append.mpr ⟨tail, segment_congr (fun c hmem => ?_)
        (segment_retarget hbefore hbnot.1 tail), segment_congr (fun c hmem => ?_) hrest⟩
      · apply Function.update_of_ne
        rintro rfl
        exact hnotIn (by rw [addresses_append]; exact List.mem_append_left _ hmem)
      · rw [Function.update_of_ne, Function.update_of_ne]
        · rintro rfl
          exact hbnot.2 hmem
        · rintro rfl
          exact hnotIn (by rw [addresses_append]; exact List.mem_append_right _ hmem)
    have hlast :
        (if tail' = ends.last then b' else ends.last) = lastOf (init ++ [(b', y)] ++ rest) := by
      rw [hchain.last]
      rcases List.eq_nil_or_concat' rest with rfl | ⟨more, ⟨c, z⟩, rfl⟩
      · rw [lastOf_concat, if_pos rfl, List.append_nil, lastOf_concat]
      · have hcne : tail' ≠ c := by
          rintro rfl
          exact hnotIn (by simp)
        rw [← List.cons_append, ← List.append_assoc, lastOf_concat, if_neg hcne,
          ← List.append_assoc, lastOf_concat]
    have hchain' : Chain (Function.update (Function.update H.nodes b' (some ⟨y, tail⟩)) tail' none)
        { ends with last := if tail' = ends.last then b' else ends.last }
        (init ++ [(b', y)] ++ rest) := ⟨hsegment, hlast, hnodup⟩
    refine h.replace hq (fun q' hne => Function.update_of_ne hne _ _) ?_ ?_ ?_ ?_ ?_ ?_
    · dsimp only
      rw [Function.update_self]
      exact .some hchain'
    · intro c hmem hnot
      dsimp only
      rw [Function.update_of_ne, Function.update_of_ne]
      · rintro rfl
        exact hnot (by simp)
      · rintro rfl
        exact hmem hout
    · exact fun c hc => .inl (hsub c hc)
    · exact fun c hc => (segment_mem hchain'.segment c hc).2
    · intro c hc hnot
      rw [honly c hc hnot]
      exact Function.update_self _ _ _
    · have hstore := balanced_store h.balanced (a := b') (by rw [hb]; rfl) ⟨y, tail⟩ H.queues
      refine balanced_freeNode hstore (a := tail') ?_ _
      dsimp only
      rw [Function.update_of_ne hne, ha]
      rfl

/-- `dequeue` does what the removal of the first node does. -/
theorem dequeue_unlink {ends : Ends} {node : Node ℕ} (hq : q ≠ 0) (hends : H.queues q = some ends)
    (hfirst : ends.first ≠ 0) (hnode : H.nodes ends.first = some node) :
    dequeue H q = (unlink H q 0 ends.first).map fun H => (node.data, H) := by
  have hfree : (H.setEnds q (some ⟨node.tail, if node.tail = 0 then 0 else ends.last⟩)).freeNode
      ends.first = _ := freeNode_some hnode
  rw [unlink_head hends hnode]
  unfold dequeue
  simp only [Option.bind_eq_bind, hq, hends, hnode, Option.bind_some, hfirst, if_false, hfree]
  rfl

theorem dequeue_linked (h : Linked H chains) (hc : chains q = some ((a, x) :: rest)) :
    ∃ H', dequeue H q = some (x, H') ∧ H'.freed = a :: H.freed ∧
      Linked H' (Function.update chains q (some rest)) := by
  obtain ⟨hq, ends, hends, hchain⟩ := h.ends hc
  obtain ⟨⟨hfirst, hne⟩, tail, ha, -⟩ := hchain.segment
  subst hfirst
  have hchain : chains q = some ([] ++ (ends.first, x) :: rest) := hc
  obtain ⟨H', hunlink, hfreed, hlinked⟩ := unlink_linked h hchain
  rw [dequeue_unlink hq hends hne ha]
  rw [lastOf_nil] at hunlink
  rw [hunlink]
  exact ⟨H', rfl, hfreed, hlinked⟩

theorem isEmpty_linked (h : Linked H chains) (hc : chains q = some chain) :
    isEmpty H q = some (if chain = [] then 1 else 0) := by
  obtain ⟨hq, ends, hends, hchain⟩ := h.ends hc
  unfold isEmpty
  rw [if_neg hq, hends, Option.bind_eq_bind, Option.bind_some, if_congr hchain.ends_null.1 rfl rfl]
  rfl

/-! ### The loops -/

/-- The chain without its first node that has the element. -/
def without (element : ℕ) (chain : List (ℕ × ℕ)) : List (ℕ × ℕ) :=
  chain.eraseP fun node => node.2 == element

theorem contents_without (element : ℕ) (chain : List (ℕ × ℕ)) :
    contents (without element chain) = (contents chain).erase element := by
  unfold contents without
  rw [List.erase_eq_eraseP', List.eraseP_map]
  rfl

/-- **The loop of `removeFromQueue`** takes out the first node from the current one on that has the
element. -/
theorem search_linked (h : Linked H chains) (element : ℕ)
    (after : List (ℕ × ℕ)) (fuel current : ℕ) (hfuel : after.length < fuel)
    (hc : chains q = some (before ++ after)) (hcurrent : Segment H.nodes current after 0) :
    ∃ H', search H q element fuel (lastOf before) current =
        some (if element ∈ contents after then 1 else 0, H') ∧
      Linked H' (Function.update chains q (some (before ++ without element after))) := by
  induction after generalizing before fuel current with
  | nil =>
      obtain ⟨fuel, rfl⟩ := Nat.exists_eq_add_one_of_ne_zero (Nat.ne_of_gt hfuel)
      obtain rfl : current = 0 := hcurrent
      refine ⟨H, rfl, ?_⟩
      rw [without, List.eraseP_nil, ← hc, Function.update_eq_self]
      exact h
  | cons node after ih =>
      obtain ⟨fuel, rfl⟩ :=
        Nat.exists_eq_add_one_of_ne_zero (Nat.ne_of_gt (Nat.zero_lt_of_lt hfuel))
      obtain ⟨a, x⟩ := node
      obtain ⟨⟨rfl, hne⟩, tail, ha, hafter⟩ := hcurrent
      unfold search
      rw [if_neg hne, ha, Option.bind_eq_bind, Option.bind_some]
      by_cases hx : x = element
      · subst hx
        obtain ⟨H', hunlink, -, hlinked⟩ := unlink_linked h hc
        refine ⟨H', ?_, ?_⟩
        · simp [hunlink]
        · have hwithout : without x ((current, x) :: after) = after := by simp [without]
          rw [hwithout]
          exact hlinked
      · have hbefore : chains q = some ((before ++ [(current, x)]) ++ after) := by
          rw [hc, List.append_assoc]
          rfl
        have hstep := ih fuel tail (Nat.lt_of_succ_lt_succ hfuel) hbefore hafter
        rw [lastOf_concat] at hstep
        have hwithout :
            without element ((current, x) :: after) = (current, x) :: without element after := by
          simp [without, hx]
        have hmem : element ∈ contents ((current, x) :: after) ↔ element ∈ contents after := by
          simp [Ne.symm hx]
        rw [if_neg hx, hwithout, if_congr hmem rfl rfl]
        rw [List.append_assoc] at hstep
        exact hstep

/-- **The loop of `freeQueue`** frees every node. -/
theorem drain_linked (h : Linked H chains) (fuel : ℕ) (hfuel : chain.length < fuel)
    (hc : chains q = some chain) :
    ∃ H', drain q fuel H = some H' ∧ Linked H' (Function.update chains q (some [])) := by
  induction chain generalizing H chains fuel with
  | nil =>
      obtain ⟨fuel, rfl⟩ := Nat.exists_eq_add_one_of_ne_zero (Nat.ne_of_gt hfuel)
      refine ⟨H, ?_, ?_⟩
      · unfold drain
        rw [isEmpty_linked h hc]
        rfl
      · rw [← hc, Function.update_eq_self]
        exact h
  | cons node chain ih =>
      obtain ⟨fuel, rfl⟩ :=
        Nat.exists_eq_add_one_of_ne_zero (Nat.ne_of_gt (Nat.zero_lt_of_lt hfuel))
      obtain ⟨a, x⟩ := node
      obtain ⟨H₁, hdequeue, -, hlinked⟩ := dequeue_linked h hc
      obtain ⟨H₂, hdrain, hlast⟩ := ih hlinked fuel (Nat.lt_of_succ_lt_succ hfuel)
        (Function.update_self _ _ _)
      refine ⟨H₂, ?_, ?_⟩
      · unfold drain
        rw [isEmpty_linked h hc]
        simp [hdequeue, hdrain]
      · rw [Function.update_idem] at hlast
        exact hlast

/-! ## Runs -/

/-- A queue that is not null has a chain. -/
theorem Linked.isQueue (h : Linked H chains) (hq : IsQueue H q) :
    q = 0 ∧ chains q = none ∨ q ≠ 0 ∧ ∃ chain, chains q = some chain := by
  rcases hq with rfl | hq
  · exact .inl ⟨rfl, h.null⟩
  · have hthere := h.chained q
    cases hc : chains q with
    | none =>
        rw [hc] at hthere
        cases hends : H.queues q with
        | none =>
            rw [hends] at hq
            cases hq
        | some ends =>
            rw [hends] at hthere
            cases hthere
    | some chain => exact .inr ⟨(h.ends hc).1, chain, rfl⟩

theorem lists_some (hc : chains q = some chain) : chains.lists q = some (contents chain) := by
  unfold Chains.lists
  rw [hc]
  rfl

theorem lists_none (hc : chains q = none) : chains.lists q = none := by
  unfold Chains.lists
  rw [hc]
  rfl

/-- What `exec` should do: what `apply` says, on linked queues. -/
def Call.Refines (fuel : ℕ) (H : Heap) (chains : Chains) (c : Call) : Prop :=
  ∃ H' chains', c.exec fuel H = some ((c.apply chains.lists).1, H') ∧
    (c.apply chains.lists).2 = chains'.lists ∧ Linked H' chains'

theorem newQueue_refines (h : Linked H chains) {fuel : ℕ} (hblock : block = 0 ∨ Fresh H block) :
    (Call.newQueue block).Refines fuel H chains := by
  rcases hblock with rfl | ⟨hne, -, hdead⟩
  · exact ⟨H, chains, rfl, rfl, h⟩
  have hc : chains block = none := by
    have hthere := h.chained block
    rw [hdead] at hthere
    cases hc : chains block with
    | none => rfl
    | some chain =>
        rw [hc] at hthere
        cases hthere
  have hnone : ∀ a, a ∉ chains.addressesOf block := by
    intro a
    unfold Chains.addressesOf
    rw [hc]
    exact List.not_mem_nil
  refine ⟨H.setEnds block (some ⟨0, 0⟩), Function.update chains block (some []), ?_, ?_, ?_⟩
  · simp [Call.exec, newQueue, Call.apply, hne]
  · rw [lists_update, Call.apply, if_neg hne]
    rfl
  · refine h.replace hne (fun q' hne => Function.update_of_ne hne _ _) ?_ (fun a _ _ => rfl)
      (fun a ha => absurd ha List.not_mem_nil) (fun a ha => absurd ha List.not_mem_nil)
      (fun a ha => absurd ha (hnone a)) h.balanced
    unfold Heap.setEnds
    dsimp only
    rw [Function.update_self]
    exact .some ⟨rfl, rfl, List.nodup_nil⟩

theorem queue_refines (h : Linked H chains) {fuel : ℕ} (hq : IsQueue H q) (hblock : Fresh H block)
    (element : ℕ) : (Call.queue q element block).Refines fuel H chains := by
  rcases h.isQueue hq with ⟨rfl, hnone⟩ | ⟨-, chain, hc⟩
  · refine ⟨H, chains, rfl, ?_, h⟩
    rw [Call.apply, lists_none hnone, Option.map_none, ← lists_none hnone, Function.update_eq_self]
  · obtain ⟨H', hexec, hlinked⟩ := queue_linked h hc hblock element
    refine ⟨H', _, ?_, ?_, hlinked⟩
    · rw [Call.exec, hexec]
      rfl
    · rw [lists_update, Call.apply, lists_some hc, Option.map_some, Option.map_some,
        contents_append]
      rfl

theorem dequeue_refines (h : Linked H chains) {fuel : ℕ} (hq : IsQueue H q) :
    (Call.dequeue q).Refines fuel H chains := by
  rcases h.isQueue hq with ⟨rfl, hnone⟩ | ⟨hne, chain, hc⟩
  · refine ⟨H, chains, ?_, ?_, h⟩
    · rw [Call.apply, lists_none hnone]
      rfl
    · rw [Call.apply, lists_none hnone, Option.map_none, ← lists_none hnone,
        Function.update_eq_self]
  cases chain with
  | nil =>
      obtain ⟨-, ends, hends, hchain⟩ := h.ends hc
      refine ⟨H, chains, ?_, ?_, h⟩
      · rw [Call.apply, lists_some hc]
        simp [Call.exec, dequeue, hne, hends, hchain.ends_null.1.mpr rfl]
      · rw [Call.apply, lists_some hc, Option.map_some]
        exact Function.update_eq_self_iff.mpr (lists_some hc).symm
  | cons node rest =>
      obtain ⟨a, x⟩ := node
      obtain ⟨H', hexec, -, hlinked⟩ := dequeue_linked h hc
      refine ⟨H', _, ?_, ?_, hlinked⟩
      · rw [Call.apply, lists_some hc]
        exact hexec
      · rw [lists_update, Call.apply, lists_some hc]
        rfl

theorem isEmpty_refines (h : Linked H chains) {fuel : ℕ} (hq : IsQueue H q) :
    (Call.isEmpty q).Refines fuel H chains := by
  refine ⟨H, chains, ?_, rfl, h⟩
  rcases h.isQueue hq with ⟨rfl, hnone⟩ | ⟨-, chain, hc⟩
  · rw [Call.apply, lists_none hnone]
    rfl
  · have hempty : contents chain = [] ↔ chain = [] := List.map_eq_nil_iff
    rw [Call.apply, lists_some hc, Option.getD_some, if_congr hempty rfl rfl, Call.exec,
      isEmpty_linked h hc]
    rfl

theorem removeFromQueue_refines (h : Linked H chains) {fuel : ℕ} (hq : IsQueue H q)
    (hfuel : ∀ chain, chains q = some chain → chain.length < fuel) (element : ℕ) :
    (Call.removeFromQueue q element).Refines fuel H chains := by
  rcases h.isQueue hq with ⟨rfl, hnone⟩ | ⟨hne, chain, hc⟩
  · refine ⟨H, chains, ?_, ?_, h⟩
    · rw [Call.apply, lists_none hnone]
      rfl
    · rw [Call.apply, lists_none hnone, Option.map_none, ← lists_none hnone,
        Function.update_eq_self]
  obtain ⟨-, ends, hends, hchain⟩ := h.ends hc
  have hwhole : chains q = some ([] ++ chain) := hc
  obtain ⟨H', hsearch, hlinked⟩ :=
    search_linked h element chain fuel ends.first (hfuel chain hc) hwhole
    hchain.segment
  rw [List.nil_append] at hlinked
  refine ⟨H', _, ?_, ?_, hlinked⟩
  · rw [Call.apply, lists_some hc, Option.getD_some, ← hsearch]
    simp only [Call.exec, removeFromQueue, if_neg hne, hends, Option.bind_eq_bind, Option.bind_some]
    -- an empty queue is not searched
    by_cases hfirst : ends.first = 0
    · obtain rfl := hchain.ends_null.1.mp hfirst
      obtain ⟨fuel, rfl⟩ := Nat.exists_eq_add_one_of_ne_zero (Nat.ne_of_gt (hfuel [] hc))
      rw [if_pos hfirst, hfirst]
      rfl
    · rw [if_neg hfirst]
      rfl
  · rw [lists_update, Call.apply, lists_some hc, Option.map_some, Option.map_some, contents_without]

theorem freeQueue_refines (h : Linked H chains) {fuel : ℕ} (hq : IsQueue H q)
    (hfuel : ∀ chain, chains q = some chain → chain.length < fuel) :
    (Call.freeQueue q).Refines fuel H chains := by
  rcases h.isQueue hq with ⟨rfl, hnone⟩ | ⟨hne, chain, hc⟩
  · refine ⟨H, chains, rfl, ?_, h⟩
    rw [Call.apply, ← lists_none hnone, Function.update_eq_self]
  obtain ⟨H', hdrain, hlinked⟩ := drain_linked h fuel (hfuel chain hc) hc
  have hnone : ∀ a, a ∉ Chains.addressesOf (Function.update chains q (some [])) q := by
    intro a
    rw [addressesOf_update_self]
    exact List.not_mem_nil
  refine ⟨H'.setEnds q none, Function.update chains q none, ?_, ?_, ?_⟩
  · simp [Call.exec, freeQueue, hne, hdrain, Call.apply]
  · rw [lists_update]
    rfl
  · rw [← Function.update_idem]
    refine hlinked.replace hne (fun q' hne => Function.update_of_ne hne _ _) ?_ (fun a _ _ => rfl)
      (fun a ha => absurd ha List.not_mem_nil) (fun a ha => absurd ha List.not_mem_nil)
      (fun a ha => absurd ha (hnone a)) hlinked.balanced
    unfold Heap.setEnds
    dsimp only
    rw [Function.update_self]
    exact .none

/-- **One call**, one case for each operation. -/
theorem exec_refines (h : Linked H chains) {c : Call} {fuel : ℕ} (hc : c.Valid H)
    (hfuel : ∀ q chain, chains q = some chain → chain.length < fuel) : c.Refines fuel H chains := by
  cases c with
  | newQueue block => exact newQueue_refines h hc
  | queue q element block => exact queue_refines h hc.1 hc.2 element
  | dequeue q => exact dequeue_refines h hc
  | isEmpty q => exact isEmpty_refines h hc
  | removeFromQueue q element => exact removeFromQueue_refines h hc (hfuel q) element
  | freeQueue q => exact freeQueue_refines h hc (hfuel q)

/-- Lists of at most `n` elements. -/
def Short (n : ℕ) (L : Lists) : Prop := ∀ q l, L q = some l → l.length ≤ n

theorem short_update {L : Lists} {n : ℕ} (h : Short n L) (q : ℕ) {new : Option (List ℕ)}
    (hnew : ∀ l, new = some l → l.length ≤ n + 1) : Short (n + 1) (Function.update L q new) := by
  intro q' l hl
  by_cases hne : q' = q
  · subst hne
    rw [Function.update_self] at hl
    exact hnew l hl
  · rw [Function.update_of_ne hne] at hl
    exact Nat.le_trans (h q' l hl) (Nat.le_succ n)

/-- A call appends at most one element. -/
theorem short_apply {L : Lists} {n : ℕ} (h : Short n L) (c : Call) :
    Short (n + 1) (c.apply L).2 := by
  have hsame : Short (n + 1) L := fun q l hl => Nat.le_trans (h q l hl) (Nat.le_succ n)
  have hmap : ∀ (q : ℕ) (f : List ℕ → List ℕ), (∀ l, (f l).length ≤ l.length + 1) →
      Short (n + 1) (Function.update L q ((L q).map f)) := by
    intro q f hf
    refine short_update h q fun l hl => ?_
    obtain ⟨l', hl', rfl⟩ := Option.map_eq_some_iff.mp hl
    exact Nat.le_trans (hf l') (Nat.succ_le_succ (h q l' hl'))
  cases c with
  | newQueue block =>
      unfold Call.apply
      dsimp only
      split
      · exact hsame
      · refine short_update h block fun l hl => ?_
        cases hl
        exact Nat.zero_le _
  | queue q element block => exact hmap q _ fun l => by simp
  | dequeue q => exact hmap q _ fun l => by simp; omega
  | isEmpty q => exact hsame
  | removeFromQueue q element =>
      exact hmap q _ fun l => Nat.le_trans List.length_erase_le (Nat.le_succ _)
  | freeQueue q => exact short_update h q fun l hl => by cases hl

/-- **All calls**, by induction on their list. -/
theorem run_refines (calls : List Call) (h : Linked H chains) {fuel n : ℕ}
    (hcalls : Valid fuel H calls)
    (hshort : Short n chains.lists) (hfuel : n + calls.length < fuel) :
    ∃ H' chains', run fuel H calls = some ((applyAll chains.lists calls).1, H') ∧
      (applyAll chains.lists calls).2 = chains'.lists ∧ Linked H' chains' := by
  induction calls generalizing H chains n with
  | nil => exact ⟨H, chains, rfl, rfl, h⟩
  | cons c calls ih =>
      have hchains : ∀ q chain, chains q = some chain → chain.length < fuel := by
        intro q chain hc
        have hle := hshort q (contents chain) (lists_some hc)
        rw [contents, List.length_map] at hle
        exact Nat.lt_of_le_of_lt (Nat.le_trans hle (Nat.le_add_right n _)) hfuel
      obtain ⟨H₁, chains₁, hexec, hlists, hlinked⟩ := exec_refines h hcalls.1 hchains
      have hshort₁ := short_apply hshort c
      rw [hlists] at hshort₁
      rw [List.length_cons, ← Nat.add_assoc, Nat.add_right_comm] at hfuel
      obtain ⟨H₂, chains₂, hrun, hall, hlast⟩ := ih hlinked (hcalls.2 _ _ hexec) hshort₁ hfuel
      refine ⟨H₂, chains₂, ?_, ?_, hlast⟩
      · unfold run applyAll
        rw [hexec, Option.bind_eq_bind, Option.bind_some]
        dsimp only
        rw [hrun, hlists]
        rfl
      · unfold applyAll
        rw [hlists]
        exact hall

end Linked

/-- **Queues are lists.** Any calls return what they return on lists, and leave chains from
`first` to `last` that represent those lists; nothing is read, stored to or freed that is not
live. -/
theorem queues_are_lists (calls : List Call) (fuel : ℕ) (hfuel : calls.length < fuel)
    (hcalls : Valid fuel .empty calls) :
    ∃ results H chains, run fuel .empty calls = some (results, H) ∧
      applyAll (fun _ => none) calls = (results, chains.lists) ∧ Linked H chains ∧
      ∀ q ends, H.queues q = some ends → (ends.first = 0 ↔ ends.last = 0) := by
  have hshort : Short 0 (Chains.lists fun _ => none) := by
    intro q l hl
    cases hl
  rw [← Nat.zero_add calls.length] at hfuel
  obtain ⟨H, chains, hrun, hlists, hlinked⟩ := run_refines calls linked_empty hcalls hshort hfuel
  refine ⟨_, H, chains, hrun, Prod.ext rfl hlists, hlinked, ?_⟩
  intro q ends hends
  have hthere := hlinked.chained q
  rw [hends] at hthere
  cases hc : chains q with
  | none =>
      rw [hc] at hthere
      cases hthere
  | some chain =>
      rw [hc] at hthere
      obtain ⟨hchain⟩ := hthere
      exact hchain.ends_null.1.trans hchain.ends_null.2.symm

theorem valid_cons {fuel r : ℕ} {H H' : Heap} {c : Call} {calls : List Call} (hc : c.Valid H)
    (hexec : c.exec fuel H = some (r, H')) (hcalls : Valid fuel H' calls) :
    Valid fuel H (c :: calls) := by
  refine ⟨hc, fun r₁ H₁ hexec₁ => ?_⟩
  rw [hexec] at hexec₁
  cases hexec₁
  exact hcalls

/-- An append behind a removed last node, in a block that is used again. -/
theorem queues_are_lists_append : ∃ results H chains,
    run 9 .empty [.newQueue 1, .queue 1 7 2, .queue 1 8 3, .removeFromQueue 1 8, .queue 1 9 3,
      .dequeue 1, .freeQueue 1] = some (results, H) ∧
    applyAll (fun _ => none) [.newQueue 1, .queue 1 7 2, .queue 1 8 3, .removeFromQueue 1 8,
      .queue 1 9 3, .dequeue 1, .freeQueue 1] = (results, chains.lists) ∧ Linked H chains ∧
    ∀ q ends, H.queues q = some ends → (ends.first = 0 ↔ ends.last = 0) := by
  apply queues_are_lists
  · decide
  · refine valid_cons (.inr ⟨by decide, rfl, rfl⟩) rfl ?_
    refine valid_cons ⟨.inr rfl, by decide, rfl, rfl⟩ rfl ?_
    refine valid_cons ⟨.inr rfl, by decide, rfl, rfl⟩ rfl ?_
    refine valid_cons (.inr rfl) rfl ?_
    refine valid_cons ⟨.inr rfl, by decide, rfl, rfl⟩ rfl ?_
    refine valid_cons (.inr rfl) rfl ?_
    exact valid_cons (.inr rfl) rfl trivial

end BareKernel.QueueADT
