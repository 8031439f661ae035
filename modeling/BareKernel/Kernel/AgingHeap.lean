import BareKernel.Kernel.Selection
import BareKernel.Memory.Linked

/-!
# The aging pass on its heap

`queueADT.c` on the heap of the kernel: a queue is a block with its two ends, and a
node is allocated for each element. The aging pass is run here with the calls it makes
of the manager that is linked in. Each `queue` of the pass comes right after a
`dequeue`, and the node that this gave back is there again, so the pass on the heap
is the pass on lists that gets all its nodes.
-/

namespace BareKernel.Kernel

open ByteMemory

/-! ## `queueADT.c` -/

def dataField : Field := ⟨0, 8⟩
def tailField : Field := ⟨8, 8⟩
def firstField : Field := ⟨0, 8⟩
def lastField : Field := ⟨8, 8⟩

/-- `sizeof(queueCDT)`. -/
def queueSize : UInt32 := 16

/-- A queue: its block, and its nodes from `first` to `last`, each with the PID of the
process that `data` points to. -/
structure NodeQueue where
  addr : ℕ
  nodes : List (ℕ × ℤ)

section Queues

variable {σ : Type} (M : Manager σ)

def newQueue (s : Session σ) : Option (Option NodeQueue × Session σ) :=
  (s.alloc M queueSize).map fun (q, s) =>
    if q = NULL then (none, s)
    else (some ⟨q, []⟩, (s.set M firstField q NULL).set M lastField q NULL)

def queue (s : Session σ) (q : NodeQueue) (element : ℤ) : Option (NodeQueue × Session σ) :=
  (s.alloc M nodeSize).map fun (newNode, s) =>
    if newNode = NULL then (q, s)
    else
      let s := (s.set M dataField newNode element.toNat).set M tailField newNode NULL
      let s := match q.nodes.getLast? with
        | none => s.set M firstField q.addr newNode
        | some last => s.set M tailField last.1 newNode
      ({ q with nodes := q.nodes ++ [(newNode, element)] }, s.set M lastField q.addr newNode)

def dequeue (s : Session σ) (q : NodeQueue) : Option (Option ℤ × NodeQueue × Session σ) :=
  match q.nodes with
  | [] => some (none, q, s)
  | (temp, data) :: rest =>
      let s := match rest with
        | [] => (s.set M firstField q.addr NULL).set M lastField q.addr NULL
        | second :: _ => s.set M firstField q.addr second.1
      (s.free M temp).map fun s => (some data, { q with nodes := rest }, s)

/-- The loop of `freeQueue`. -/
def drain (addr : ℕ) : List (ℕ × ℤ) → Session σ → Option (Session σ)
  | [], s => some s
  | node :: rest, s => (dequeue M s ⟨addr, node :: rest⟩).bind fun (_, _, s) => drain addr rest s

def freeQueue (s : Session σ) (q : NodeQueue) : Option (Session σ) :=
  (drain M q.addr q.nodes s).bind fun s => s.free M q.addr

end Queues

/-! ## `applyAging` -/

/-- The heap, the process table and the ready queues. -/
structure NodeSched (σ : Type) where
  session : Session σ
  processes : ℤ → Process
  priorityQueues : ℤ → NodeQueue

namespace NodeSched

section Pass

variable {σ : Type} (M : Manager σ)

def setQueue (s : NodeSched σ) (i : ℤ) (q : NodeQueue) : NodeSched σ :=
  { s with priorityQueues := Function.update s.priorityQueues i q }

/-- The first loop: the nodes of queue `i` from here on. -/
def fillTemp (i : ℤ) : List (ℕ × ℤ) → NodeSched σ → NodeQueue → Option (NodeSched σ × NodeQueue)
  | [], s, tempQueue => some (s, tempQueue)
  | node :: rest, s, tempQueue =>
      (dequeue M s.session ⟨(s.priorityQueues i).addr, node :: rest⟩).bind fun (_, q, session) =>
        let pid := node.2
        let processes := if pid = 1 ∨ pid = 2 then s.processes
          else Function.update s.processes pid (Sched.age (s.processes pid))
        (queue M session tempQueue pid).bind fun (tempQueue, session) =>
          fillTemp i rest
            (({ s with session := session, processes := processes } : NodeSched σ).setQueue i q)
            tempQueue

/-- The second loop: the nodes of the temporary queue from here on. -/
def requeue (addr : ℕ) : List (ℕ × ℤ) → NodeSched σ → Option (NodeSched σ)
  | [], s => some s
  | node :: rest, s =>
      (dequeue M s.session ⟨addr, node :: rest⟩).bind fun (_, _, session) =>
        let newQueueIndex := Sched.queueIndex (s.processes node.2)
        (queue M session (s.priorityQueues newQueueIndex) node.2).bind fun (q, session) =>
          requeue addr rest (({ s with session := session } : NodeSched σ).setQueue newQueueIndex q)

/-- The state, and whether `newQueue` gave a queue, if it was called. -/
def ageQueue (s : NodeSched σ) (i : ℤ) : Option (NodeSched σ × List Bool) :=
  if (s.priorityQueues i).nodes = [] then some (s, [])
  else
    (newQueue M s.session).bind fun
      | (none, session) => some ({ s with session := session }, [false])
      | (some tempQueue, session) =>
          (fillTemp M i (s.priorityQueues i).nodes { s with session := session } tempQueue).bind
            fun (s, tempQueue) => (requeue M tempQueue.addr tempQueue.nodes s).bind fun s =>
              (freeQueue M s.session ⟨tempQueue.addr, []⟩).map fun session =>
                ({ s with session := session }, [true])

def agePass : List ℤ → NodeSched σ → Option (NodeSched σ × List Bool)
  | [], s => some (s, [])
  | i :: is, s => (ageQueue M s i).bind fun (s, got) =>
      (agePass is s).map fun (s, gots) => (s, got ++ gots)

def applyAging (s : NodeSched σ) : Option (NodeSched σ × List Bool) := agePass M [0, 1, 2, 3, 4] s

end Pass

end NodeSched

/-! ## The blocks that the queues hold -/

variable {σ : Type} {M : Manager σ} {I : Session σ → Prop} {s t u : Session σ} {q q' : NodeQueue}
  {node : ℕ × ℤ}

/-- `f` counts how often a block is part of a queue: never twice, and then it is held. -/
def HeldBlocks (s : Session σ) (f : ℕ → ℕ) : Prop :=
  ∀ a, f a ≤ 1 ∧ (0 < f a → (a, nodeSize) ∈ s.live)

theorem HeldBlocks.congr {f g : ℕ → ℕ} (h : HeldBlocks s f) (hlive : t.live = s.live)
    (hfg : ∀ a, g a = f a) :
    HeldBlocks t g := by
  intro a
  rw [hfg, hlive]
  exact h a

/-- A block that is given back is part of no queue any more. -/
theorem HeldBlocks.free {f : ℕ → ℕ} {p : ℕ} (h : HeldBlocks s f)
    (hlive : t.live = s.live.filter fun q => q.1 ≠ p) :
    HeldBlocks t fun a => f a - if a = p then 1 else 0 := by
  intro a
  dsimp only
  have hle := (h a).1
  refine ⟨by omega, fun hpos => ?_⟩
  by_cases ha : a = p
  · rw [if_pos ha] at hpos
    omega
  · rw [if_neg ha, Nat.sub_zero] at hpos
    rw [hlive, List.mem_filter]
    exact ⟨(h a).2 hpos, decide_eq_true ha⟩

/-- A block that is new was part of no queue. -/
theorem HeldBlocks.alloc {f : ℕ → ℕ} {p : ℕ} (hM : Serves M I) (hI : I t) (h : HeldBlocks s f)
    (hlive : t.live = (p, nodeSize) :: s.live) : HeldBlocks t fun a => f a + if a = p then 1
      else 0 := by
  have hfresh : f p = 0 := by
    by_contra hne
    have hmem := (h p).2 (Nat.pos_of_ne_zero hne)
    have hapart := hM.apart hI
    rw [hlive, List.pairwise_cons] at hapart
    have hself := hapart.1 _ hmem
    have hsize : nodeSize.toNat = 16 := by decide
    simp only [hsize] at hself
    omega
  intro a
  dsimp only
  have hle := (h a).1
  by_cases ha : a = p
  · subst ha
    rw [if_pos rfl, hfresh, hlive]
    exact ⟨le_refl 1, fun _ => List.mem_cons_self⟩
  · rw [if_neg ha, hlive]
    exact ⟨hle, fun hpos => List.mem_cons_of_mem _ ((h a).2 hpos)⟩

theorem HeldBlocks.mem {f : ℕ → ℕ} {a : ℕ} (h : HeldBlocks s f) (ha : 0 < f a) :
    (a, nodeSize) ∈ s.live :=
  (h a).2 ha

/-- The blocks that a queue is made of. -/
def NodeQueue.addrs (q : NodeQueue) : List ℕ := q.addr :: q.nodes.map Prod.fst

theorem dequeue_spec (rest : List (ℕ × ℤ)) (hM : Serves M I) (hI : I s) {addr : ℕ}
    (hq : (addr, nodeSize) ∈ s.live)
    (hnode : (node.1, nodeSize) ∈ s.live) :
    ∃ v t, dequeue M s ⟨addr, node :: rest⟩ = some (some node.2, ⟨addr, rest⟩, t) ∧ I v ∧
      v.live = s.live ∧ v.free M node.1 = some t ∧ I t := by
  cases rest with
  | nil =>
      have hv : I ((s.set M firstField addr NULL).set M lastField addr NULL) :=
        hM.set (hM.set hI hq (by decide)) hq (by decide)
      obtain ⟨t, hfree, ht⟩ := hM.free hv hnode
      refine ⟨_, t, ?_, hv, rfl, hfree, ht⟩
      simp only [dequeue, hfree, Option.map_some]
  | cons second rest =>
      have hv : I (s.set M firstField addr second.1) := hM.set hI hq (by decide)
      obtain ⟨t, hfree, ht⟩ := hM.free hv hnode
      refine ⟨_, t, ?_, hv, rfl, hfree, ht⟩
      simp only [dequeue, hfree, Option.map_some]

/-- `queue`, when its node is there. -/
theorem queue_spec (hM : Serves M I) (hI : I u) {new : ℕ} {element : ℤ}
    (hcall : t.alloc M nodeSize = some (new, u)) (hnew : new ≠ NULL)
    (hq : ∀ a ∈ q.addrs, (a, nodeSize) ∈ t.live) :
    ∃ u', queue M t q element = some (⟨q.addr, q.nodes ++ [(new, element)]⟩, u') ∧ I u' ∧
      u'.live = (new, nodeSize) :: t.live := by
  have hlive : u.live = (new, nodeSize) :: t.live := by
    rw [Session.alloc_live hcall, if_neg hnew]
  have hmem : ∀ a ∈ q.addrs, (a, nodeSize) ∈ u.live := by
    intro a ha
    rw [hlive]
    exact List.mem_cons_of_mem _ (hq a ha)
  have hnode : (new, nodeSize) ∈ u.live := by
    rw [hlive]
    exact List.mem_cons_self
  have haddr : (q.addr, nodeSize) ∈ u.live := hmem _ List.mem_cons_self
  have hfilled : I ((u.set M dataField new element.toNat).set M tailField new NULL) :=
    hM.set (hM.set hI hnode (by decide)) hnode (by decide)
  unfold queue
  rw [hcall, Option.map_some]
  dsimp only
  rw [if_neg hnew]
  cases hlast : q.nodes.getLast? with
  | none => exact ⟨_, rfl, hM.set (hM.set hfilled haddr (by decide)) haddr (by decide), hlive⟩
  | some last =>
      have hlastmem : (last.1, nodeSize) ∈ u.live :=
        hmem _ (List.mem_cons_of_mem _ (List.mem_map_of_mem (List.mem_of_getLast? hlast)))
      exact ⟨_, rfl, hM.set (hM.set hfilled hlastmem (by decide)) haddr (by decide), hlive⟩

/-- **A node moves from one queue to another**: the block that `dequeue` gave back is
there for `queue`, whatever else the heap holds. -/
theorem move_spec (rest : List (ℕ × ℤ)) (hM : Serves M I) (hI : I s) {f : ℕ → ℕ} {addr : ℕ}
    (h : HeldBlocks s f)
    (haddr : 0 < f addr) (hnode : 0 < f node.1)
    (hq : ∀ a ∈ q.addrs, 0 < f a - if a = node.1 then 1 else 0) :
    ∃ t new u, dequeue M s ⟨addr, node :: rest⟩ = some (some node.2, ⟨addr, rest⟩, t) ∧
      queue M t q node.2 = some (⟨q.addr, q.nodes ++ [(new, node.2)]⟩, u) ∧ I u ∧
        HeldBlocks u fun a => f a - (if a = node.1 then 1 else 0) + if a = new then 1 else 0 := by
  obtain ⟨v, t, hdequeue, hv, hvlive, hfree, ht⟩ :=
    dequeue_spec rest hM hI (h.mem haddr) (h.mem hnode)
  have hnode' : (node.1, nodeSize) ∈ v.live := by
    rw [hvlive]
    exact h.mem hnode
  obtain ⟨new, w, hcall, hnew, hw⟩ := hM.again hv hnode' hfree
  have hheld : HeldBlocks t fun a => f a - if a = node.1 then 1 else 0 := by
    refine h.free ?_
    rw [Session.free_live hfree, hvlive]
  obtain ⟨u, hqueue, hu, hulive⟩ := queue_spec hM hw hcall hnew fun a ha => hheld.mem (hq a ha)
  exact ⟨t, new, u, hdequeue, hqueue, hu, hheld.alloc hM hu hulive⟩

namespace NodeSched

open Sched (levels)

variable {S S' : NodeSched σ} {i : ℤ}

/-- How often a block is part of a ready queue. -/
def parts (S : NodeSched σ) (a : ℕ) : ℕ :=
  MultiQueue.entries levels (fun i => (S.priorityQueues i).addrs) a

/-- What the pass on lists sees, when every node is there. -/
def view (S : NodeSched σ) (blocks : ℕ → Bool) : Sched where
  processes := S.processes
  priorityQueues := fun i => (S.priorityQueues i).nodes.map Prod.snd
  currentProcess := none
  quantumsLeft := 0
  isYield := false
  nodes := fun _ => true
  blocks := blocks

theorem parts_setQueue (hi : i ∈ levels) (q : NodeQueue) (a : ℕ) :
    (S.setQueue i q).parts a + (S.priorityQueues i).addrs.count a =
      S.parts a + q.addrs.count a := by
  have hupdate := MultiQueue.entries_update (q := fun i => (S.priorityQueues i).addrs)
    (l := q.addrs) (a := a) Sched.levels_nodup hi
  have hsame : (fun j => ((S.setQueue i q).priorityQueues j).addrs) =
      Function.update (fun i => (S.priorityQueues i).addrs) i q.addrs := by
    funext j
    unfold setQueue
    by_cases hj : j = i
    · subst hj
      rw [Function.update_self]
      dsimp only
      rw [Function.update_self]
    · rw [Function.update_of_ne hj]
      dsimp only
      rw [Function.update_of_ne hj]
  unfold parts
  rw [hsame]
  exact hupdate

theorem count_le_parts (hi : i ∈ levels) (a : ℕ) :
    (S.priorityQueues i).addrs.count a ≤ S.parts a :=
  MultiQueue.count_le_entries (q := fun i => (S.priorityQueues i).addrs) hi

theorem view_setQueue (blocks : ℕ → Bool) (q : NodeQueue) :
    (S.setQueue i q).view blocks = (S.view blocks).setQueue i (q.nodes.map Prod.snd) := by
  unfold view setQueue Sched.setQueue
  congr 1
  funext j
  dsimp only
  by_cases hj : j = i
  · subst hj
    rw [Function.update_self, Function.update_self]
  · rw [Function.update_of_ne hj, Function.update_of_ne hj]

/-! ## The two loops -/

theorem view_setQueue_nil (blocks : ℕ → Bool) (h : (S.priorityQueues i).nodes = []) :
    (S.view blocks).setQueue i [] = S.view blocks := by
  unfold Sched.setQueue
  have hsame : Function.update (S.view blocks).priorityQueues i [] =
      (S.view blocks).priorityQueues := by
    rw [Function.update_eq_self_iff]
    exact (congrArg (List.map Prod.snd) h).symm
  rw [hsame]

/-- One round of the loop on lists, with its node. -/
theorem fillTemp_cons {T : Sched} (hnode : T.nodes 0 = true) (pid : ℤ) (l temp : List ℤ) :
    Sched.fillTemp (pid :: l) T temp = Sched.fillTemp l
      (if pid = 1 ∨ pid = 2 then T else T.setProcess pid (Sched.age (T.processes pid))).dropNode
      (temp ++ [pid]) := by
  have happend : (if pid = 1 ∨ pid = 2 then T
      else T.setProcess pid (Sched.age (T.processes pid))).append temp pid = temp ++ [pid] := by
    by_cases hpid : pid = 1 ∨ pid = 2
    · rw [if_pos hpid]
      exact if_pos hnode
    · rw [if_neg hpid]
      exact if_pos hnode
  rw [Sched.fillTemp, happend]

/-- One round on the heap is one round on lists. -/
theorem view_round (blocks : ℕ → Bool) (u : Session σ) (addr : ℕ) (rest : List (ℕ × ℤ)) (pid : ℤ) :
    ((({ S with
      session := u
      processes := if pid = 1 ∨ pid = 2 then S.processes
        else Function.update S.processes pid (Sched.age (S.processes pid)) } :
      NodeSched σ).setQueue i ⟨addr, rest⟩).view blocks).setQueue i [] =
    (if pid = 1 ∨ pid = 2 then (S.view blocks).setQueue i []
      else ((S.view blocks).setQueue i []).setProcess pid
        (Sched.age (((S.view blocks).setQueue i []).processes pid))).dropNode := by
  rw [view_setQueue]
  unfold Sched.setQueue Sched.dropNode
  dsimp only
  rw [Function.update_idem]
  split <;> rfl

theorem fillTemp_spec (hM : Serves M I) (hi : i ∈ levels) :
    ∀ {nodes : List (ℕ × ℤ)} {S : NodeSched σ} {temp : NodeQueue},
      (S.priorityQueues i).nodes = nodes → I S.session →
      HeldBlocks S.session (fun a => S.parts a + temp.addrs.count a) →
      ∃ S' temp', fillTemp M i nodes S temp = some (S', temp') ∧ I S'.session ∧
        HeldBlocks S'.session (fun a => S'.parts a + temp'.addrs.count a) ∧
        ∀ blocks, (S'.view blocks, temp'.nodes.map Prod.snd) = Sched.fillTemp
          (nodes.map Prod.snd) ((S.view blocks).setQueue i []) (temp.nodes.map Prod.snd)
  | [], S, temp, hnodes, hI, h => by
      refine ⟨S, temp, rfl, hI, h, fun blocks => ?_⟩
      rw [view_setQueue_nil blocks hnodes]
      rfl
  | node :: rest, S, temp, hnodes, hI, h => by
      have haddrs : (S.priorityQueues i).addrs =
          (S.priorityQueues i).addr :: node.1 :: rest.map Prod.fst := by
        unfold NodeQueue.addrs
        rw [hnodes, List.map_cons]
      have hcount := fun a => count_le_parts (S := S) hi a
      have haddr : 0 < S.parts (S.priorityQueues i).addr +
          temp.addrs.count (S.priorityQueues i).addr := by
        have := hcount (S.priorityQueues i).addr
        rw [haddrs, List.count_cons_self] at this
        omega
      have hself : 0 < S.parts node.1 := by
        have := hcount node.1
        rw [haddrs, List.count_cons, List.count_cons_self] at this
        omega
      have htemp : ∀ a ∈ temp.addrs,
          0 < S.parts a + temp.addrs.count a - if a = node.1 then 1 else 0 := by
        intro a ha
        have hpos := List.count_pos_iff.mpr ha
        have hone := (h a).1
        dsimp only at hone
        split
        · rename_i heq
          subst heq
          omega
        · omega
      obtain ⟨t, new, u, hdequeue, hqueue, hu, hheld⟩ :=
        move_spec rest hM hI h haddr (by omega) htemp
      -- the state when the loop comes round again
      set S₁ : NodeSched σ := ({ S with
        session := u
        processes := if node.2 = 1 ∨ node.2 = 2 then S.processes
          else Function.update S.processes node.2 (Sched.age (S.processes node.2)) } :
        NodeSched σ).setQueue i ⟨(S.priorityQueues i).addr, rest⟩ with hS₁
      have hqueue₁ : S₁.priorityQueues i = ⟨(S.priorityQueues i).addr, rest⟩ :=
        Function.update_self _ _ _
      have hheld₁ : HeldBlocks S₁.session fun a => S₁.parts a +
          (⟨temp.addr, temp.nodes ++ [(new, node.2)]⟩ : NodeQueue).addrs.count a := by
        refine hheld.congr rfl fun a => ?_
        have hparts : S₁.parts a + (S.priorityQueues i).addrs.count a =
            S.parts a + (⟨(S.priorityQueues i).addr, rest⟩ : NodeQueue).addrs.count a :=
          parts_setQueue hi _ a
        have hle := hcount a
        rw [haddrs] at hparts hle
        simp only [NodeQueue.addrs, List.map_append, List.map_cons, List.map_nil,
          List.count_cons, List.count_append, List.count_nil, beq_iff_eq] at hparts hle ⊢
        simp only [eq_comm (a := a)]
        split at hle <;> split at hle <;> simp_all <;> omega
      obtain ⟨S', temp', hfill, hI', hheld', hsched⟩ :=
        fillTemp_spec hM hi (congrArg NodeQueue.nodes hqueue₁) hu hheld₁
      refine ⟨S', temp', ?_, hI', hheld', fun blocks => ?_⟩
      · rw [fillTemp, hdequeue, Option.bind_some]
        dsimp only
        rw [hqueue, Option.bind_some]
        exact hfill
      · rw [hsched, hS₁, view_round, List.map_cons, fillTemp_cons rfl, List.map_append]
        rfl

theorem requeue_spec (hM : Serves M I) {addr : ℕ} :
    ∀ {nodes : List (ℕ × ℤ)} {S : NodeSched σ}, I S.session →
      (∀ node ∈ nodes, Sched.queueIndex (S.processes node.2) ∈ levels) →
      HeldBlocks S.session (fun a => S.parts a + (⟨addr, nodes⟩ : NodeQueue).addrs.count a) →
      ∃ S', requeue M addr nodes S = some S' ∧ I S'.session ∧
        HeldBlocks S'.session (fun a => S'.parts a + [addr].count a) ∧
        ∀ blocks, S'.view blocks = Sched.requeue (nodes.map Prod.snd) (S.view blocks)
  | [], S, hI, _, h => ⟨S, rfl, hI, h, fun _ => rfl⟩
  | node :: rest, S, hI, hlevel, h => by
      have hj := hlevel node List.mem_cons_self
      set j := Sched.queueIndex (S.processes node.2) with hjdef
      have haddrs : (⟨addr, node :: rest⟩ : NodeQueue).addrs =
          addr :: node.1 :: rest.map Prod.fst := rfl
      have haddr : 0 < S.parts addr + (⟨addr, node :: rest⟩ : NodeQueue).addrs.count addr := by
        rw [haddrs, List.count_cons_self]
        omega
      have hself : 0 < (⟨addr, node :: rest⟩ : NodeQueue).addrs.count node.1 := by
        rw [haddrs, List.count_cons, List.count_cons_self]
        omega
      have hqueue : ∀ a ∈ (S.priorityQueues j).addrs, 0 < S.parts a +
          (⟨addr, node :: rest⟩ : NodeQueue).addrs.count a - if a = node.1 then 1 else 0 := by
        intro a ha
        have hpos := List.count_pos_iff.mpr ha
        have hle := count_le_parts (S := S) hj a
        have hone := (h a).1
        dsimp only at hone
        split
        · rename_i heq
          subst heq
          omega
        · omega
      obtain ⟨t, new, u, hdequeue, hcall, hu, hheld⟩ :=
        move_spec rest hM hI h haddr (by omega) hqueue
      set S₁ : NodeSched σ := ({ S with session := u } : NodeSched σ).setQueue j
        ⟨(S.priorityQueues j).addr, (S.priorityQueues j).nodes ++ [(new, node.2)]⟩ with hS₁
      have hheld₁ : HeldBlocks S₁.session fun a =>
          S₁.parts a + (⟨addr, rest⟩ : NodeQueue).addrs.count a := by
        refine hheld.congr rfl fun a => ?_
        have hparts : S₁.parts a + (S.priorityQueues j).addrs.count a = S.parts a +
            (⟨(S.priorityQueues j).addr, (S.priorityQueues j).nodes ++ [(new, node.2)]⟩ :
              NodeQueue).addrs.count a := parts_setQueue hj _ a
        simp only [NodeQueue.addrs, List.map_append, List.map_cons, List.map_nil,
          List.count_cons, List.count_append, List.count_nil, beq_iff_eq] at hparts ⊢
        simp only [eq_comm (a := a)]
        omega
      obtain ⟨S', hrequeue, hI', hheld', hview⟩ := requeue_spec (S := S₁) hM hu
        (fun node' hnode' => hlevel node' (List.mem_cons_of_mem _ hnode')) hheld₁
      refine ⟨S', ?_, hI', hheld', fun blocks => ?_⟩
      · rw [requeue, hdequeue, Option.bind_some]
        dsimp only
        rw [← hjdef, hcall, Option.bind_some]
        exact hrequeue
      · rw [hview, hS₁, view_setQueue, List.map_append]
        rfl

/-! ## The pass -/

/-- What the calls of `newQueue` answered; the calls that were not made do not matter. -/
def answers (got : List Bool) : ℕ → Bool := fun n => got.getD n true

/-- **One queue on the heap is one queue on lists**, whatever the heap holds. -/
theorem ageQueue_spec (hM : Serves M I) (hi : i ∈ levels) (hI : I S.session)
    (h : HeldBlocks S.session S.parts) (hranked : (S.view fun _ => true).Ranked)
    (hrun : ∀ p, (S.processes p).state ≠ ProcessState.RUNNING) :
    ∃ S' got, ageQueue M S i = some (S', got) ∧ I S'.session ∧ HeldBlocks S'.session S'.parts ∧
      ∀ gots, S'.view (answers gots) = (S.view (answers (got ++ gots))).ageQueue i := by
  by_cases hempty : (S.priorityQueues i).nodes = []
  · refine ⟨S, [], if_pos hempty, hI, h, fun gots => ?_⟩
    have hview : (S.view (answers gots)).priorityQueues i = [] :=
      congrArg (List.map Prod.snd) hempty
    rw [List.nil_append, Sched.ageQueue, if_pos hview]
  have hview : ∀ blocks, ¬(S.view blocks).priorityQueues i = [] := by
    intro blocks hnil
    exact hempty (List.map_eq_nil_iff.mp hnil)
  obtain ⟨p, t, hcall, ht⟩ := hM.alloc hI
  have hcall' : S.session.alloc M queueSize = some (p, t) := hcall
  unfold ageQueue newQueue
  rw [if_neg hempty, hcall', Option.map_some, Option.bind_some]
  dsimp only
  by_cases hp : p = NULL
  · rw [if_pos hp]
    refine ⟨_, [false], rfl, ht, ?_, fun gots => ?_⟩
    · refine h.congr ?_ fun a => rfl
      rw [Session.alloc_live hcall, if_pos hp]
    · have hblock : ¬(S.view (answers ([false] ++ gots))).blocks 0 = true := Bool.false_ne_true
      rw [Sched.ageQueue, if_neg (hview _), if_pos hblock]
      rfl
  · rw [if_neg hp]
    dsimp only
    have hlive : t.live = (p, nodeSize) :: S.session.live := by
      rw [Session.alloc_live hcall, if_neg hp]
    have hmem : (p, nodeSize) ∈ t.live := by
      rw [hlive]
      exact List.mem_cons_self
    set S₀ : NodeSched σ :=
      { S with session := (t.set M firstField p NULL).set M lastField p NULL } with hS₀
    have hI₀ : I S₀.session := hM.set (hM.set ht hmem (by decide)) hmem (by decide)
    have hheld₀ : HeldBlocks S₀.session fun a =>
        S₀.parts a + (⟨p, []⟩ : NodeQueue).addrs.count a := by
      refine (h.alloc hM ht hlive).congr rfl fun a => ?_
      change S.parts a + [p].count a = S.parts a + _
      rw [List.count_singleton]
      simp only [beq_iff_eq, eq_comm (a := a)]
    obtain ⟨S₁, temp, hfill, hI₁, hheld₁, hfilled⟩ := fillTemp_spec hM hi rfl hI₀ hheld₀
    have hlevel : ∀ node ∈ temp.nodes, Sched.queueIndex (S₁.processes node.2) ∈ levels := by
      intro node hnode
      obtain ⟨hsched, htemp⟩ := Prod.mk.inj (hfilled fun _ => true)
      have hmem : node.2 ∈ temp.nodes.map Prod.snd := List.mem_map_of_mem hnode
      rw [htemp, Sched.fillTemp_served fun n _ => rfl] at hmem
      have hgraded : Sched.Graded ((Sched.fillTemp ((S₀.priorityQueues i).nodes.map Prod.snd)
          ((S₀.view fun _ => true).setQueue i []) []).1.processes node.2) :=
        Sched.fillTemp_graded (A := fun p => p ∈ (S.view fun _ => true).priorityQueues i)
          (s := (S₀.view fun _ => true).setQueue i []) hrun
          (fun p hp => hranked p (.inr ⟨i, hp⟩)) node.2 hmem
      have hblock := congrArg (fun T : Sched => T.processes node.2) hsched
      change S₁.processes node.2 = _ at hblock
      rw [hblock]
      exact Sched.queueIndex_mem hgraded.priority
    obtain ⟨S₂, hrequeue, hI₂, hheld₂, hview₂⟩ := requeue_spec hM hI₁ hlevel hheld₁
    have hown : (temp.addr, nodeSize) ∈ S₂.session.live := by
      refine hheld₂.mem ?_
      rw [List.count_singleton, if_pos (by simp)]
      omega
    obtain ⟨u, hfree, hu⟩ := hM.free hI₂ hown
    have hfreeQueue : freeQueue M S₂.session ⟨temp.addr, []⟩ = some u := hfree
    refine ⟨{ S₂ with session := u }, [true], ?_, hu, ?_, fun gots => ?_⟩
    · rw [hfill, Option.bind_some]
      dsimp only
      rw [hrequeue, Option.bind_some, hfreeQueue]
      rfl
    · refine (hheld₂.free (Session.free_live hfree)).congr rfl fun a => ?_
      rw [List.count_singleton]
      simp only [beq_iff_eq, eq_comm (a := a)]
      exact (Nat.add_sub_cancel _ _).symm
    · have hblock : ¬¬(S.view (answers ([true] ++ gots))).blocks 0 = true := not_not.mpr rfl
      rw [Sched.ageQueue, if_neg (hview _), if_neg hblock]
      have hpair := hfilled (answers gots)
      change S₂.view (answers gots) = _
      rw [hview₂]
      exact congrArg (fun r : Sched × List ℤ => Sched.requeue r.2 r.1) hpair

/-- The pass over some queues. -/
theorem agePass_spec (hM : Serves M I) : ∀ {is : List ℤ} {S : NodeSched σ}, (∀ i ∈ is, i ∈ levels) →
    I S.session → HeldBlocks S.session S.parts → (S.view fun _ => true).Ranked →
      (∀ p, (S.processes p).state ≠ ProcessState.RUNNING) →
      ∃ S' got, agePass M is S = some (S', got) ∧ I S'.session ∧ HeldBlocks S'.session S'.parts ∧
        ∀ gots, S'.view (answers gots) = is.foldl Sched.ageQueue (S.view (answers (got ++ gots)))
  | [], S, _, hI, h, _, _ => ⟨S, [], rfl, hI, h, fun _ => rfl⟩
  | i :: is, S, hlevels, hI, h, hranked, hrun => by
      obtain ⟨S₁, got, hage, hI₁, h₁, hview₁⟩ :=
        ageQueue_spec hM (hlevels i List.mem_cons_self) hI h hranked hrun
      -- what the rest of the pass needs is kept by the queue on lists
      have hlist := hview₁ []
      have hranked₁ : (S₁.view fun _ => true).Ranked := by
        have hkept : ((S.view (answers (got ++ []))).ageQueue i).Ranked :=
          Sched.ageQueue_ranked hranked hrun
        rw [← hlist] at hkept
        exact hkept
      have hrun₁ : ∀ p, (S₁.processes p).state ≠ ProcessState.RUNNING := by
        intro p
        have hblock := congrArg (fun T : Sched => (T.processes p).state) hlist
        rw [Sched.ageQueue_aged.state] at hblock
        change (S₁.processes p).state = (S.processes p).state at hblock
        rw [hblock]
        exact hrun p
      obtain ⟨S₂, gots, hpass, hI₂, h₂, hview₂⟩ := agePass_spec hM
        (fun j hj => hlevels j (List.mem_cons_of_mem _ hj)) hI₁ h₁ hranked₁ hrun₁
      refine ⟨S₂, got ++ gots, ?_, hI₂, h₂, fun more => ?_⟩
      · rw [agePass, hage, Option.bind_some]
        dsimp only
        rw [hpass]
        rfl
      · rw [hview₂, hview₁, List.append_assoc, List.foldl_cons]

/-- The queues as lists. -/
def lists (S : NodeSched σ) : Sched := S.view fun _ => true

/-- **A pass on the heap.** Whatever the heap holds, the pass of the aging returns, nobody
is lost, and every block that the queues are made of is held by one of them. When no call
of `newQueue` failed and nobody is queued twice, everybody is in the queue of its priority
afterwards, those that kept theirs first and in order. -/
theorem applyAging_heap (l : Linked) (S : NodeSched l.Heap) (hheap : l.Reachable S.session)
    (hheld : HeldBlocks S.session S.parts) (hranked : S.lists.Ranked)
    (hrun : ∀ p, (S.processes p).state ≠ ProcessState.RUNNING) :
    ∃ S' got, S.applyAging l.manager = some (S', got) ∧ l.Reachable S'.session ∧
      HeldBlocks S'.session S'.parts ∧ (∀ p, S'.lists.entries p = S.lists.entries p) ∧
      ((∀ b ∈ got, b = true) → S.lists.Single → ∀ k ∈ levels, ∃ stay arrived,
        Sched.Aligned S.lists S'.lists k stay arrived) := by
  obtain ⟨S', got, hpass, hheap', hheld', hview⟩ :=
    agePass_spec l.serves (fun _ hi => hi) hheap hheld hranked hrun
  have hlists := hview []
  rw [List.append_nil] at hlists
  have hlists' : S'.lists = (S.view (answers got)).applyAging := by
    rw [← show S'.view (answers []) = S'.lists from rfl]
    exact hlists
  refine ⟨S', got, hpass, hheap', hheld', fun p => ?_, fun hgot hsingle k hk => ?_⟩
  · rw [hlists']
    exact Sched.applyAging_entries (s := S.view (answers got)) hranked hrun fun n _ => rfl
  · have hanswers : answers got = fun _ => true := by
      funext n
      unfold answers
      rw [List.getD_eq_getElem?_getD]
      cases hn : got[n]? with
      | none => rfl
      | some b => exact hgot b (List.mem_of_getElem? hn)
    rw [hlists', hanswers]
    exact Sched.applyAging_aligned hsingle (fun n _ => rfl) (fun n _ => rfl) hranked hrun hk

/-! ## A pass that is run -/

/-- PID 3 is due to rise, PID 4 has the same priority, and PID 5 two more. -/
def waitingProcess : ℤ → Process
  | 3 => { Machine.emptyProcess with
      priority := 1, originalPriority := 1, agingCounter := 14, state := .READY }
  | 4 => { Machine.emptyProcess with priority := 1, originalPriority := 1, state := .READY }
  | 5 => { Machine.emptyProcess with priority := 3, originalPriority := 3, state := .READY }
  | _ => Machine.emptyProcess

/-- They wait in their queues, on a heap that holds the five queues and the three nodes. -/
def waiting (s : Session NaiveManager.Heap) : NodeSched NaiveManager.Heap where
  session := s
  processes := waitingProcess
  priorityQueues := fun i => ⟨memoryStart + 24 + 40 * i.toNat,
    if i = 0 then [(memoryStart + 24 + 40 * 5, 3), (memoryStart + 24 + 40 * 6, 4)]
    else if i = 2 then [(memoryStart + 24 + 40 * 7, 5)] else []⟩

theorem waiting_held {s : Session NaiveManager.Heap}
    (hlive : ∀ i < 8, (memoryStart + 24 + 40 * i, nodeSize) ∈ s.live) :
    HeldBlocks s (waiting s).parts := by
  have hparts : ∀ a, (waiting s).parts a =
      ([0, 5, 6, 1, 2, 7, 3, 4].map fun i => memoryStart + 24 + 40 * i).count a := by
    intro a
    simp [parts, MultiQueue.entries, levels, waiting, NodeQueue.addrs, List.count_cons]
    omega
  intro a
  rw [hparts]
  refine ⟨List.nodup_iff_count_le_one.mp (by decide) a, fun hpos => ?_⟩
  obtain ⟨i, hi, rfl⟩ := List.mem_map.mp (List.count_pos_iff.mp hpos)
  refine hlive i ?_
  revert i
  decide

theorem waitingProcess_empty {p : ℤ} (hp : p ∉ [3, 4, 5]) :
    waitingProcess p = Machine.emptyProcess := by
  simp only [List.mem_cons, List.not_mem_nil, or_false, not_or] at hp
  unfold waitingProcess
  split
  · exact absurd rfl hp.1
  · exact absurd rfl hp.2.1
  · exact absurd rfl hp.2.2
  · rfl

theorem mem_waiting {s : Session NaiveManager.Heap} {p i : ℤ}
    (hp : p ∈ (waiting s).lists.priorityQueues i) : p ∈ [3, 4, 5] := by
  change p ∈ (if i = 0 then _ else if i = 2 then _ else []).map Prod.snd at hp
  split at hp
  · exact List.mem_of_mem_take (i := 2) (l := [3, 4, 5]) hp
  · split at hp
    · exact List.mem_of_mem_drop (i := 2) (l := [3, 4, 5]) hp
    · exact absurd hp List.not_mem_nil

theorem waiting_ranked (s : Session NaiveManager.Heap) : (waiting s).lists.Ranked := by
  intro p hp
  by_cases hwaits : p ∈ ([3, 4, 5] : List ℤ)
  · change Sched.Graded (waitingProcess p)
    simp only [List.mem_cons, List.not_mem_nil, or_false] at hwaits
    rcases hwaits with rfl | rfl | rfl
    all_goals
      exact ⟨by decide, by decide, .inl (by decide), fun hrun => absurd hrun (by decide)⟩
  · exfalso
    rcases hp with halive | ⟨i, hi⟩
    · exact halive (congrArg Process.state (waitingProcess_empty hwaits))
    · exact hwaits (mem_waiting hi)

/-- Nobody is lost, and if every `newQueue` succeeded the queues are in order. -/
theorem applyAging_heap_waiting : ∃ s S' got,
    (waiting s).applyAging NaiveManager.manager = some (S', got) ∧
      (∀ p ∈ [3, 4, 5], S'.lists.entries p = 1) ∧
        ((∀ b ∈ got, b = true) → ∀ k ∈ levels, ∃ stay arrived,
          Sched.Aligned (waiting s).lists S'.lists k stay arrived) := by
  obtain ⟨s, hrun, -, hlive⟩ := naive_packed 8 (by decide)
  obtain ⟨S', got, hpass, -, -, hentries, haligned⟩ := applyAging_heap .naive (waiting s)
    ⟨_, hrun⟩ (waiting_held hlive) (waiting_ranked s) (by
      intro p
      change (waitingProcess p).state ≠ ProcessState.RUNNING
      unfold waitingProcess
      split <;> decide)
  have hone : ∀ p ∈ [3, 4, 5], (waiting s).lists.entries p = 1 := by
    intro p hp
    simp only [List.mem_cons, List.not_mem_nil, or_false] at hp
    rcases hp with rfl | rfl | rfl <;> rfl
  refine ⟨s, S', got, hpass, fun p hp => (hentries p).trans (hone p hp), fun hgot => ?_⟩
  refine haligned hgot fun p => ?_
  by_cases hp : p ∈ ([3, 4, 5] : List ℤ)
  · exact (hone p hp).le
  · have hnone : (waiting s).lists.entries p = 0 :=
      MultiQueue.entries_eq_zero.mpr fun i _ hi => hp (mem_waiting hi)
    exact hnone.le.trans (Nat.zero_le 1)

end NodeSched

/-- **A process queued twice is left behind**: PID 3 stands in the queues of priority 4
and 5. The second entry is aged after the first has been put back, and brings its
priority down to 3, although every allocation succeeds. -/
theorem Sched.aging_misplaces : ¬∀ s : Sched, s.Ranked →
    (∀ p, (s.processes p).state ≠ ProcessState.RUNNING) → (∀ n, s.nodes n = true) →
      (∀ n, s.blocks n = true) → s.applyAging.InOrder Sched.levels := by
  intro hall
  have hqueue := hall Sched.queuedTwice Sched.queuedTwice_regular.1 ?_
    (fun n => congrFun Sched.booted_nodes n) Sched.queuedTwice_blocks 3 (by decide) 3
    (by decide +kernel)
  · exact absurd hqueue (by decide +kernel)
  · intro p hrun
    unfold Sched.queuedTwice at hrun
    dsimp only at hrun
    split at hrun
    · exact absurd hrun (by decide)
    · split at hrun
      · exact absurd hrun (by decide)
      · split at hrun <;> exact absurd hrun (by decide)

end BareKernel.Kernel
