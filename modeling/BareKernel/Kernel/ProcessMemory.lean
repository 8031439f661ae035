import BareKernel.Kernel.AgingHeap
import BareKernel.Memory.HonestHeap

/-!
# The memory of a process

`createProcess` of `Kernel/process/process.c` with the calls it makes of the heap and the bytes
it writes: the stack, the vector of the arguments and their copies, and everything that is given
back when one of them cannot be had.
-/

namespace BareKernel.Kernel

open ByteMemory ProcessState

/-- A string argument: the bytes from its pointer on, of which the first zero is the end. -/
structure Argument where
  bytes : ℕ → UInt8
  length : ℕ
  ends : bytes length = 0
  before : ∀ i < length, bytes i ≠ 0

namespace Argument

/-- `int len = strlen(argv[i])`: the length is cut down to 32 bits. -/
def len (a : Argument) : Int32 := Int32.ofNat a.length

/-- The size that `allocMemory` sees. -/
def request (a : Argument) : UInt32 := (a.len + 1).toUInt32

/-- The length that `memcpy` sees. -/
def copied (a : Argument) : ℕ := (a.len + 1).toInt64.toUInt64.toNat

end Argument

/-- `creationParameters` with its arguments. -/
structure ProcessParameters extends CreationParameters where
  argv : ℕ → Argument

/-- `STACK_SIZE`. -/
def stackSize : UInt32 := 4096

/-- `params->argc * sizeof(char *)`, as `allocMemory` sees it. -/
def argsSize (argc : Int32) : UInt32 := (argc.toInt64.toUInt64 * 8).toUInt32

/-- `args[i]`. -/
def argField (i : ℕ) : Field := ⟨8 * i, 8⟩

def copyBytes (m : Mem) (destination length : ℕ) (source : ℕ → UInt8) : Mem :=
  fun a => if destination ≤ a ∧ a < destination + length then source (a - destination) else m a

/-! ## One call and its log -/

/-- What a write goes to. -/
inductive Destination : Type where
  | name
  | args
  | argument (i : ℕ)
deriving DecidableEq, Repr

/-- A write to a place of `size` bytes. -/
structure Write where
  destination : Destination
  size : ℕ
  offset : ℕ
  length : ℕ
deriving DecidableEq, Repr

/-- The write stays inside its place. -/
def Write.Inside (w : Write) : Prop := w.offset + w.length ≤ w.size

/-- The heap in the course of a call, with the blocks obtained, the pointers given back and the
writes made so far, the latest first. -/
structure Client (σ : Type) where
  session : Session σ
  obtained : List ℕ
  freed : List ℕ
  writes : List Write

namespace Client

variable {σ : Type} (M : Manager σ)

def start (s : Session σ) : Client σ := ⟨s, [], [], []⟩

def alloc (k : Client σ) (size : UInt32) : Option (ℕ × Client σ) :=
  (k.session.alloc M size).map fun (p, s) =>
    (p, { k with session := s, obtained := if p = NULL then k.obtained else p :: k.obtained })

def free (k : Client σ) (p : ℕ) : Option (Client σ) :=
  (k.session.free M p).map fun s => { k with session := s, freed := p :: k.freed }

def mem (k : Client σ) : Mem := M.mem k.session.heap

/-- The memory is written to. -/
def write (k : Client σ) (w : Write) (m : Mem) : Client σ :=
  { k with
    session := { k.session with heap := M.withMem k.session.heap m }
    writes := w :: k.writes }

/-- `args[i] = p`. -/
def storeArg (k : Client σ) (params : ProcessParameters) (args i p : ℕ) : Client σ :=
  k.write M ⟨.args, (argsSize params.argc).toNat, 8 * i, 8⟩ ((argField i).set (k.mem M) args p)

/-- `memcpy(args[i], params->argv[i], len + 1)`. -/
def copyArg (k : Client σ) (params : ProcessParameters) (i p : ℕ) : Client σ :=
  let a := params.argv i
  k.write M ⟨.argument i, a.request.toNat, 0, a.copied⟩ (copyBytes (k.mem M) p a.copied a.bytes)

/-- Free `args[j]` and so on, `n` of them. -/
def freeArgs (args : ℕ) : ℕ → ℕ → Client σ → Option (Client σ)
  | _, 0, k => some k
  | j, n + 1, k => (k.free M ((argField j).get (k.mem M) args)).bind (freeArgs args (j + 1) n)

/-- The loop over the arguments, from `i` on: whether all were copied. Otherwise everything has
been given back. -/
def fillArgs (params : ProcessParameters) (stackLimit args : ℕ) :
    ℕ → ℕ → Client σ → Option (Bool × Client σ)
  | _, 0, k => some (true, k)
  | i, n + 1, k =>
      (k.alloc M (params.argv i).request).bind fun (p, k) =>
        let k := k.storeArg M params args i p
        if p = NULL then
          (freeArgs M args 0 i k).bind fun k => (k.free M args).bind fun k =>
            (k.free M stackLimit).map fun k => (false, k)
        else fillArgs params stackLimit args (i + 1) n (k.copyArg M params i p)

end Client

/-! ## `createProcess` -/

/-- The heap, the process table with the addresses it holds, and the ready queues. -/
structure ProcessHeap (σ : Type) extends NodeSched σ where
  /-- `stackBase` of each process. -/
  stackBase : ℤ → ℕ
  argv : ℤ → ℕ

/-- What a call returns and leaves behind. -/
structure Creation (σ : Type) where
  pid : ℤ
  state : ProcessHeap σ
  client : Client σ

namespace ProcessHeap

variable {σ : Type} (M : Manager σ)

def getFreeProcess (S : ProcessHeap σ) : Option ℤ :=
  pids.find? fun pid => (S.processes pid).state = EXITED

/-- The parameters that are refused before anything is allocated. -/
def refused (params : ProcessParameters) : Bool :=
  !checkPriority params.priority ∨ params.argc < 0 ∨ params.entryPoint = 0 ∨ !checkName params.name

/-- The call fails, and the state is the one of its client. -/
def fails (S : ProcessHeap σ) (k : Client σ) : Creation σ :=
  ⟨-1, { S with session := k.session }, k⟩

def schedule (S : ProcessHeap σ) (pid : ℤ) : Option (ProcessHeap σ) :=
  if checkPriority (S.processes pid).priority then
    let i := Sched.queueIndex (S.processes pid)
    (queue M S.session (S.priorityQueues i) pid).map fun (q, s) =>
      { S with session := s, priorityQueues := Function.update S.priorityQueues i q }
  else some S

/-- The slot is filled and the process is scheduled. -/
def fillSlot (S : ProcessHeap σ) (pid : ℤ) (name : List UInt8) (params : ProcessParameters)
    (stackLimit args : ℕ) (k : Client σ) : Option (Creation σ) :=
  let k := { k with writes := ⟨.name, maxNameLength, 0, name.length + 1⟩ :: k.writes }
  let p := Machine.newProcess (S.processes pid) name params.toCreationParameters
  let S : ProcessHeap σ :=
    { S with
      session := k.session
      processes := Function.update S.processes pid p
      stackBase := Function.update S.stackBase pid (stackLimit + stackSize.toNat)
      argv := Function.update S.argv pid args }
  (S.schedule M pid).map fun S => ⟨pid, S, { k with session := S.session }⟩

/-- After the loop over the arguments: a free slot is taken, or everything is given back. -/
def takeSlot (S : ProcessHeap σ) (name : List UInt8) (params : ProcessParameters)
    (stackLimit args : ℕ) : Bool × Client σ → Option (Creation σ)
  | (false, k) => some (S.fails k)
  | (true, k) =>
      match S.getFreeProcess with
      | none =>
          (k.free M stackLimit).bind fun k =>
            (k.freeArgs M args 0 params.argc.toInt.toNat).bind fun k => (k.free M args).map S.fails
      | some pid => S.fillSlot M pid name params stackLimit args k

def createProcess (S : ProcessHeap σ) : Option ProcessParameters → Option (Creation σ)
  | none => some (S.fails (.start S.session))
  | some params =>
      match params.name with
      | none => some (S.fails (.start S.session))
      | some name =>
          if refused params then some (S.fails (.start S.session))
          else
            ((Client.start S.session).alloc M stackSize).bind fun (stackLimit, k) =>
              -- the vector is only asked for when there is a stack, and arguments
              (if stackLimit = NULL ∨ params.argc = 0 then some (NULL, k)
                else k.alloc M (argsSize params.argc)).bind fun (args, k) =>
                if stackLimit = NULL ∨ (params.argc ≠ 0 ∧ args = NULL) then
                  (k.free M stackLimit).bind fun k => (k.free M args).map S.fails
                else
                  (k.fillArgs M params stackLimit args 0 params.argc.toInt.toNat).bind
                    (S.takeSlot M name params stackLimit args)

end ProcessHeap

/-! ## Sizes -/

theorem argsSize_toNat {argc : Int32} (h : 0 ≤ argc.toInt) :
    (argsSize argc).toNat = argc.toInt.toNat * 8 % 2 ^ 32 := by
  unfold argsSize
  rw [UInt64.toNat_toUInt32, UInt64.toNat_mul]
  have hint : argc.toInt64.toUInt64.toNat = argc.toInt.toNat := by
    have hwide : argc.toInt64.toBitVec.toInt = argc.toInt := Int32.toInt_toInt64 argc
    have hcond := BitVec.toInt_eq_toNat_cond argc.toInt64.toBitVec
    have hlt := argc.toInt64.toBitVec.isLt
    change argc.toInt64.toBitVec.toNat = _
    split at hcond <;> omega
  have height : (8 : UInt64).toNat = 8 := rfl
  rw [hint, height]
  omega

/-- A request that can be served is copied as it is. -/
theorem copied_of_servable {a : Argument} (h : Servable a.request) :
    a.copied = a.request.toNat := by
  have hlt := h.2
  unfold Argument.copied Argument.request at *
  generalize a.len + 1 = n at *
  have hwide : n.toInt64.toBitVec.toInt = n.toBitVec.toInt := Int32.toInt_toInt64 n
  have hcond := BitVec.toInt_eq_toNat_cond n.toBitVec
  have hcond' := BitVec.toInt_eq_toNat_cond n.toInt64.toBitVec
  have hbound := n.toInt64.toBitVec.isLt
  change n.toBitVec.toNat < 2 ^ 31 at hlt
  change n.toInt64.toBitVec.toNat = n.toBitVec.toNat
  split at hcond <;> split at hcond' <;> omega
/-! ## What a call owns -/

section Owned

variable {σ : Type} {M : Manager σ} {ok : UInt32 → Prop} {I : Session σ → Prop} {s₀ : Session σ}
  {own : List (ℕ × UInt32)} {k k' : Client σ} {p : ℕ} {size : UInt32}

/-- In the course of a call: it got the blocks `own` and gave some of them back, each once, and
the other blocks are as they were at its start, and so are their bytes. -/
structure Owns (M : Manager σ) (I : Session σ → Prop) (s₀ : Session σ) (own : List (ℕ × UInt32))
    (k : Client σ) : Prop where
  honest : I k.session
  live : k.session.live = (own ++ s₀.live).filter fun q => q.1 ∉ k.freed
  kept : Keeps M s₀ k.session
  obtained : k.obtained = own.map Prod.fst
  nodup : ((own ++ s₀.live).map Prod.fst).Nodup
  notNull : ∀ q ∈ own ++ s₀.live, q.1 ≠ NULL
  given : ∀ p ∈ k.freed, p = NULL ∨ p ∈ own.map Prod.fst
  once : (k.freed.filter fun p => p ≠ NULL).Nodup

theorem Owns.mem_live (h : Owns M I s₀ own k) {q : ℕ × UInt32} (hq : q ∈ own)
    (hheld : q.1 ∉ k.freed) : q ∈ k.session.live := by
  rw [h.live, List.mem_filter]
  exact ⟨List.mem_append_left _ hq, decide_eq_true hheld⟩

/-- The blocks that were there are still there. -/
theorem Owns.mem_others (h : Owns M I s₀ own k) {q : ℕ × UInt32} (hq : q ∈ s₀.live) :
    q ∈ k.session.live := by
  rw [h.live, List.mem_filter]
  refine ⟨List.mem_append_right _ hq, decide_eq_true fun hgiven => ?_⟩
  rcases h.given q.1 hgiven with hnull | hown
  · exact h.notNull q (List.mem_append_right _ hq) hnull
  · have hnodup := h.nodup
    rw [List.map_append, List.nodup_append] at hnodup
    exact hnodup.2.2 q.1 hown q.1 (List.mem_map_of_mem hq) rfl

theorem Owns.start (hM : Honest M ok I) (hI : I s₀) : Owns M I s₀ [] (Client.start s₀) where
  honest := hI
  live := by
    refine (List.filter_eq_self.mpr ?_).symm
    exact fun q _ => decide_eq_true List.not_mem_nil
  kept := fun _ _ => rfl
  obtained := rfl
  nodup := hM.nodup hI
  notNull := fun q hq => (hM.sized hI q hq).1
  given := fun _ hp => absurd hp List.not_mem_nil
  once := List.nodup_nil

/-- A block is asked for. -/
theorem Owns.alloc (hM : Honest M ok I) (h : Owns M I s₀ own k) (hfreed : k.freed = [])
    (size : UInt32) (hok : ok size) : ∃ p k', k.alloc M size = some (p, k') ∧ k'.freed = [] ∧
      k'.writes = k.writes ∧ Keeps M k.session k'.session ∧ (p = NULL → Owns M I s₀ own k') ∧
        (p ≠ NULL → Servable size ∧ Owns M I s₀ ((p, size) :: own) k') := by
  obtain ⟨p, t, halloc, ht, hkeeps, hserved⟩ := hM.alloc h.honest hok
  have hlive := Session.alloc_live halloc
  have hall : k.session.live = own ++ s₀.live := by
    rw [h.live, List.filter_eq_self, hfreed]
    exact fun q _ => decide_eq_true List.not_mem_nil
  have hkept : Keeps M s₀ t := fun a ha => by
    rw [hkeeps a (Session.requested_mono (fun q hq => h.mem_others hq) ha), h.kept a ha]
  have hnone : ∀ l : List (ℕ × UInt32), l = l.filter fun q => q.1 ∉ k.freed := by
    intro l
    rw [eq_comm, List.filter_eq_self, hfreed]
    exact fun q _ => decide_eq_true List.not_mem_nil
  refine ⟨p, _, Option.map_eq_some_iff.mpr ⟨(p, t), halloc, rfl⟩, hfreed, rfl, hkeeps, ?_, ?_⟩
  · intro hp
    subst hp
    rw [if_pos rfl, hall] at hlive
    exact ⟨ht, hlive.trans (hnone _), hkept, h.obtained, h.nodup, h.notNull, h.given, h.once⟩
  · intro hp
    rw [if_neg hp, hall] at hlive
    refine ⟨hserved hp, ht, hlive.trans (hnone _), hkept, ?_, ?_, ?_, ?_, h.once⟩
    · dsimp only
      rw [if_neg hp, h.obtained]
      rfl
    · have hnodup := hM.nodup ht
      rw [hlive] at hnodup
      exact hnodup
    · intro q hq
      apply (hM.sized ht q _).1
      rw [hlive]
      exact hq
    · intro q hq
      rw [hfreed] at hq
      exact absurd hq List.not_mem_nil

/-- A block of the call is given back. -/
theorem Owns.free (hM : Honest M ok I) (h : Owns M I s₀ own k) (hp : p ∈ own.map Prod.fst)
    (hheld : p ∉ k.freed) : ∃ k', k.free M p = some k' ∧ k'.freed = p :: k.freed ∧
      k'.writes = k.writes ∧ Owns M I s₀ own k' ∧
        ∀ a, k'.session.requested a → k'.mem M a = k.mem M a := by
  obtain ⟨q, hq, rfl⟩ := List.mem_map.mp hp
  have hlive := List.mem_map_of_mem (f := Prod.fst) (h.mem_live hq hheld)
  obtain ⟨t, hfree, ht, hkeeps⟩ := hM.free h.honest hlive
  have hnull := h.notNull q (List.mem_append_left _ hq)
  have hafter : t.live = (own ++ s₀.live).filter fun r => r.1 ∉ q.1 :: k.freed := by
    rw [Session.free_live hfree, h.live, List.filter_filter]
    apply List.filter_congr
    intro r _
    by_cases hr : r.1 = q.1 <;> simp [hr]
  have hothers : ∀ r ∈ s₀.live, r ∈ t.live := by
    intro r hr
    rw [Session.free_live hfree, List.mem_filter]
    refine ⟨h.mem_others hr, decide_eq_true fun heq => ?_⟩
    have hnodup := h.nodup
    rw [List.map_append, List.nodup_append] at hnodup
    exact hnodup.2.2 q.1 hp r.1 (List.mem_map_of_mem hr) heq.symm
  refine ⟨{ k with session := t, freed := q.1 :: k.freed },
    Option.map_eq_some_iff.mpr ⟨t, hfree, rfl⟩, rfl, rfl, ⟨ht, hafter, fun a ha => ?_, h.obtained,
      h.nodup, h.notNull, fun r hr => ?_, ?_⟩, hkeeps⟩
  · rw [hkeeps a (Session.requested_mono hothers ha)]
    exact h.kept a ha
  · rcases List.mem_cons.mp hr with rfl | hr
    · exact .inr hp
    · exact h.given r hr
  · change ((q.1 :: k.freed).filter fun p => p ≠ NULL).Nodup
    rw [List.filter_cons_of_pos (by simpa using hnull), List.nodup_cons]
    exact ⟨fun hmem => hheld (List.mem_filter.mp hmem).1, h.once⟩

/-- Nothing happens to the null pointer. -/
theorem Owns.freeNull (hM : Honest M ok I) (h : Owns M I s₀ own k) : ∃ k',
    k.free M NULL = some k' ∧ k'.freed = NULL :: k.freed ∧ k'.writes = k.writes ∧
      Owns M I s₀ own k' ∧ k'.session = k.session := by
  refine ⟨{ k with freed := NULL :: k.freed },
    Option.map_eq_some_iff.mpr ⟨k.session, hM.freeNull h.honest, rfl⟩, rfl, rfl,
      ⟨h.honest, ?_, h.kept, h.obtained, h.nodup, h.notNull, fun p hp => ?_, ?_⟩, rfl⟩
  · change k.session.live = (own ++ s₀.live).filter fun q => q.1 ∉ NULL :: k.freed
    rw [h.live]
    apply List.filter_congr
    intro q hq
    have hne := h.notNull q hq
    simp [hne]
  · rcases List.mem_cons.mp hp with rfl | hp
    · exact .inl rfl
    · exact h.given p hp
  · change ((NULL :: k.freed).filter fun p => p ≠ NULL).Nodup
    rw [List.filter_cons_of_neg (by simp)]
    exact h.once

/-- The call writes to a block that it holds. -/
theorem Owns.write (hM : Honest M ok I) (h : Owns M I s₀ own k) {q : ℕ × UInt32} (hq : q ∈ own)
    (hheld : q.1 ∉ k.freed) {m : Mem} (w : Write)
    (hm : ∀ a, a < q.1 ∨ q.1 + q.2.toNat ≤ a → m a = k.mem M a) :
    Owns M I s₀ own (k.write M w m) := by
  have hlive := h.mem_live hq hheld
  refine ⟨hM.write h.honest fun a ha => hm a ?_, h.live, fun a ha => ?_, h.obtained, h.nodup,
    h.notNull, h.given, h.once⟩
  · by_contra hin
    exact ha (Session.requested_of_mem hlive (by omega) (by omega))
  · change M.mem (M.withMem k.session.heap m) a = _
    rw [hM.mem_withMem, ← h.kept a ha]
    obtain ⟨r, hr, hlow, hhigh⟩ := ha
    apply hm a
    -- the block of the call and the other one are two blocks, so they lie apart
    have hne : q ≠ r := by
      rintro rfl
      have hnodup := h.nodup
      rw [List.map_append, List.nodup_append] at hnodup
      exact hnodup.2.2 q.1 (List.mem_map_of_mem hq) q.1 (List.mem_map_of_mem hr) rfl
    have hclear := hM.clear h.honest hlive (h.mem_others hr) hne
    omega

/-- Everything was given back, and nothing else. -/
structure Restored (M : Manager σ) (s₀ : Session σ) (k : Client σ) : Prop where
  live : k.session.live = s₀.live
  kept : Keeps M s₀ k.session
  once : k.obtained.Nodup
  given : (k.freed.filter fun p => p ≠ NULL).Perm k.obtained

theorem Owns.restored (h : Owns M I s₀ own k) (hall : ∀ p ∈ own.map Prod.fst, p ∈ k.freed) :
    Restored M s₀ k := by
  have hnodup := h.nodup
  rw [List.map_append, List.nodup_append] at hnodup
  refine ⟨?_, h.kept, ?_, ?_⟩
  · rw [h.live, List.filter_append]
    have hown : own.filter (fun q => q.1 ∉ k.freed) = [] := by
      rw [List.filter_eq_nil_iff]
      intro q hq
      simp [hall q.1 (List.mem_map_of_mem hq)]
    have hothers : s₀.live.filter (fun q => q.1 ∉ k.freed) = s₀.live := by
      rw [List.filter_eq_self]
      intro q hq
      refine decide_eq_true fun hgiven => ?_
      rcases h.given q.1 hgiven with hnull | hmem
      · exact h.notNull q (List.mem_append_right _ hq) hnull
      · exact hnodup.2.2 q.1 hmem q.1 (List.mem_map_of_mem hq) rfl
    rw [hown, hothers]
    rfl
  · rw [h.obtained]
    exact hnodup.1
  · rw [h.obtained, List.perm_ext_iff_of_nodup h.once hnodup.1]
    intro p
    rw [List.mem_filter, decide_eq_true_eq]
    constructor
    · rintro ⟨hgiven, hp⟩
      exact (h.given p hgiven).resolve_left hp
    · intro hp
      obtain ⟨q, hq, rfl⟩ := List.mem_map.mp hp
      exact ⟨hall q.1 hp, h.notNull q (List.mem_append_left _ hq)⟩

/-! ## The vector of the arguments -/

/-- The pointer in `args[j]`. -/
def Client.slot (M : Manager σ) (k : Client σ) (args j : ℕ) : ℕ := (argField j).get (k.mem M) args

theorem slot_congr {args j : ℕ} (h : AgreeOn (k.mem M) (k'.mem M) (args + 8 * j) 8) :
    k'.slot M args j = k.slot M args j :=
  load_congr h

/-- The block `args` is held, so its bytes stay when others are given back. -/
theorem slot_kept {args j : ℕ} (hargs : (args, size) ∈ k'.session.live)
    (hj : 8 * j + 8 ≤ size.toNat)
    (hkeeps : ∀ a, k'.session.requested a → k'.mem M a = k.mem M a) :
    k'.slot M args j = k.slot M args j := by
  apply slot_congr
  intro a hlow hhigh
  exact hkeeps a (Session.requested_of_mem hargs (by simp only; omega) (by simp only; omega))

theorem Owns.freeArgs (hM : Honest M ok I) {args : ℕ} (hargs : (args, size) ∈ own) :
    ∀ {n j : ℕ} {k : Client σ}, Owns M I s₀ own k → args ∉ k.freed → 8 * (j + n) ≤ size.toNat →
      ((List.range' j n).map (k.slot M args)).Nodup →
      (∀ i ∈ List.range' j n, k.slot M args i ∈ own.map Prod.fst ∧ k.slot M args i ∉ k.freed ∧
        k.slot M args i ≠ args) →
      ∃ k', k.freeArgs M args j n = some k' ∧ Owns M I s₀ own k' ∧ k'.writes = k.writes ∧
        k'.freed = ((List.range' j n).map (k.slot M args)).reverse ++ k.freed
  | 0, _, k, h, _, _, _, _ => ⟨k, rfl, h, rfl, rfl⟩
  | n + 1, j, k, h, hheld, hroom, hnodup, hslots => by
      rw [List.range'_succ, List.map_cons, List.nodup_cons] at hnodup
      obtain ⟨hmem, hnew, hne⟩ := hslots j (by rw [List.range'_succ]; exact List.mem_cons_self)
      obtain ⟨k₁, hfree, hfreed, hwrites, hk₁, hkeeps⟩ := h.free hM hmem hnew
      have hheld' : args ∉ k₁.freed := by
        rw [hfreed, List.mem_cons, not_or]
        exact ⟨Ne.symm hne, hheld⟩
      have hsame : ∀ i ∈ List.range' (j + 1) n, k₁.slot M args i = k.slot M args i := by
        intro i hi
        rw [List.mem_range'_1] at hi
        exact slot_kept (hk₁.mem_live hargs hheld') (by omega) hkeeps
      have hmap : (List.range' (j + 1) n).map (k₁.slot M args) =
          (List.range' (j + 1) n).map (k.slot M args) := List.map_congr_left hsame
      obtain ⟨k', hrest, hk', hwrites', hfreed'⟩ :=
        Owns.freeArgs hM hargs (n := n) (j := j + 1) hk₁ hheld'
        (by omega)
        (by rw [hmap]; exact hnodup.2) (fun i hi => by
          obtain ⟨hown, hnot, hneq⟩ := hslots i (by
            rw [List.range'_succ]
            exact List.mem_cons_of_mem _ hi)
          rw [hsame i hi, hfreed, List.mem_cons, not_or]
          refine ⟨hown, ⟨fun heq => hnodup.1 ?_, hnot⟩, hneq⟩
          rw [← heq]
          exact List.mem_map_of_mem hi)
      refine ⟨k', ?_, hk', hwrites'.trans hwrites, ?_⟩
      · unfold Client.freeArgs
        change (k.free M (k.slot M args j)).bind _ = _
        rw [hfree]
        exact hrest
      · rw [hfreed', hmap, hfreed, List.range'_succ, List.map_cons, List.reverse_cons,
          List.append_assoc]
        rfl

/-- After `i` rounds of the loop: the first `i` entries of the vector point to the copies. -/
structure Filled (M : Manager σ) (I : Session σ → Prop) (s₀ : Session σ) (args stackLimit : ℕ)
    (size : UInt32) (i : ℕ) (k : Client σ) : Prop where
  owns : ∃ copies, Owns M I s₀ (copies ++ [(args, size), (stackLimit, stackSize)]) k ∧
    copies.map Prod.fst = ((List.range i).map (k.slot M args)).reverse
  freed : k.freed = []
  inside : ∀ w ∈ k.writes, w.Inside

variable {params : ProcessParameters} {args stackLimit i : ℕ}

/-- The copies and the vector are given back. -/
theorem Owns.giveArgs (hM : Honest M ok I) {copies : List (ℕ × UInt32)}
    (h : Owns M I s₀ (copies ++ [(args, size), (stackLimit, stackSize)]) k)
    (hcopies : copies.map Prod.fst = ((List.range i).map (k.slot M args)).reverse)
    (hfreed : ∀ p ∈ k.freed, p = stackLimit) (hroom : 8 * i ≤ size.toNat) : ∃ k₁ k₂,
      k.freeArgs M args 0 i = some k₁ ∧ k₁.free M args = some k₂ ∧
        Owns M I s₀ (copies ++ [(args, size), (stackLimit, stackSize)]) k₂ ∧
          k₂.freed = args :: copies.map Prod.fst ++ k.freed ∧ k₂.writes = k.writes := by
  have hnodup := h.nodup
  simp only [List.map_append, List.map_cons, List.map_nil] at hnodup
  obtain ⟨hblocks, -, -⟩ := List.nodup_append.mp hnodup
  obtain ⟨hcopy, htwo, hapart⟩ := List.nodup_append.mp hblocks
  have hne : args ≠ stackLimit := by
    rintro rfl
    simp at htwo
  have hargs : args ∉ k.freed := fun hmem => hne (hfreed args hmem)
  have hrange : List.range' 0 i = List.range i := List.range_eq_range'.symm
  have hslots : (List.range i).map (k.slot M args) = (copies.map Prod.fst).reverse := by
    rw [hcopies, List.reverse_reverse]
  obtain ⟨k₁, hfree₁, hown₁, hwrites₁, hfreed₁⟩ := Owns.freeArgs hM
    (show (args, size) ∈ _ by simp) (n := i) (j := 0) h hargs (by omega)
    (by rw [hrange, hslots, List.nodup_reverse]; exact hcopy) (fun j hj => by
      rw [hrange] at hj
      have hmem : k.slot M args j ∈ copies.map Prod.fst := by
        rw [hcopies, List.mem_reverse]
        exact List.mem_map_of_mem hj
      refine ⟨?_, fun hgiven => ?_, hapart _ hmem args List.mem_cons_self⟩
      · rw [List.map_append]
        exact List.mem_append_left _ hmem
      · exact hapart _ hmem stackLimit (by simp) (hfreed _ hgiven))
  rw [hrange, hslots, List.reverse_reverse] at hfreed₁
  obtain ⟨k₂, hfree₂, hfreed₂, hwrites₂, hown₂, -⟩ := hown₁.free hM (p := args) (by simp) (by
    rw [hfreed₁, List.mem_append, not_or]
    exact ⟨fun hmem => hapart args hmem args List.mem_cons_self rfl, hargs⟩)
  exact ⟨k₁, k₂, hfree₁, hfree₂, hown₂, by rw [hfreed₂, hfreed₁]; rfl, by rw [hwrites₂, hwrites₁]⟩

/-- **The loop gives everything back**: the copies, the vector and the stack. -/
theorem Filled.release (hM : Honest M ok I) (h : Filled M I s₀ args stackLimit size i k)
    (hroom : 8 * i ≤ size.toNat) : ∃ k₁ k₂ k₃, k.freeArgs M args 0 i = some k₁ ∧
      k₁.free M args = some k₂ ∧ k₂.free M stackLimit = some k₃ ∧ Restored M s₀ k₃ ∧
        k₃.writes = k.writes := by
  obtain ⟨copies, hown, hcopies⟩ := h.owns
  obtain ⟨k₁, k₂, hfree₁, hfree₂, hown₂, hfreed₂, hwrites₂⟩ := hown.giveArgs hM hcopies
    (by rw [h.freed]; exact fun p hp => absurd hp List.not_mem_nil) hroom
  have hnodup := hown.nodup
  simp only [List.map_append, List.map_cons, List.map_nil] at hnodup
  obtain ⟨-, htwo, hapart⟩ := List.nodup_append.mp (List.nodup_append.mp hnodup).1
  obtain ⟨k₃, hfree₃, hfreed₃, hwrites₃, hown₃, -⟩ := hown₂.free hM (p := stackLimit) (by simp) (by
    rw [hfreed₂, h.freed, List.append_nil, List.mem_cons, not_or]
    refine ⟨fun heq => ?_, fun hmem => hapart stackLimit hmem stackLimit (by simp) rfl⟩
    rw [heq] at htwo
    simp at htwo)
  refine ⟨k₁, k₂, k₃, hfree₁, hfree₂, hfree₃, hown₃.restored fun p hp => ?_,
    hwrites₃.trans hwrites₂⟩
  rw [hfreed₃, hfreed₂, h.freed, List.append_nil]
  simp only [List.map_append, List.map_cons, List.map_nil, List.mem_append, List.mem_cons,
    List.not_mem_nil, or_false] at hp ⊢
  rcases hp with hp | rfl | rfl
  · exact .inr (.inr hp)
  · exact .inr (.inl rfl)
  · exact .inl rfl

/-- **So does the path without a free slot**, which starts with the stack. -/
theorem Filled.release_stack (hM : Honest M ok I) (h : Filled M I s₀ args stackLimit size i k)
    (hroom : 8 * i ≤ size.toNat) : ∃ k₁ k₂ k₃, k.free M stackLimit = some k₁ ∧
      k₁.freeArgs M args 0 i = some k₂ ∧ k₂.free M args = some k₃ ∧ Restored M s₀ k₃ ∧
        k₃.writes = k.writes := by
  obtain ⟨copies, hown, hcopies⟩ := h.owns
  obtain ⟨k₁, hfree₁, hfreed₁, hwrites₁, hown₁, hkeeps⟩ := hown.free hM (p := stackLimit) (by simp)
    (by rw [h.freed]; exact List.not_mem_nil)
  rw [h.freed] at hfreed₁
  have hnodup := hown.nodup
  simp only [List.map_append, List.map_cons, List.map_nil] at hnodup
  obtain ⟨-, htwo, -⟩ := List.nodup_append.mp (List.nodup_append.mp hnodup).1
  have hargs : (args, size) ∈ k₁.session.live := by
    refine hown₁.mem_live (by simp) ?_
    rw [hfreed₁, List.mem_singleton]
    rintro rfl
    simp at htwo
  have hcopies₁ : copies.map Prod.fst = ((List.range i).map (k₁.slot M args)).reverse := by
    rw [hcopies]
    congr 1
    apply List.map_congr_left
    intro j hj
    have hlt := List.mem_range.mp hj
    exact (slot_kept hargs (by omega) hkeeps).symm
  obtain ⟨k₂, k₃, hfree₂, hfree₃, hown₃, hfreed₃, hwrites₃⟩ := hown₁.giveArgs hM hcopies₁
    (by rw [hfreed₁]; exact fun p hp => List.mem_singleton.mp hp) hroom
  refine ⟨k₁, k₂, k₃, hfree₁, hfree₂, hfree₃, hown₃.restored fun p hp => ?_,
    hwrites₃.trans hwrites₁⟩
  rw [hfreed₃, hfreed₁]
  simp only [List.map_append, List.map_cons, List.map_nil, List.mem_append, List.mem_cons,
    List.not_mem_nil, or_false, List.cons_append] at hp ⊢
  rcases hp with hp | rfl | rfl
  · exact .inr (.inl hp)
  · exact .inl rfl
  · exact .inr (.inr rfl)

/-- The pointer is stored in the vector, which is held. -/
theorem Owns.storeArg (hM : Honest M ok I) {own : List (ℕ × UInt32)} (h : Owns M I s₀ own k)
    (hfreed : k.freed = []) (hargs : (args, argsSize params.argc) ∈ own)
    (hi : 8 * i + 8 ≤ (argsSize params.argc).toNat) (hp : p < 2 ^ 64) :
    Owns M I s₀ own (k.storeArg M params args i p) ∧
      (k.storeArg M params args i p).slot M args i = p ∧
        ∀ j < i, (k.storeArg M params args i p).slot M args j = k.slot M args j := by
  have hmem : (k.storeArg M params args i p).mem M = (argField i).set (k.mem M) args p :=
    hM.mem_withMem _ _
  refine ⟨h.write hM hargs (by rw [hfreed]; exact List.not_mem_nil) _ fun a ha => ?_, ?_, ?_⟩
  · apply store_outside
    simp only [argField] at ha ⊢
    omega
  · unfold Client.slot
    rw [hmem]
    exact Field.get_set_self _ _ hp
  · intro j hj
    unfold Client.slot
    rw [hmem]
    apply Field.get_set_apart
    unfold Field.Apart argField
    dsimp only
    omega

/-- **One round of the loop**, as long as there is room in the vector. -/
theorem Filled.round (hM : Honest M ok I)
    (h : Filled M I s₀ args stackLimit (argsSize params.argc) i k)
    (hi : 8 * i + 8 ≤ (argsSize params.argc).toNat) (hok : ok (params.argv i).request) :
    ∃ p k₁, k.alloc M (params.argv i).request = some (p, k₁) ∧
      (p = NULL → Filled M I s₀ args stackLimit (argsSize params.argc) i
        (k₁.storeArg M params args i p)) ∧
      (p ≠ NULL → Servable (params.argv i).request ∧
        Filled M I s₀ args stackLimit (argsSize params.argc) (i + 1)
          ((k₁.storeArg M params args i p).copyArg M params i p)) := by
  obtain ⟨copies, hown, hcopies⟩ := h.owns
  obtain ⟨p, k₁, halloc, hfreed₁, hwrites₁, hkeeps₁, hnull, hserved⟩ := hown.alloc hM h.freed _ hok
  have hstored : ∀ k' : Client σ, k'.writes = k.writes →
      ∀ w ∈ (k'.storeArg M params args i p).writes, w.Inside := by
    intro k' hwrites w hw
    rcases List.mem_cons.mp hw with rfl | hw
    · exact hi
    · exact h.inside w (by rwa [← hwrites])
  have hslot₁ : ∀ j < i, k₁.slot M args j = k.slot M args j := by
    intro j hj
    apply slot_congr
    intro a hlow hhigh
    have hargs := hown.mem_live (q := (args, argsSize params.argc)) (by simp)
      (by rw [h.freed]; exact List.not_mem_nil)
    exact hkeeps₁ a (Session.requested_of_mem hargs (by simp only; omega) (by simp only; omega))
  refine ⟨p, k₁, halloc, fun hp => ?_, fun hp => ?_⟩
  · obtain ⟨hown₂, -, hslot₂⟩ := (hnull hp).storeArg hM (i := i) (p := p) hfreed₁
      (show (args, argsSize params.argc) ∈ _ by simp) hi (by rw [hp]; decide)
    refine ⟨⟨copies, hown₂, ?_⟩, hfreed₁, hstored k₁ hwrites₁⟩
    rw [hcopies]
    congr 1
    apply List.map_congr_left
    intro j hj
    rw [hslot₂ j (List.mem_range.mp hj), hslot₁ j (List.mem_range.mp hj)]
  · obtain ⟨hservable, hown₁⟩ := hserved hp
    have hpos : p < 2 ^ 64 := by
      have hlive := hown₁.mem_live (q := (p, (params.argv i).request)) List.mem_cons_self
        (by rw [hfreed₁]; exact List.not_mem_nil)
      exact (hM.sized hown₁.honest _ hlive).2.2
    obtain ⟨hown₂, hself, hslot₂⟩ := hown₁.storeArg hM (i := i) (p := p) hfreed₁
      (show (args, argsSize params.argc) ∈ _ by simp) hi hpos
    have hcopied := copied_of_servable hservable
    have hheld : ∀ q : ℕ, q ∉ (k₁.storeArg M params args i p).freed := by
      intro q
      change q ∉ k₁.freed
      rw [hfreed₁]
      exact List.not_mem_nil
    have hmem : ((k₁.storeArg M params args i p).copyArg M params i p).mem M =
        copyBytes ((k₁.storeArg M params args i p).mem M) p (params.argv i).copied
          (params.argv i).bytes := hM.mem_withMem _ _
    have hown₃ := hown₂.write hM (q := (p, (params.argv i).request)) List.mem_cons_self (hheld p)
      (m := copyBytes ((k₁.storeArg M params args i p).mem M) p (params.argv i).copied
        (params.argv i).bytes)
      ⟨.argument i, (params.argv i).request.toNat, 0, (params.argv i).copied⟩ fun a ha => by
        unfold copyBytes
        rw [if_neg]
        rw [hcopied]
        dsimp only at ha
        omega
    -- the copy lies apart from the vector
    have hslot₃ : ∀ j ≤ i, ((k₁.storeArg M params args i p).copyArg M params i p).slot M args j =
        (k₁.storeArg M params args i p).slot M args j := by
      intro j hj
      apply slot_congr
      intro a hlow hhigh
      have hargs := hown₂.mem_live (q := (args, argsSize params.argc)) (by simp) (hheld args)
      have hcopy := hown₂.mem_live (q := (p, (params.argv i).request)) List.mem_cons_self (hheld p)
      have hne : (p, (params.argv i).request) ≠ (args, argsSize params.argc) := by
        intro heq
        have hnodup := hown₂.nodup
        simp only [List.cons_append, List.map_cons, List.nodup_cons] at hnodup
        apply hnodup.1
        rw [(Prod.mk.inj heq).1]
        simp
      have hclear := hM.clear hown₂.honest hcopy hargs hne
      rw [hmem]
      unfold copyBytes
      rw [if_neg]
      rw [hcopied]
      dsimp only at hclear
      omega
    refine ⟨hservable, ⟨(p, (params.argv i).request) :: copies, hown₃, ?_⟩, hfreed₁, fun w hw => ?_⟩
    · rw [List.range_succ, List.map_append, List.reverse_append, List.map_cons, hcopies]
      simp only [List.map_cons, List.map_nil, List.reverse_cons, List.reverse_nil, List.nil_append,
        List.singleton_append]
      rw [hslot₃ i le_rfl, hself]
      congr 2
      apply List.map_congr_left
      intro j hj
      have hlt := List.mem_range.mp hj
      rw [hslot₃ j (Nat.le_of_lt hlt), hslot₂ j hlt, hslot₁ j hlt]
    · rcases List.mem_cons.mp hw with rfl | hw
      · unfold Write.Inside
        dsimp only
        omega
      · exact hstored k₁ hwrites₁ w hw

/-- **The loop over the arguments**, when no round is reached that has no room. -/
theorem Filled.loop (hM : Honest M ok I) (hok : ∀ i, ok (params.argv i).request) {total : ℕ}
    (hroom : ∀ i < total, (∀ j < i, Servable (params.argv j).request) →
      8 * i + 8 ≤ (argsSize params.argc).toNat) :
    ∀ {n i : ℕ} {k : Client σ}, Filled M I s₀ args stackLimit (argsSize params.argc) i k →
      (∀ j < i, Servable (params.argv j).request) → i + n = total →
      ∃ done k', k.fillArgs M params stackLimit args i n = some (done, k') ∧
        (∀ w ∈ k'.writes, w.Inside) ∧
        (done = true → Filled M I s₀ args stackLimit (argsSize params.argc) total k' ∧
          ∀ j < total, Servable (params.argv j).request) ∧
        (done = false → Restored M s₀ k')
  | 0, i, k, h, hserved, htotal => by
      obtain rfl : i = total := htotal
      exact ⟨true, k, rfl, h.inside, fun _ => ⟨h, hserved⟩, fun hno => absurd hno (by simp)⟩
  | n + 1, i, k, h, hserved, htotal => by
      have hi := hroom i (by omega) hserved
      obtain ⟨p, k₁, halloc, hnull, hgot⟩ := h.round hM hi (hok i)
      unfold Client.fillArgs
      rw [halloc]
      change ∃ done k', (if p = NULL then _ else _) = some (done, k') ∧ _
      by_cases hp : p = NULL
      · rw [if_pos hp]
        obtain ⟨k₂, k₃, k₄, hfree₁, hfree₂, hfree₃, hrestored, hwrites⟩ :=
          (hnull hp).release hM (by omega)
        refine ⟨false, k₄, ?_, ?_, fun hno => absurd hno (by simp), fun _ => hrestored⟩
        · rw [hfree₁, Option.bind_some, hfree₂, Option.bind_some, hfree₃]
          rfl
        · rw [hwrites]
          exact (hnull hp).inside
      · rw [if_neg hp]
        obtain ⟨hservable, hfilled⟩ := hgot hp
        refine Filled.loop hM hok hroom hfilled (fun j hj => ?_) (by omega)
        rcases Nat.lt_succ_iff_lt_or_eq.mp hj with hlt | rfl
        · exact hserved j hlt
        · exact hservable

/-! ## The whole call -/

/-- The sizes that a call asks for. -/
def Asks (params : ProcessParameters) (size : UInt32) : Prop :=
  size = stackSize ∨ size = argsSize params.argc ∨ size = nodeSize ∨
    ∃ i, size = (params.argv i).request

/-- No entry of the vector is reached that has no room in its block: the vector is refused, or
`argc * sizeof(char *)` does not wrap, or an argument before that entry is refused. -/
def Roomy (params : ProcessParameters) : Prop :=
  ¬Servable (argsSize params.argc) ∨ params.argc.toInt < 2 ^ 29 ∨
    ∃ j < params.argc.toInt.toNat % 2 ^ 29, ¬Servable (params.argv j).request

theorem Roomy.room (h : Roomy params) (hargc : 0 ≤ params.argc.toInt)
    (hserved : Servable (argsSize params.argc)) {i : ℕ} (hi : i < params.argc.toInt.toNat)
    (hall : ∀ j < i, Servable (params.argv j).request) :
    8 * i + 8 ≤ (argsSize params.argc).toNat := by
  rw [argsSize_toNat hargc]
  rcases h with hno | hsmall | ⟨j, hj, hno⟩
  · exact absurd hserved hno
  · omega
  · have hij : i ≤ j := by
      by_contra hlt
      exact hno (hall j (not_le.mp hlt))
    omega

/-- The call got as far as a free slot, with everything that the process needs. -/
structure Equipped (M : Manager σ) (I : Session σ → Prop) (S : ProcessHeap σ)
    (params : ProcessParameters) (r : Creation σ) (name : List UInt8) (pid : ℤ)
    (stackLimit args : ℕ) (k : Client σ) : Prop where
  accepted : ProcessHeap.refused params = false
  named : params.name = some name
  slot : S.getFreeProcess = some pid
  filled : S.fillSlot M pid name params stackLimit args k = some r
  none : params.argc.toInt = 0 → args = NULL ∧ Owns M I S.session [(stackLimit, stackSize)] k
  some : params.argc.toInt ≠ 0 → Servable (argsSize params.argc) ∧
    Filled M I S.session args stackLimit (argsSize params.argc) params.argc.toInt.toNat k
  served : ∀ j < params.argc.toInt.toNat, Servable (params.argv j).request
  freed : k.freed = []
  inside : ∀ w ∈ k.writes, w.Inside

/-- The call fails and leaves everything as it was. -/
structure Undone (M : Manager σ) (S : ProcessHeap σ) (r : Creation σ) : Prop where
  pid : r.pid = -1
  state : r.state = { S with session := r.client.session }
  restored : Restored M S.session r.client
  inside : ∀ w ∈ r.client.writes, w.Inside

theorem Restored.undone {S : ProcessHeap σ} (h : Restored M S.session k)
    (hinside : ∀ w ∈ k.writes, w.Inside) : Undone M S (S.fails k) := ⟨rfl, rfl, h, hinside⟩

theorem fillSlot_returns (hM : Honest M ok I) (hnode : ok nodeSize) (S : ProcessHeap σ) (pid : ℤ)
    (name : List UInt8) (params : ProcessParameters) (stackLimit args : ℕ) (hI : I k.session) :
    ∃ r, S.fillSlot M pid name params stackLimit args k = some r := by
  unfold ProcessHeap.fillSlot ProcessHeap.schedule
  dsimp only
  split
  · obtain ⟨p, s, halloc, -⟩ := hM.alloc hI hnode
    unfold queue
    rw [halloc]
    exact ⟨_, rfl⟩
  · exact ⟨_, rfl⟩

end Owned

namespace ProcessHeap

variable {σ : Type} {M : Manager σ} {ok : UInt32 → Prop} {I : Session σ → Prop}
  {params : ProcessParameters}

/-- **`createProcess`**: as long as no entry is reached that has no room in the vector, the call
fails and leaves everything as it was, or it gets to a free slot. -/
theorem createProcess_cases (hM : Honest M ok I) (hok : ∀ size, Asks params size → ok size)
    (hroomy : Roomy params) (S : ProcessHeap σ) (hI : I S.session) :
    ∃ r, S.createProcess M (some params) = some r ∧ (Undone M S r ∨
      ∃ name pid stackLimit args k, Equipped M I S params r name pid stackLimit args k) := by
  have hstart := Owns.start hM hI
  have hnothing : Restored M S.session (Client.start S.session) :=
    hstart.restored fun p hp => absurd hp List.not_mem_nil
  have hempty : ∀ w ∈ (Client.start S.session).writes, w.Inside :=
    fun w hw => absurd hw List.not_mem_nil
  unfold createProcess
  dsimp only
  split
  · exact ⟨_, rfl, .inl (hnothing.undone hempty)⟩
  · rename_i name hname
    by_cases hrefused : refused params = true
    · rw [if_pos hrefused]
      exact ⟨_, rfl, .inl (hnothing.undone hempty)⟩
    · rw [if_neg hrefused]
      have hargc : 0 ≤ params.argc.toInt := by
        by_contra hneg
        apply hrefused
        unfold refused
        simp only [decide_eq_true_eq]
        refine .inr (.inl ?_)
        rw [Int32.lt_iff_toInt_lt]
        exact not_le.mp hneg
      have haccepted : refused params = false := by simpa using hrefused
      obtain ⟨stackLimit, k₁, halloc₁, hfreed₁, hwrites₁, -, hnull₁, hgot₁⟩ :=
        hstart.alloc hM rfl stackSize (hok _ (.inl rfl))
      have hinside₁ : ∀ w ∈ k₁.writes, w.Inside := by
        rw [hwrites₁]
        exact hempty
      rw [halloc₁, Option.bind_some]
      by_cases hstack : stackLimit = NULL
      · -- no stack: two null pointers are given back
        rw [if_pos (.inl hstack), Option.bind_some, if_pos (.inl hstack), hstack]
        obtain ⟨k₂, hfree₂, hfreed₂, hwrites₂, hown₂, -⟩ := (hnull₁ hstack).freeNull hM
        obtain ⟨k₃, hfree₃, hfreed₃, hwrites₃, hown₃, -⟩ := hown₂.freeNull hM
        rw [hfree₂, Option.bind_some, hfree₃]
        refine ⟨_, rfl, .inl ((hown₃.restored fun p hp => absurd hp List.not_mem_nil).undone ?_)⟩
        rw [hwrites₃, hwrites₂]
        exact hinside₁
      · obtain ⟨-, hown₁⟩ := hgot₁ hstack
        by_cases hnone : params.argc = 0
        · have hzero : params.argc.toInt = 0 := by
            rw [hnone]
            rfl
          rw [if_pos (.inr hnone), Option.bind_some, if_neg (by simp [hstack, hnone]), hzero]
          change ∃ r, S.takeSlot M name params stackLimit NULL (true, k₁) = some r ∧ _
          unfold takeSlot
          cases hslot : S.getFreeProcess with
          | none =>
              obtain ⟨k₂, hfree₂, hfreed₂, hwrites₂, hown₂, -⟩ := hown₁.free hM (p := stackLimit)
                (by simp) (by rw [hfreed₁]; exact List.not_mem_nil)
              obtain ⟨k₃, hfree₃, hfreed₃, hwrites₃, hown₃, -⟩ := hown₂.freeNull hM
              dsimp only
              rw [hfree₂, Option.bind_some, hzero]
              change ∃ r, Option.bind (some k₂) _ = some r ∧ _
              rw [Option.bind_some, hfree₃]
              refine ⟨_, rfl, .inl ((hown₃.restored fun p hp => ?_).undone ?_)⟩
              · rw [hfreed₃, hfreed₂]
                simp only [List.map_cons, List.map_nil, List.mem_singleton] at hp
                simp [hp]
              · rw [hwrites₃, hwrites₂]
                exact hinside₁
          | some pid =>
              obtain ⟨r, hr⟩ := fillSlot_returns hM (hok nodeSize (.inr (.inr (.inl rfl)))) S pid
                name params stackLimit NULL hown₁.honest
              refine ⟨r, hr, .inr ⟨name, pid, stackLimit, NULL, k₁, haccepted, hname, hslot, hr,
                fun _ => ⟨rfl, hown₁⟩, fun hne => absurd hzero hne, ?_, hfreed₁, hinside₁⟩⟩
              rw [hzero]
              exact fun j hj => absurd hj (Nat.not_lt_zero j)
        · have hne : params.argc.toInt ≠ 0 := by
            intro hzero
            exact hnone (Int32.toInt_inj.mp hzero)
          obtain ⟨args, k₂, halloc₂, hfreed₂, hwrites₂, -, hnull₂, hgot₂⟩ :=
            hown₁.alloc hM hfreed₁ (argsSize params.argc) (hok _ (.inr (.inl rfl)))
          have hinside₂ : ∀ w ∈ k₂.writes, w.Inside := by
            rw [hwrites₂]
            exact hinside₁
          rw [if_neg (not_or.mpr ⟨hstack, hnone⟩), halloc₂, Option.bind_some]
          dsimp only
          by_cases hargs : args = NULL
          · rw [if_pos (.inr ⟨hnone, hargs⟩), hargs]
            obtain ⟨k₃, hfree₃, hfreed₃, hwrites₃, hown₃, -⟩ := (hnull₂ hargs).free hM
              (p := stackLimit) (by simp) (by rw [hfreed₂]; exact List.not_mem_nil)
            obtain ⟨k₄, hfree₄, hfreed₄, hwrites₄, hown₄, -⟩ := hown₃.freeNull hM
            rw [hfree₃, Option.bind_some, hfree₄]
            refine ⟨_, rfl, .inl ((hown₄.restored fun p hp => ?_).undone ?_)⟩
            · rw [hfreed₄, hfreed₃]
              simp only [List.map_cons, List.map_nil, List.mem_singleton] at hp
              simp [hp]
            · rw [hwrites₄, hwrites₃]
              exact hinside₂
          · rw [if_neg (by simp [hstack, hargs])]
            obtain ⟨hserved, hown₂⟩ := hgot₂ hargs
            have hfilled : Filled M I S.session args stackLimit (argsSize params.argc) 0 k₂ :=
              ⟨⟨[], hown₂, rfl⟩, hfreed₂, hinside₂⟩
            obtain ⟨done, k₃, hloop, hinside₃, hyes, hno⟩ := hfilled.loop hM
              (fun i => hok _ (.inr (.inr (.inr ⟨i, rfl⟩))))
              (fun i hi hall => hroomy.room hargc hserved hi hall)
              (fun j hj => absurd hj (Nat.not_lt_zero j)) (Nat.zero_add _)
            rw [hloop, Option.bind_some]
            cases done with
            | false => exact ⟨_, rfl, .inl ((hno rfl).undone hinside₃)⟩
            | true =>
                obtain ⟨hfilled₃, hall⟩ := hyes rfl
                unfold takeSlot
                cases hslot : S.getFreeProcess with
                | none =>
                    have hspace : 8 * params.argc.toInt.toNat ≤ (argsSize params.argc).toNat := by
                      have hlast := hroomy.room hargc hserved
                        (i := params.argc.toInt.toNat - 1) (by omega) fun j hj => hall j (by omega)
                      omega
                    obtain ⟨k₄, k₅, k₆, hfree₄, hfree₅, hfree₆, hrestored, hwrites⟩ :=
                      hfilled₃.release_stack hM hspace
                    dsimp only
                    rw [hfree₄, Option.bind_some, hfree₅, Option.bind_some, hfree₆]
                    refine ⟨_, rfl, .inl (hrestored.undone ?_)⟩
                    rw [hwrites]
                    exact hinside₃
                | some pid =>
                    obtain ⟨copies, hown₃, -⟩ := hfilled₃.owns
                    obtain ⟨r, hr⟩ := fillSlot_returns hM
                      (hok nodeSize (.inr (.inr (.inl rfl)))) S pid name params stackLimit args
                      hown₃.honest
                    exact ⟨r, hr, .inr ⟨name, pid, stackLimit, args, k₃, haccepted, hname, hslot,
                      hr, fun hzero => absurd hzero hne, fun _ => ⟨hserved, hfilled₃⟩, hall,
                      hfilled₃.freed, hinside₃⟩⟩

end ProcessHeap

end BareKernel.Kernel
