import BareKernel.Kernel.SemaphoreCounts
import BareKernel.Userland.MvarTokens

/-!
# test_sync

`slowInc` and `process_inc` of `Userland/tests/test_sync.c`. A process is its
place in the loop, and the places interleave in any order; the kernel's part of a
step is `semWait` or `semPost` in any kernel with the same semaphores. The loop
without the semaphore, the call of `semOpen` before it and what is printed are
left out.
-/

namespace BareKernel.TestSync

open Kernel Shell Runs Mvar

/-! ## The code -/

/-- The statements of the loop of `process_inc`, with those of `slowInc`. -/
inductive Op : Type where
  | semWait
  /-- `uint64_t aux = *p` -/
  | load
  | yield
  /-- `aux += inc` -/
  | add
  /-- `*p = aux` -/
  | store
  | semPost
deriving DecidableEq

def Op.next : Op → Op
  | semWait => load
  | load => yield
  | yield => add
  | add => store
  | store => semPost
  | semPost => semWait

/-- `waiting` says that the process was blocked in the `semWait` it stands at. -/
structure IncProcess where
  pid : ℤ
  n : ℕ
  inc : Int8
  i : ℕ
  op : Op
  aux : UInt64
  waiting : Bool

/-- `process_inc` up to its loop, when it uses the semaphore. -/
def processInc (pid : ℤ) (argv : List CStr) : Option IncProcess :=
  match argv with
  | [arg₀, arg₁, arg₂] =>
      let n := (satoi arg₀).toUInt64
      let inc := (satoi arg₁).toInt8
      let useSem := (satoi arg₂).toInt8
      if n ≤ 0 then none
      else if inc = 0 then none
      else if useSem ≤ 0 then none
      else some { pid, n := n.toNat, inc, i := 0, op := .semWait, aux := 0, waiting := false }
  | _ => none

/-- `global`, and the slot of the semaphore in the table of the kernel. -/
structure Run where
  table : SemTable
  semId : ℕ
  global : Int64
  processes : List IncProcess

namespace IncProcess

/-- The next statement; `i` is counted behind the last one. -/
def advance (p : IncProcess) : IncProcess :=
  { p with
    op := p.op.next
    i := if p.op = .semPost then p.i + 1 else p.i }

/-- Between its `semWait` and its `semPost`. -/
def inside (p : IncProcess) : Bool := p.op ≠ .semWait

/-- How often it has stored its sum. -/
def stored (p : IncProcess) : ℕ := if p.op = .semPost then p.i + 1 else p.i

def finished (p : IncProcess) : Prop := p.n ≤ p.i

end IncProcess

/-! ## The steps -/

/-- The call of `semWait`, or the next round of its loop once the process was blocked. -/
def Waits (p : IncProcess) (semId : ℕ) (T : SemTable) (taken : Bool) (T' : SemTable) : Prop :=
  ∃ M M' : Machine, M.sems = T ∧ M'.sems = T' ∧
    (if p.waiting then M.semWaitLoop p.pid semId .done else M.semWait p.pid semId .done) =
      some (taken, M')

/-- One statement, except that the place is not moved. -/
inductive Act (R : Run) (p : IncProcess) : Op → Run → IncProcess → Prop
  | semWait {T : SemTable} (waits : Waits p R.semId R.table true T) :
      Act R p .semWait { R with table := T } { p with waiting := false }
  | load : Act R p .load R { p with aux := R.global.toUInt64 }
  | yield : Act R p .yield R p
  | add : Act R p .add R { p with aux := p.aux + p.inc.toInt64.toUInt64 }
  | store : Act R p .store { R with global := p.aux.toInt64 } p
  | semPost {T : SemTable} (posts : Posts R.semId R.table T) :
    Act R p .semPost { R with table := T } p

inductive Event : Type where
  | create (pid : ℤ) (argv : List CStr)
  | turn (pid : ℤ)
  | others

inductive Step : Run → Event → Run → Prop
  | created {R : Run} {pid : ℤ} {argv : List CStr} {p : IncProcess}
      (start : processInc pid argv = some p) :
      Step R (.create pid argv) { R with processes := R.processes ++ [p] }
  | blocked {R : Run} {p : IncProcess} {before after : List IncProcess} {T : SemTable}
      (alive : R.processes = before ++ p :: after) (more : p.i < p.n) (op : p.op = .semWait)
      (waits : Waits p R.semId R.table false T) :
      Step R (.turn p.pid)
        { R with
          table := T
          processes := before ++ { p with waiting := true } :: after }
  | ran {R R' : Run} {p q : IncProcess} {before after : List IncProcess}
      (alive : R.processes = before ++ p :: after) (more : p.i < p.n) (act : Act R p p.op R' q) :
      Step R (.turn p.pid) { R' with processes := before ++ q.advance :: after }
  /-- Other programs leave the slot alone. -/
  | others {R : Run} {T : SemTable} (same : T.sems R.semId = R.table.sems R.semId) :
      Step R .others { R with table := T }

variable {R R' : Run} {p q : IncProcess} {e : Event} {T T' : SemTable} {semId : ℕ}
  {before after : List IncProcess}

namespace Run

/-- The value of the semaphore. -/
def value (R : Run) : Int32 := (R.table.sems R.semId).value

/-- `global` is set to zero, the semaphore is there with the value 1, and nobody runs yet. -/
structure Starts (R : Run) : Prop where
  lt : R.semId < maxSems
  used : (R.table.sems R.semId).used = true
  value : R.value = 1
  global : R.global = 0
  processes : R.processes = []

/-- The sum of all increments that were asked for. -/
def asked (R : Run) : ℤ := (R.processes.map fun p => p.inc.toInt * (p.n : ℤ)).sum

/-- The sum of the increments that were stored. -/
def total (R : Run) : ℤ := (R.processes.map fun p => p.inc.toInt * (p.stored : ℤ)).sum

end Run

/-! ## The invariant -/

/-- One process at most is inside, what it has loaded is still there, and `global` is the sum of
what was stored. -/
structure Synced (R : Run) : Prop where
  lt : R.semId < maxSems
  used : (R.table.sems R.semId).used = true
  one : R.value.toInt + R.processes.countP IncProcess.inside = 1
  nonneg : 0 ≤ R.value.toInt
  total : R.global = Int64.ofInt R.total
  loaded : ∀ p ∈ R.processes, p.op = .yield ∨ p.op = .add → p.aux.toInt64 = R.global
  added : ∀ p ∈ R.processes, p.op = .store → p.aux.toInt64 = R.global + p.inc.toInt64
  bound : ∀ p ∈ R.processes, p.i ≤ p.n ∧ (p.inside = true → p.i < p.n)

theorem Run.Starts.synced (h : R.Starts) : Synced R := by
  have hnone : ∀ p, p ∉ R.processes := by
    rw [h.processes]
    exact fun p => List.not_mem_nil
  refine ⟨h.lt, h.used, ?_, ?_, ?_, fun p hp => absurd hp (hnone p),
    fun p hp => absurd hp (hnone p), fun p hp => absurd hp (hnone p)⟩
  · rw [h.value, h.processes]
    rfl
  · rw [h.value]
    decide
  · rw [h.global, Run.total, h.processes]
    rfl

/-- While one process is inside, nobody else is. -/
theorem Synced.alone (h : Synced R) (halive : R.processes = before ++ p :: after)
    (hp : p.inside = true) : ∀ q, q ∈ before ∨ q ∈ after → q.inside = false := by
  have hone := h.one
  have hnonneg := h.nonneg
  rw [halive, List.countP_append, List.countP_cons_of_pos hp] at hone
  have hbefore : before.countP IncProcess.inside = 0 := by omega
  have hafter : after.countP IncProcess.inside = 0 := by omega
  rintro q (hq | hq)
  · exact Bool.eq_false_iff.mpr (List.countP_eq_zero.mp hbefore q hq)
  · exact Bool.eq_false_iff.mpr (List.countP_eq_zero.mp hafter q hq)

theorem mem_alive (halive : R.processes = before ++ p :: after) : p ∈ R.processes := by
  rw [halive]
  exact List.mem_append_right _ List.mem_cons_self

theorem mem_others (halive : R.processes = before ++ p :: after) (hq : q ∈ before ∨ q ∈ after) :
    q ∈ R.processes := by
  rw [halive]
  rcases hq with hq | hq
  · exact List.mem_append_left _ hq
  · exact List.mem_append_right _ (List.mem_cons_of_mem _ hq)

/-- One process is replaced by what it becomes, and the others find what they have loaded. -/
theorem Synced.replace (h : Synced R) (halive : R.processes = before ++ p :: after)
    (hrun : R'.processes = before ++ q :: after) (hsemId : R'.semId = R.semId)
    (hused : (R'.table.sems R.semId).used = true)
    (hvalue : R'.value.toInt + q.inside.toNat = R.value.toInt + p.inside.toNat)
    (hnonneg : 0 ≤ R'.value.toInt)
    (htotal : R'.global =
      R.global + Int64.ofInt (q.inc.toInt * (q.stored : ℤ) - p.inc.toInt * (p.stored : ℤ)))
    (hglobal : R'.global = R.global ∨ p.inside = true)
    (hloaded : q.op = .yield ∨ q.op = .add → q.aux.toInt64 = R'.global)
    (hadded : q.op = .store → q.aux.toInt64 = R'.global + q.inc.toInt64)
    (hbound : q.i ≤ q.n ∧ (q.inside = true → q.i < q.n)) : Synced R' := by
  have hcases : ∀ r ∈ R'.processes, r = q ∨ r ∈ before ∨ r ∈ after := by
    intro r hr
    rw [hrun, List.mem_append, List.mem_cons] at hr
    rcases hr with hr | hr | hr
    · exact .inr (.inl hr)
    · exact .inl hr
    · exact .inr (.inr hr)
  -- what another process has loaded is still there: it is not inside, or nothing was stored
  have hkept : ∀ r, r ∈ before ∨ r ∈ after → r.inside = true → R'.global = R.global := by
    intro r hr hinside
    rcases hglobal with hsame | hp
    · exact hsame
    · rw [h.alone halive hp r hr] at hinside
      exact absurd hinside (by simp)
  constructor
  · rw [hsemId]
    exact h.lt
  · rw [hsemId]
    exact hused
  · have hone := h.one
    rw [halive, List.countP_append, List.countP_cons] at hone
    rw [hrun, List.countP_append, List.countP_cons]
    cases hp : p.inside <;> cases hq : q.inside <;> simp [hp, hq] at hone hvalue ⊢ <;> omega
  · exact hnonneg
  · have hsum :
        R'.total = R.total + (q.inc.toInt * (q.stored : ℤ) - p.inc.toInt * (p.stored : ℤ)) := by
      unfold Run.total
      rw [halive, hrun, List.map_append, List.map_append, List.sum_append, List.sum_append,
        List.map_cons, List.map_cons, List.sum_cons, List.sum_cons]
      ring
    rw [htotal, h.total, hsum, Int64.ofInt_add]
  · intro r hr hop
    rcases hcases r hr with rfl | hother
    · exact hloaded hop
    · have hinside : r.inside = true := by
        rcases hop with hop | hop <;> simp [IncProcess.inside, hop]
      rw [hkept r hother hinside]
      exact h.loaded r (mem_others halive hother) hop
  · intro r hr hop
    rcases hcases r hr with rfl | hother
    · exact hadded hop
    · rw [hkept r hother (by simp [IncProcess.inside, hop])]
      exact h.added r (mem_others halive hother) hop
  · intro r hr
    rcases hcases r hr with rfl | hother
    · exact hbound
    · exact h.bound r (mem_others halive hother)

/-! ## Every step -/

theorem Waits.changes {taken : Bool} (h : Waits p semId T taken T') (hlt : semId < maxSems)
    (hused : (T.sems semId).used = true) :
    if taken then (T.sems semId).value ≠ 0 ∧ Changes T semId (-1) T'
    else Changes T semId 0 T' := by
  obtain ⟨M, M', rfl, rfl, hwait⟩ := h
  split at hwait
  · exact semWaitLoop_changes hwait
  · unfold Machine.semWait at hwait
    rw [if_neg (by omega), if_neg (by omega), Int.toNat_natCast, hused] at hwait
    exact semWaitLoop_changes hwait

/-- `aux += inc` and `*p = aux` in 64 bits. -/
theorem toInt64_add (a : UInt64) (b : Int64) : (a + b.toUInt64).toInt64 = a.toInt64 + b := by
  apply Int64.toBitVec_inj.mp
  simp

/-- A process that does not get through its `semWait` changes nothing. -/
theorem Synced.blocked (h : Synced R) (halive : R.processes = before ++ p :: after)
    (hwaits : Waits p R.semId R.table false T) :
    Synced { R with table := T, processes := before ++ { p with waiting := true } :: after } := by
  obtain ⟨hvalue, hused, -⟩ := hwaits.changes h.lt h.used
  have hsame : ({ R with table := T, processes := before ++ { p with waiting := true } :: after } :
      Run).value = R.value := by
    unfold Run.value
    rw [hvalue]
    simp
  have hp := mem_alive halive
  refine h.replace halive rfl rfl (hused.trans h.used) ?_ ?_ ?_ (.inl rfl) (h.loaded p hp)
    (h.added p hp) (h.bound p hp)
  · rw [hsame]
    rfl
  · rw [hsame]
    exact h.nonneg
  · simp [IncProcess.stored]

/-- A process gets through its `semWait`: the value was one, and nobody was inside. -/
theorem Synced.semWait (h : Synced R) (halive : R.processes = before ++ p :: after)
    (hmore : p.i < p.n) (hop : p.op = .semWait) (hwaits : Waits p R.semId R.table true T) :
    Synced { R with
      table := T
      processes := before ++ ({ p with waiting := false } : IncProcess).advance :: after } := by
  obtain ⟨hne, hvalue, hused, -⟩ := hwaits.changes h.lt h.used
  have hless : (T.sems R.semId).value.toInt = R.value.toInt - 1 := by
    rw [hvalue, show (R.table.sems R.semId).value + Int32.ofInt (-1) =
      (R.table.sems R.semId).value - 1 by rw [Int32.sub_eq_add_neg]; rfl]
    exact (toInt_dec hne h.nonneg).1
  have hpos : 0 < R.value.toInt := (toInt_dec hne h.nonneg).2
  have hq : ({ p with waiting := false } : IncProcess).advance.op = .load := by
    simp [IncProcess.advance, hop, Op.next]
  have hi : ({ p with waiting := false } : IncProcess).advance.i = p.i := by
    simp [IncProcess.advance, hop]
  refine h.replace halive rfl rfl (hused.trans h.used) ?_ ?_ ?_ (.inl rfl) ?_ ?_ ?_
  · change (T.sems R.semId).value.toInt + _ = _
    rw [hless]
    simp [IncProcess.inside, IncProcess.advance, hop, Op.next]
  · change 0 ≤ (T.sems R.semId).value.toInt
    omega
  · simp [IncProcess.stored, IncProcess.advance, hop, Op.next]
  · rw [hq]
    simp
  · rw [hq]
    simp
  · rw [hi]
    exact ⟨hmore.le, fun _ => hmore⟩

/-- A process gives the semaphore back, and there was room for it. -/
theorem Synced.semPost (h : Synced R) (halive : R.processes = before ++ p :: after)
    (hmore : p.i < p.n) (hop : p.op = .semPost) (hposts : Posts R.semId R.table T) :
    Synced { R with table := T, processes := before ++ p.advance :: after } := by
  obtain ⟨hvalue, hused, -⟩ := hposts.changes h.lt h.used
  have hinside : p.inside = true := by simp [IncProcess.inside, hop]
  have hone := h.one
  rw [halive, List.countP_append, List.countP_cons_of_pos hinside] at hone
  have hnonneg := h.nonneg
  have hmoreValue : (T.sems R.semId).value.toInt = R.value.toInt + 1 := by
    rw [hvalue]
    refine toInt_inc ?_ hnonneg
    change R.value.toInt < _
    omega
  have hq : p.advance.op = .semWait := by simp [IncProcess.advance, hop, Op.next]
  have hi : p.advance.i = p.i + 1 := by simp [IncProcess.advance, hop]
  refine h.replace halive rfl rfl (hused.trans h.used) ?_ ?_ ?_ (.inl rfl) ?_ ?_ ?_
  · change (T.sems R.semId).value.toInt + _ = _
    rw [hmoreValue]
    simp [IncProcess.inside, IncProcess.advance, hop, Op.next]
  · change 0 ≤ (T.sems R.semId).value.toInt
    omega
  · simp [IncProcess.stored, IncProcess.advance, hop, Op.next]
  · rw [hq]
    simp
  · rw [hq]
    simp
  · rw [hi]
    refine ⟨hmore, fun hagain => ?_⟩
    simp [IncProcess.inside, hq] at hagain

/-- A statement of `slowInc` of the process that is inside. -/
theorem Synced.slowInc (h : Synced R) (halive : R.processes = before ++ p :: after)
    (hmore : p.i < p.n) (hact : Act R p p.op R' q) (hwait : p.op ≠ .semWait)
    (hpost : p.op ≠ .semPost) : Synced { R' with processes := before ++ q.advance :: after } := by
  have hp := mem_alive halive
  have hinside : p.inside = true := by simpa [IncProcess.inside] using hwait
  generalize hop : p.op = op at hact hwait hpost
  cases hact with
  | semWait => exact absurd rfl hwait
  | semPost => exact absurd rfl hpost
  | load =>
      refine h.replace halive rfl rfl h.used ?_ h.nonneg ?_ (.inl rfl) ?_ ?_ ?_
      · simp [Run.value, IncProcess.inside, IncProcess.advance, hop, Op.next]
      · simp [IncProcess.stored, IncProcess.advance, hop, Op.next]
      · intro _
        simp [IncProcess.advance]
      · simp [IncProcess.advance, hop, Op.next]
      · simp [IncProcess.advance, hop, Op.next, hmore, hmore.le]
  | yield =>
      refine h.replace halive rfl rfl h.used ?_ h.nonneg ?_ (.inl rfl) ?_ ?_ ?_
      · simp [Run.value, IncProcess.inside, IncProcess.advance, hop, Op.next]
      · simp [IncProcess.stored, IncProcess.advance, hop, Op.next]
      · intro _
        exact h.loaded p hp (.inl hop)
      · simp [IncProcess.advance, hop, Op.next]
      · simp [IncProcess.advance, hop, Op.next, hmore, hmore.le]
  | add =>
      refine h.replace halive rfl rfl h.used ?_ h.nonneg ?_ (.inl rfl) ?_ ?_ ?_
      · simp [Run.value, IncProcess.inside, IncProcess.advance, hop, Op.next]
      · simp [IncProcess.stored, IncProcess.advance, hop, Op.next]
      · simp [IncProcess.advance, hop, Op.next]
      · intro _
        change (p.aux + p.inc.toInt64.toUInt64).toInt64 = R.global + p.inc.toInt64
        rw [toInt64_add, h.loaded p hp (.inr hop)]
      · simp [IncProcess.advance, hop, Op.next, hmore, hmore.le]
  | store =>
      refine h.replace halive rfl rfl h.used ?_ h.nonneg ?_ (.inr hinside) ?_ ?_ ?_
      · simp [Run.value, IncProcess.inside, IncProcess.advance, hop, Op.next]
      · -- the sum that is stored is one increment more
        have hstored : p.advance.inc.toInt * (p.advance.stored : ℤ) -
            p.inc.toInt * (p.stored : ℤ) = p.inc.toInt := by
          simp [IncProcess.stored, IncProcess.advance, hop, Op.next]
          ring
        rw [hstored, Int64.ofInt_int8ToInt]
        exact h.added p hp hop
      · simp [IncProcess.advance, hop, Op.next]
      · simp [IncProcess.advance, hop, Op.next]
      · simp [IncProcess.advance, hop, Op.next, hmore, hmore.le]

/-- A process that is new has stored nothing, and is not inside. -/
theorem processInc_start {pid : ℤ} {argv : List CStr} (h : processInc pid argv = some p) :
    p.i = 0 ∧ p.op = .semWait := by
  unfold processInc at h
  split at h
  · dsimp only at h
    split at h
    · simp at h
    · split at h
      · simp at h
      · split at h
        · simp at h
        · rw [← Option.some.inj h]
          exact ⟨rfl, rfl⟩
  · simp at h

theorem Synced.create (h : Synced R) {pid : ℤ} {argv : List CStr}
    (hstart : processInc pid argv = some p) :
    Synced { R with processes := R.processes ++ [p] } := by
  obtain ⟨hi, hop⟩ := processInc_start hstart
  have hcases : ∀ q ∈ R.processes ++ [p], q ∈ R.processes ∨ q = p := by simp
  refine ⟨h.lt, h.used, ?_, h.nonneg, ?_, ?_, ?_, ?_⟩
  · have hone := h.one
    simp only [List.countP_append, List.countP_cons, List.countP_nil]
    simp only [Run.value] at hone ⊢
    simp [IncProcess.inside, hop] at hone ⊢
    exact hone
  · rw [Run.total]
    simp only [List.map_append, List.sum_append, List.map_cons, List.map_nil, List.sum_cons,
      List.sum_nil]
    have hstored : p.stored = 0 := by simp [IncProcess.stored, hop, hi]
    rw [hstored, Nat.cast_zero, mul_zero, zero_add, add_zero]
    exact h.total
  · intro q hq hload
    rcases hcases q hq with hq | rfl
    · exact h.loaded q hq hload
    · rw [hop] at hload
      simp at hload
  · intro q hq hadd
    rcases hcases q hq with hq | rfl
    · exact h.added q hq hadd
    · rw [hop] at hadd
      simp at hadd
  · intro q hq
    rcases hcases q hq with hq | rfl
    · exact h.bound q hq
    · rw [hi]
      refine ⟨Nat.zero_le _, fun hinside => ?_⟩
      simp [IncProcess.inside, hop] at hinside

theorem Synced.step (h : Synced R) (hstep : Step R e R') : Synced R' := by
  cases hstep with
  | created start => exact h.create start
  | blocked alive more op waits => exact h.blocked alive waits
  | @ran R₁ p q before after alive more act =>
      by_cases hwait : p.op = .semWait
      · rw [hwait] at act
        cases act with
        | semWait waits => exact h.semWait alive more hwait waits
      · by_cases hpost : p.op = .semPost
        · rw [hpost] at act
          cases act with
          | semPost posts => exact h.semPost alive more hpost posts
        · exact h.slowInc alive more act hwait hpost
  | @others T same =>
      have hvalue : ({ R with table := T } : Run).value = R.value := by
        unfold Run.value
        rw [same]
      refine ⟨h.lt, ?_, ?_, ?_, h.total, h.loaded, h.added, h.bound⟩
      · change (T.sems R.semId).used = true
        rw [same]
        exact h.used
      · rw [hvalue]
        exact h.one
      · rw [hvalue]
        exact h.nonneg

/-- **The total**: when all processes are through, `global` is the sum of all increments. -/
theorem Synced.finished (h : Synced R) (hall : ∀ p ∈ R.processes, p.finished) :
    R.global = Int64.ofInt R.asked := by
  have hstored : ∀ p ∈ R.processes, p.stored = p.n := by
    intro p hp
    obtain ⟨hle, hmore⟩ := h.bound p hp
    have hge : p.n ≤ p.i := hall p hp
    have hop : p.op ≠ .semPost := by
      intro hop
      have hlt := hmore (by simp [IncProcess.inside, hop])
      omega
    rw [IncProcess.stored, if_neg hop]
    omega
  rw [h.total, Run.total, Run.asked]
  congr 2
  apply List.map_congr_left
  intro p hp
  rw [hstored p hp]

theorem synced_run {ok : Run → Event → Prop} {R₀ : Run} (h₀ : R₀.Starts)
    (h : Reaches Step ok R₀ R) : Synced R :=
  h.invariant h₀.synced fun _ _ _ hR _ hstep => hR.step hstep

/-! ## The law of semaphores -/

/-- **Semaphores count and exclude**. In every run of the kernel the value of a semaphore is the
one it was created with and the posts without the waits, unless a post finds the largest `int`;
where only those post who have waited, no more are between the two than the first value; and
when all processes of `test_sync` are through, `global` is the sum of all increments. -/
theorem semaphore_law (nodes blocks : ℕ → Bool) (S : Machine) (R₀ R : Run)
    (h : Reaches Machine.Step always (Machine.boot nodes blocks) S)
    (h₀ : R₀.Starts) (hR : Reaches Step always R₀ R) :
    (∀ semId v since, Lifetime S.trace semId v since → 0 ≤ v.toInt →
      ((∀ o ∈ since, o.floods semId = false) → Counted semId v since (S.count semId)) ∧
      (Paired semId since → (holders semId since).length ≤ v.toInt)) ∧
    ((∀ p ∈ R.processes, p.finished) → R.global = Int64.ofInt R.asked) := by
  constructor
  · intro semId v since hlife hv
    refine ⟨fun hroom => Machine.counted_run h hlife hv hroom, fun hpaired => ?_⟩
    have hshared := Machine.shared_run h hlife hv hpaired
    have hvalue := hshared.value
    have hnonneg := hshared.nonneg
    omega
  · exact (synced_run h₀ hR).finished

/-- The kernel with a free semaphore in slot 3. -/
def tableOf (value : Int32) : SemTable :=
  Machine.bootSems.setSem 3 (Machine.bootSem value true (.queue []) "test_sync")

def kernelOf (T : SemTable) : Machine :=
  { Machine.off (fun _ => true) fun _ => true with sems := T }

/-- A process with PID 4 that adds 5 once. -/
def adder (op : Op) (aux : UInt64) (i : ℕ) : IncProcess :=
  { pid := 4, n := 1, inc := 5, i, op, aux, waiting := false }

def adderAlone (T : SemTable) (global : Int64) (p : IncProcess) : Run :=
  { table := T, semId := 3, global, processes := [p] }

theorem adder_turn {T T' : SemTable} {global global' : Int64} {op : Op} {aux aux' : UInt64}
    (hact : Act (adderAlone T global (adder op aux 0)) (adder op aux 0) op
      (adderAlone T' global' (adder op aux 0)) (adder op aux' 0)) :
    Step (adderAlone T global (adder op aux 0)) (.turn 4)
      (adderAlone T' global' (adder op aux' 0).advance) :=
  @Step.ran _ _ _ _ [] [] rfl Nat.zero_lt_one hact

/-- The process comes through its loop. -/
theorem adder_runs : ∃ T, Reaches Step always
    { table := tableOf 1, semId := 3, global := 0, processes := [] }
    (adderAlone T 5 (adder .semWait 5 1)) := by
  have hcreate : Step { table := tableOf 1, semId := 3, global := 0, processes := [] }
      (.create 4 [[49], [53], [49]]) (adderAlone (tableOf 1) 0 (adder .semWait 0 0)) := .created rfl
  let T₁ := ((kernelOf (tableOf 1)).takeOne 4 3).sems
  have hwait : Step (adderAlone (tableOf 1) 0 (adder .semWait 0 0)) (.turn 4)
      (adderAlone T₁ 0 (adder .load 0 0)) :=
    adder_turn (.semWait ⟨kernelOf (tableOf 1), _, rfl, rfl, rfl⟩)
  have hload : Step (adderAlone T₁ 0 (adder .load 0 0)) (.turn 4)
      (adderAlone T₁ 0 (adder .yield 0 0)) := adder_turn .load
  have hyield : Step (adderAlone T₁ 0 (adder .yield 0 0)) (.turn 4)
      (adderAlone T₁ 0 (adder .add 0 0)) := adder_turn .yield
  have hadd : Step (adderAlone T₁ 0 (adder .add 0 0)) (.turn 4)
      (adderAlone T₁ 0 (adder .store 5 0)) := adder_turn .add
  have hstore : Step (adderAlone T₁ 0 (adder .store 5 0)) (.turn 4)
      (adderAlone T₁ 5 (adder .semPost 5 0)) := adder_turn .store
  have hpost : Step (adderAlone T₁ 5 (adder .semPost 5 0)) (.turn 4)
      (adderAlone ((kernelOf T₁).bump 3).sems 5 (adder .semWait 5 1)) :=
    adder_turn (.semPost ⟨kernelOf T₁, _, 0, rfl, rfl, rfl⟩)
  exact ⟨_, (((((((Reaches.refl _).tail trivial hcreate).tail trivial hwait).tail trivial
    hload).tail trivial hyield).tail trivial hadd).tail trivial hstore).tail trivial hpost⟩

/-- The shell opens "a" with the value 1 and waits on it. A worker of higher priority falls
asleep there, until the shell posts, and posts in its turn. -/
def waitsAndPosts : List Kernel.Event :=
  [.call (.semOpen Machine.nameA 1), .call (.semWait 3), .call (.createProcess
    (some Machine.workerParams)), .call (.changePriority 2 1), .call (.semWait 3), .call .yield,
    .call (.semPost 3), .call .yield, .resume, .call (.semPost 3)]

/-- What the semaphore sees of it, the last one first. -/
def waitAndPost : List Obs :=
  [.semPosted (some 3) 3 0, .semWaited 3 3, .semPosted (some shellPid) 3 0, .created 3,
    .semWaited shellPid 3]

theorem paired_waitAndPost : Paired 3 waitAndPost := by
  have hnil : Paired 3 [] := fun _ _ _ hbefore => absurd (List.suffix_nil.mp hbefore) (by simp)
  have hshell : Paired 3 [.created 3, .semWaited shellPid 3] :=
    (hnil.cons (by simp)).cons (by simp)
  have hposted : Paired 3 (.semPosted (some shellPid) 3 0 ::
      [.created 3, .semWaited shellPid 3]) := hshell.cons fun poster value heq => by
    obtain ⟨rfl, -, -⟩ := Obs.semPosted.inj heq
    exact ⟨_, rfl, by decide⟩
  refine (hposted.cons (by simp)).cons fun poster value heq => ?_
  obtain ⟨rfl, -, -⟩ := Obs.semPosted.inj heq
  exact ⟨_, rfl, by decide⟩

/-- The semaphore went from the shell to the worker, and a process of `test_sync` is through. -/
theorem semaphore_law_handed : (∃ S, exec Machine.step Machine.booted waitsAndPosts = some S ∧
      Counted 3 1 waitAndPost (S.count 3) ∧ ((holders 3 waitAndPost).length : ℤ) ≤ 1) ∧
    ∃ T, Reaches Step always { table := tableOf 1, semId := 3, global := 0, processes := [] }
      (adderAlone T 5 (adder .semWait 5 1)) ∧
        (adderAlone T 5 (adder .semWait 5 1)).global = Int64.ofInt 5 := by
  have hend : (exec Machine.step Machine.booted waitsAndPosts).map (fun S => S.trace.take 6) =
      some (waitAndPost ++ [.semCreated 3 1]) := by
    decide +kernel
  obtain ⟨S, hS, htrace⟩ := Option.map_eq_some_iff.mp hend
  have hlife : Lifetime S.trace 3 1 waitAndPost := by
    refine ⟨⟨S.trace.drop 6, ?_⟩, by decide⟩
    calc S.trace = S.trace.take 6 ++ S.trace.drop 6 := (List.take_append_drop 6 S.trace).symm
      _ = _ := by rw [htrace, List.append_assoc]; rfl
  obtain ⟨T, hT⟩ := adder_runs
  obtain ⟨hkernel, hrun⟩ := semaphore_law _ _ S _ _ (exec_always hS fun _ _ _ => trivial)
    ⟨by decide, rfl, rfl, rfl, rfl⟩ hT
  obtain ⟨hcounted, hshared⟩ := hkernel 3 1 waitAndPost hlife (by decide)
  refine ⟨⟨S, hS, hcounted (by decide), hshared paired_waitAndPost⟩, T, hT, hrun fun p hp => ?_⟩
  rw [List.mem_singleton.mp hp]
  exact Nat.le_refl 1

/-- **The value wraps**: the shell opens "a" with the largest `int`, and posts. -/
theorem post_wraps : ¬∀ nodes blocks S, Reaches Machine.Step always (Machine.boot nodes blocks) S →
    ∀ semId v since, Lifetime S.trace semId v since → 0 ≤ v.toInt →
      Counted semId v since (S.count semId) := by
  intro hall
  obtain ⟨S, hS⟩ := Option.isSome_iff_exists.mp (by decide +kernel :
    (exec Machine.step Machine.booted [.call (.semOpen Machine.nameA 2147483647),
      .call (.semPost 3)]).isSome)
  have hafter : (exec Machine.step Machine.booted [.call (.semOpen Machine.nameA 2147483647),
      .call (.semPost 3)]).map (fun S => (S.trace.take 2, S.count 3)) =
        some ([.semPosted (some shellPid) 3 2147483647, .semCreated 3 2147483647],
          -2147483648) := by
    decide +kernel
  rw [hS, Option.map_some, Option.some.injEq, Prod.mk.injEq] at hafter
  obtain ⟨htrace, hcount⟩ := hafter
  have hlife : Lifetime S.trace 3 2147483647
      [.semPosted (some shellPid) 3 2147483647] := by
    refine ⟨⟨S.trace.drop 2, ?_⟩, by decide⟩
    calc S.trace = S.trace.take 2 ++ S.trace.drop 2 := (List.take_append_drop 2 S.trace).symm
      _ = _ := by rw [htrace]; rfl
  have hcounted := hall _ _ S (exec_always hS fun _ _ _ => trivial) 3 2147483647 _ hlife (by decide)
  rw [hcount] at hcounted
  exact absurd hcounted.nonneg (by decide)

end BareKernel.TestSync
