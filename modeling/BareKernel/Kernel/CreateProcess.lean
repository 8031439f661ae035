import BareKernel.Kernel.ProcessMemory

/-!
# Where the creation of a process fails

The checks of `createProcess` let through a name of 20 characters, whose terminator is the
twenty-first byte, and any `argc`, although the size of the vector is cut down to 32 bits. Both
are exact: for every other call the writes stay in their places, and a call that fails leaves
nothing behind.
-/

namespace BareKernel.Kernel

open ByteMemory ProcessState

variable {σ : Type} {M : Manager σ} {ok : UInt32 → Prop} {I : Session σ → Prop}
  {params : ProcessParameters}

/-! ## The laws -/

/-- Whatever the heap answers, the writes of the call stay inside the name, the vector and the
copies. -/
def FillsOnly (params : ProcessParameters) : Prop :=
  ∀ (σ : Type) (M : Manager σ) (ok : UInt32 → Prop) (I : Session σ → Prop), Honest M ok I →
    (∀ size, Asks params size → ok size) → ∀ S : ProcessHeap σ, I S.session →
      ∃ r, S.createProcess M (some params) = some r ∧ ∀ w ∈ r.client.writes, w.Inside

/-- What was got has been given back, each block once, and nothing else has. -/
structure GivenBack {σ : Type} (s : Session σ) (k : Client σ) : Prop where
  live : k.session.live = s.live
  once : k.obtained.Nodup
  given : (k.freed.filter fun p => p ≠ NULL).Perm k.obtained

/-- Whatever the heap answers, the call returns, and when it returns -1 the process table, the
ready queues and the blocks that are held are as before. -/
def AllOrNothing (params : ProcessParameters) : Prop :=
  ∀ (σ : Type) (M : Manager σ) (ok : UInt32 → Prop) (I : Session σ → Prop), Honest M ok I →
    (∀ size, Asks params size → ok size) → ∀ S : ProcessHeap σ, I S.session →
      ∃ r, S.createProcess M (some params) = some r ∧
        (r.pid = -1 → r.state = { S with session := r.client.session } ∧
          GivenBack S.session r.client)

/-- The name leaves room for its terminator, or the call does not get as far as the name. -/
def NameFits (params : ProcessParameters) : Prop :=
  (∀ name, params.name = some name → name.length < maxNameLength) ∨
    (params.argc ≠ 0 ∧ ¬Servable (argsSize params.argc)) ∨
      ∃ j < params.argc.toInt.toNat, ¬Servable (params.argv j).request

namespace ProcessHeap

theorem createProcess_refused (h : refused params = true) (S : ProcessHeap σ) :
    S.createProcess M (some params) = some (S.fails (.start S.session)) := by
  unfold createProcess
  dsimp only
  split
  · rfl
  · rw [if_pos h]

theorem start_restored (hM : Honest M ok I) {S : ProcessHeap σ} (hI : I S.session) :
    Restored M S.session (Client.start S.session) :=
  (Owns.start hM hI).restored fun _ hp => absurd hp List.not_mem_nil

theorem fillSlot_spec {S : ProcessHeap σ} {pid : ℤ} {name : List UInt8} {stackLimit args : ℕ}
    {k : Client σ} {r : Creation σ} (h : S.fillSlot M pid name params stackLimit args k = some r) :
    r.pid = pid ∧
      r.client.writes = ⟨.name, maxNameLength, 0, name.length + 1⟩ :: k.writes := by
  unfold fillSlot at h
  obtain ⟨S', -, rfl⟩ := Option.map_eq_some_iff.mp h
  exact ⟨rfl, rfl⟩

theorem getFreeProcess_pos {S : ProcessHeap σ} {pid : ℤ} (h : S.getFreeProcess = some pid) :
    0 < pid ∧ pid ≤ maxPid ∧ (S.processes pid).state = EXITED := by
  have hstate := List.find?_some h
  have hmem := mem_pids.mp (List.mem_of_find?_eq_some h)
  exact ⟨hmem.1, hmem.2, of_decide_eq_true hstate⟩

end ProcessHeap

theorem Restored.givenBack {s : Session σ} {k : Client σ} (h : Restored M s k) : GivenBack s k :=
  ⟨h.live, h.once, h.given⟩

/-- As long as no entry is reached without room, the call is all or nothing. -/
theorem AllOrNothing.of_roomy (h : ProcessHeap.refused params = true ∨ Roomy params) :
    AllOrNothing params := by
  intro σ M ok I hM hok S hI
  by_cases hrefused : ProcessHeap.refused params = true
  · exact ⟨_, ProcessHeap.createProcess_refused hrefused S, fun _ =>
      ⟨rfl, (ProcessHeap.start_restored hM hI).givenBack⟩⟩
  · obtain ⟨r, hr, hundone | ⟨name, pid, stackLimit, args, k, hequipped⟩⟩ :=
      ProcessHeap.createProcess_cases hM hok (h.resolve_left hrefused) S hI
    · exact ⟨r, hr, fun _ => ⟨hundone.state, hundone.restored.givenBack⟩⟩
    · refine ⟨r, hr, fun hfailed => ?_⟩
      have hpid := (ProcessHeap.fillSlot_spec hequipped.filled).1
      have hpos := (ProcessHeap.getFreeProcess_pos hequipped.slot).1
      omega

theorem FillsOnly.of_fits (h : ProcessHeap.refused params = true ∨ Roomy params ∧ NameFits params) :
    FillsOnly params := by
  intro σ M ok I hM hok S hI
  by_cases hrefused : ProcessHeap.refused params = true
  · exact ⟨_, ProcessHeap.createProcess_refused hrefused S, fun w hw =>
      absurd hw List.not_mem_nil⟩
  · obtain ⟨hroomy, hfits⟩ := h.resolve_left hrefused
    obtain ⟨r, hr, hundone | ⟨name, pid, stackLimit, args, k, hequipped⟩⟩ :=
      ProcessHeap.createProcess_cases hM hok hroomy S hI
    · exact ⟨r, hr, hundone.inside⟩
    · refine ⟨r, hr, fun w hw => ?_⟩
      rw [(ProcessHeap.fillSlot_spec hequipped.filled).2] at hw
      rcases List.mem_cons.mp hw with rfl | hw
      · -- the copies were made, so it is the name that leaves room
        rcases hfits with hname | ⟨hargc, hno⟩ | ⟨j, hj, hno⟩
        · have hlt := hname name hequipped.named
          unfold Write.Inside
          dsimp only
          omega
        · exact absurd (hequipped.some fun hzero => hargc (Int32.toInt_inj.mp hzero)).1 hno
        · exact absurd (hequipped.served j hj) hno
      · exact hequipped.inside w hw

/-! ## Heaps that serve the call so far -/

section Scripts

variable {s : Session ScriptedHeap} {k k' k₁ : Client ScriptedHeap} {args stackLimit i p : ℕ}
  {size : UInt32}

theorem scripted_alloc (h : k.alloc ScriptedHeap.manager size = some (p, k₁)) :
    p = (if Servable size ∧ size.toNat ≤ (k.session.heap.script 0).2
      then (k.session.heap.script 0).1 else NULL) ∧
    (k₁.session.heap.script = fun n => k.session.heap.script (n + 1)) ∧
      k₁.session.heap.guard = k.session.heap.guard := by
  obtain ⟨⟨p', s'⟩, halloc, heq⟩ := Option.map_eq_some_iff.mp h
  obtain ⟨rfl, rfl⟩ := Prod.mk.inj heq
  obtain ⟨⟨p'', h'⟩, hcall, heq'⟩ := Option.map_eq_some_iff.mp halloc
  obtain ⟨rfl, rfl⟩ := Prod.mk.inj heq'
  obtain ⟨rfl, rfl⟩ := Prod.mk.inj (Option.some.inj hcall)
  exact ⟨rfl, rfl, rfl⟩

/-- A heap that has kept its byte takes every pointer back, and changes no byte. -/
theorem scripted_free (hintact : k.session.heap.Intact) (p : ℕ) : ∃ k',
    k.free ScriptedHeap.manager p = some k' ∧ k'.session.heap.Intact ∧ k'.writes = k.writes := by
  have hfree : ScriptedHeap.manager.freeMemory k.session.heap p = some k.session.heap :=
    if_pos hintact
  refine ⟨{ k with
    session := ⟨k.session.heap, k.session.live.filter fun q => q.1 ≠ p⟩
    freed := p :: k.freed }, ?_, hintact, rfl⟩
  unfold Client.free Session.free
  rw [hfree]
  rfl

theorem scripted_broken (hbroken : ¬k.session.heap.Intact) (p : ℕ) :
    k.free ScriptedHeap.manager p = none := by
  have hfree : ScriptedHeap.manager.freeMemory k.session.heap p = none := if_neg hbroken
  unfold Client.free Session.free
  rw [hfree]
  rfl

theorem scripted_freeArgs : ∀ {n j : ℕ} {k : Client ScriptedHeap}, k.session.heap.Intact → ∃ k',
    k.freeArgs ScriptedHeap.manager args j n = some k' ∧ k'.session.heap.Intact ∧
      k'.writes = k.writes
  | 0, _, k, hintact => ⟨k, rfl, hintact, rfl⟩
  | n + 1, j, k, hintact => by
      unfold Client.freeArgs
      obtain ⟨k₁, hfree, hintact₁, hwrites⟩ :=
        scripted_free hintact ((argField j).get (k.mem ScriptedHeap.manager) args)
      obtain ⟨k', hrest, hintact', hwrites'⟩ :=
        scripted_freeArgs (n := n) (j := j + 1) hintact₁
      rw [hfree, Option.bind_some]
      exact ⟨k', hrest, hintact', hwrites'.trans hwrites⟩

/-- The script has a place for every argument before the `t`-th. -/
def Serving (script : ℕ → ℕ × ℕ) (t : ℕ) : Prop :=
  ∀ i < t, (script (i + 2)).1 ≠ NULL ∧ 2 ^ 31 ≤ (script (i + 2)).2

/-- The first `t` rounds of the loop all get their block. -/
theorem scripted_rounds (script : ℕ → ℕ × ℕ) {t : ℕ} (total : ℕ) (hserving : Serving script t)
    (ht : t ≤ total) (hroom : 8 * t ≤ (argsSize params.argc).toNat)
    (hserved : ∀ j < t, Servable (params.argv j).request) : ∀ {n i : ℕ} {k : Client ScriptedHeap},
      i + n = t → Filled ScriptedHeap.manager Scripted s args stackLimit
        (argsSize params.argc) i k →
      (k.session.heap.script = fun m => script (m + (i + 2))) →
        ∃ k', Filled ScriptedHeap.manager Scripted s args stackLimit (argsSize params.argc) t k' ∧
          (k'.session.heap.script = fun m => script (m + (t + 2))) ∧
          k'.session.heap.guard = k.session.heap.guard ∧
          k.fillArgs ScriptedHeap.manager params stackLimit args i (total - i) =
            k'.fillArgs ScriptedHeap.manager params stackLimit args t (total - t)
  | 0, i, k, hi, h, hscript => by
      obtain rfl : i = t := hi
      exact ⟨k, h, hscript, rfl, rfl⟩
  | n + 1, i, k, hi, h, hscript => by
      obtain ⟨p, k₁, halloc, -, hgot⟩ := h.round scripted_honest (by omega) trivial
      obtain ⟨hp, hscript₁, hguard₁⟩ := scripted_alloc halloc
      obtain ⟨hplace, hlarge⟩ := hserving i (by omega)
      have hservable := hserved i (by omega)
      have hsmall := hservable.2
      have hfirst : k.session.heap.script 0 = script (i + 2) := by
        rw [hscript]
        simp
      rw [hfirst, if_pos ⟨hservable, by omega⟩] at hp
      have hpnull : p ≠ NULL := by
        rw [hp]
        exact hplace
      obtain ⟨k', hk', hscript', hguard', hrest⟩ :=
        scripted_rounds script total hserving ht hroom hserved
        (n := n) (i := i + 1) (by omega) (hgot hpnull).2 (by
          change k₁.session.heap.script = _
          rw [hscript₁, hscript]
          funext m
          exact congrArg script (by omega))
      refine ⟨k', hk', hscript', hguard'.trans hguard₁, ?_⟩
      rw [← hrest, show total - i = total - (i + 1) + 1 by omega]
      rw [Client.fillArgs, halloc, Option.bind_some]
      exact if_neg hpnull

/-- The first two places of the script are for the stack and the vector. -/
theorem createProcess_vector {S : ProcessHeap ScriptedHeap} {name : List UInt8}
    (hS : Scripted S.session) (haccepted : ProcessHeap.refused params = false)
    (hname : params.name = some name) (hargc : params.argc ≠ 0)
    (hstack : (S.session.heap.script 0).1 ≠ NULL ∧ 2 ^ 31 ≤ (S.session.heap.script 0).2)
    (hserved : Servable (argsSize params.argc))
    (hvector : (S.session.heap.script 1).1 ≠ NULL ∧
      (argsSize params.argc).toNat ≤ (S.session.heap.script 1).2) :
    ∃ k, Filled ScriptedHeap.manager Scripted S.session (S.session.heap.script 1).1
        (S.session.heap.script 0).1 (argsSize params.argc) 0 k ∧
      (k.session.heap.script = fun m => S.session.heap.script (m + 2)) ∧
      k.session.heap.guard = S.session.heap.guard ∧
      S.createProcess ScriptedHeap.manager (some params) =
        (k.fillArgs ScriptedHeap.manager params (S.session.heap.script 0).1
          (S.session.heap.script 1).1 0 (params.argc.toInt.toNat - 0)).bind
            (S.takeSlot ScriptedHeap.manager name params (S.session.heap.script 0).1
              (S.session.heap.script 1).1) := by
  have hstart := Owns.start scripted_honest hS
  obtain ⟨p₁, k₁, halloc₁, hfreed₁, hwrites₁, -, -, hgot₁⟩ :=
    hstart.alloc scripted_honest rfl stackSize trivial
  obtain ⟨hp₁, hscript₁, hguard₁⟩ := scripted_alloc halloc₁
  have hsize : stackSize.toNat = 4096 := rfl
  have hroom : stackSize.toNat ≤ (S.session.heap.script 0).2 := by omega
  obtain rfl : p₁ = (S.session.heap.script 0).1 :=
    hp₁.trans (if_pos ⟨by decide, hroom⟩)
  obtain ⟨-, hown₁⟩ := hgot₁ hstack.1
  obtain ⟨p₂, k₂, halloc₂, hfreed₂, hwrites₂, -, -, hgot₂⟩ :=
    hown₁.alloc scripted_honest hfreed₁
      (argsSize params.argc) trivial
  obtain ⟨hp₂, hscript₂, hguard₂⟩ := scripted_alloc halloc₂
  rw [hscript₁] at hp₂ hscript₂
  obtain rfl : p₂ = (S.session.heap.script 1).1 := hp₂.trans (if_pos ⟨hserved, hvector.2⟩)
  obtain ⟨-, hown₂⟩ := hgot₂ hvector.1
  refine ⟨k₂, ⟨⟨[], hown₂, rfl⟩, hfreed₂, ?_⟩, hscript₂, hguard₂.trans hguard₁, ?_⟩
  · rw [hwrites₂, hwrites₁]
    exact fun w hw => absurd hw List.not_mem_nil
  · unfold ProcessHeap.createProcess
    simp only [hname]
    rw [haccepted, if_neg (by decide), halloc₁, Option.bind_some,
      if_neg (not_or.mpr ⟨hstack.1, hargc⟩), halloc₂, Option.bind_some]
    exact if_neg (by simp [hstack.1, hvector.1])

end Scripts

/-! ## The vector that is too short -/

/-- Every process is over, and nothing is queued. -/
def emptyTable (s : Session ScriptedHeap) : ProcessHeap ScriptedHeap where
  session := s
  processes := fun _ => Machine.emptyProcess
  priorityQueues := fun i => ⟨i.toNat, []⟩
  stackBase := fun _ => NULL
  argv := fun _ => NULL

/-- Places for `count` blocks, far apart; the second one has `second` bytes. -/
def places (count second m : ℕ) : ℕ × ℕ :=
  if m < count then (2 ^ 32 * (m + 1), if m = 1 then second else 2 ^ 31) else (NULL, 0)

theorem places_scripted {count second guard : ℕ} (hcount : count ≤ 2 ^ 31 + 2)
    (hsecond : second ≤ 2 ^ 31) (hguard : guard = 0 ∨ guard = 2 ^ 33 + second) :
    Scripted ⟨⟨fun _ => 255, places count second, guard⟩, []⟩ where
  apart := List.Pairwise.nil
  sized := fun _ hq => absurd hq List.not_mem_nil
  bound := by
    intro n
    change (places count second n).1 < 2 ^ 64
    unfold places
    split
    · dsimp only
      omega
    · decide
  clear := fun _ _ hq => absurd hq List.not_mem_nil
  places := by
    intro l n hln hl hn
    change (places count second l).1 ≠ NULL at hl
    change (places count second n).1 ≠ NULL at hn
    change (places count second l).1 + (places count second l).2 ≤ (places count second n).1 ∨
      (places count second n).1 + (places count second n).2 ≤ (places count second l).1
    unfold places at hl hn ⊢
    by_cases hin : n < count
    · rw [if_pos hin, if_pos (hln.trans hin)]
      left
      dsimp only
      split <;> omega
    · rw [if_neg hin] at hn
      exact absurd rfl hn
  intact := rfl
  alone := by
    rintro ⟨q, hq, -⟩
    exact absurd hq List.not_mem_nil
  spared := by
    intro n hn
    change (places count second n).1 ≠ NULL at hn
    change guard < (places count second n).1 ∨
      (places count second n).1 + (places count second n).2 ≤ guard
    unfold places at hn ⊢
    by_cases hin : n < count
    · rw [if_pos hin]
      dsimp only
      rcases hguard with hzero | hbehind
      · left
        omega
      · split <;> omega
    · rw [if_neg hin] at hn
      exact absurd rfl hn

/-- A heap with a vector of `n` entries and the blocks of the arguments before `n`, and no more. -/
def trap (n guard : ℕ) : Session ScriptedHeap :=
  ⟨⟨fun _ => 255, places (n + 2) (8 * n), guard⟩, []⟩

theorem trap_scripted {n guard : ℕ} (hn : 8 * n < 2 ^ 31)
    (hguard : guard = 0 ∨ guard = 2 ^ 33 + 8 * n) : Scripted (trap n guard) :=
  places_scripted (by omega) (Nat.le_of_lt hn) hguard

/-- A heap that serves everything that can be served. -/
def plenty : Session ScriptedHeap := ⟨⟨fun _ => 255, places (2 ^ 31 + 2) (2 ^ 31), 0⟩, []⟩

theorem plenty_scripted : Scripted plenty :=
  places_scripted le_rfl le_rfl (.inl rfl)

/-- What is left when no entry without room is ruled out. -/
theorem not_roomy (h : ¬Roomy params) :
    ∃ n, params.argc.toInt.toNat % 2 ^ 29 = n ∧ Servable (argsSize params.argc) ∧
      (argsSize params.argc).toNat = 8 * n ∧ n < params.argc.toInt.toNat ∧
        ∀ j < n, Servable (params.argv j).request := by
  unfold Roomy at h
  simp only [not_or, not_not, not_exists, not_and, not_lt] at h
  obtain ⟨hserved, hlarge, hall⟩ := h
  have hargc : 0 ≤ params.argc.toInt := by omega
  exact ⟨_, rfl, hserved, by rw [argsSize_toNat hargc]; omega, by omega, hall⟩

theorem accepted_name (h : ProcessHeap.refused params = false) : ∃ name,
    params.name = some name ∧ name.length ≤ maxNameLength := by
  unfold ProcessHeap.refused at h
  simp only [decide_eq_false_iff_not, not_or, Bool.not_eq_true', Bool.not_eq_false] at h
  obtain ⟨-, -, -, hname⟩ := h
  cases hcase : params.name with
  | none =>
      rw [hcase] at hname
      exact absurd hname (by simp [checkName])
  | some name =>
      rw [hcase] at hname
      exact ⟨name, rfl, by simpa [checkName] using hname⟩

theorem store_zero {m : Mem} {a n : ℕ} : store m a (n + 1) NULL a = 0 := by
  have hload := load_store_same m (n + 1) a NULL
  rw [load] at hload
  have hzero : NULL % 256 ^ (n + 1) = 0 := Nat.zero_mod _
  rw [hzero] at hload
  apply UInt8.toNat_inj.mp
  change _ = 0
  omega

/-- The call gets as far as the entry `n`, which is stored behind the vector. -/
theorem trap_reaches (hroomy : ¬Roomy params) (haccepted : ProcessHeap.refused params = false) :
    ∃ n, 0 < n ∧ 8 * n < 2 ^ 31 ∧ ∀ guard, guard = 0 ∨ guard = 2 ^ 33 + 8 * n →
      ∃ k : Client ScriptedHeap, Scripted k.session ∧ k.session.heap.guard = guard ∧
      (emptyTable (trap n guard)).createProcess ScriptedHeap.manager (some params) =
        ((Client.freeArgs ScriptedHeap.manager (2 ^ 33) 0 n
          (k.write ScriptedHeap.manager ⟨.args, 8 * n, 8 * n, 8⟩
            ((argField n).set (k.mem ScriptedHeap.manager) (2 ^ 33) NULL))).bind fun k =>
          (k.free ScriptedHeap.manager (2 ^ 33)).bind fun k =>
            (k.free ScriptedHeap.manager (2 ^ 32)).map fun k =>
              (emptyTable (trap n guard)).fails k) := by
  obtain ⟨n, hmod, hserved, hsize, hn, hall⟩ := not_roomy hroomy
  obtain ⟨name, hname, -⟩ := accepted_name haccepted
  have hsmall := hserved.2
  rw [hsize] at hsmall
  have hpos : 0 < n := by
    have hne := toNat_pos hserved.1
    omega
  refine ⟨n, hpos, hsmall, fun guard hguard => ?_⟩
  have hargc : params.argc ≠ 0 := by
    intro hzero
    rw [hzero] at hn
    exact absurd hn (Nat.not_lt_zero n)
  have hplace : ∀ m < n + 2, places (n + 2) (8 * n) m =
      (2 ^ 32 * (m + 1), if m = 1 then 8 * n else 2 ^ 31) := fun m hm => if_pos hm
  have hfirst : places (n + 2) (8 * n) 0 = (2 ^ 32, 2 ^ 31) := hplace 0 (by omega)
  have hsecond : places (n + 2) (8 * n) 1 = (2 ^ 33, 8 * n) := hplace 1 (by omega)
  have hS : Scripted (emptyTable (trap n guard)).session := trap_scripted hsmall hguard
  have hscript : (emptyTable (trap n guard)).session.heap.script = places (n + 2) (8 * n) := rfl
  obtain ⟨k, hfilled, hscript₀, hguard₀, hcall⟩ := createProcess_vector hS haccepted hname hargc
    (by rw [hscript, hfirst]; exact ⟨by simp [NULL], le_refl (2 ^ 31)⟩) hserved
    (by rw [hscript, hsecond, hsize]; exact ⟨by simp [NULL], le_refl (8 * n)⟩)
  rw [hscript, hfirst, hsecond] at hfilled hcall
  obtain ⟨k', hfilled', hscript', hguard', hloop⟩ := scripted_rounds (places (n + 2) (8 * n))
    (t := n) params.argc.toInt.toNat (fun i hi => by
      rw [hplace (i + 2) (by omega), if_neg (by omega)]
      refine ⟨?_, le_refl _⟩
      unfold NULL
      dsimp only
      omega) (Nat.le_of_lt hn) (by omega) hall (Nat.zero_add n) hfilled hscript₀
  rw [hloop] at hcall
  -- the round `n` gets no block, stores the null pointer and gives everything back
  obtain ⟨copies, hown, -⟩ := hfilled'.owns
  obtain ⟨p, k₁, halloc, -, -, -, hfailed, -⟩ := hown.alloc scripted_honest hfilled'.freed
    (params.argv n).request trivial
  obtain ⟨hp, -, hguard₁⟩ := scripted_alloc halloc
  have hnone : p = NULL := by
    have hlast : k'.session.heap.script 0 = (NULL, 0) := by
      rw [hscript']
      exact if_neg (by omega)
    rw [hp]
    split
    · exact congrArg Prod.fst hlast
    · rfl
  subst hnone
  refine ⟨k₁, (hfailed rfl).honest, hguard₁.trans (hguard'.trans hguard₀), ?_⟩
  rw [hcall, show params.argc.toInt.toNat - n = params.argc.toInt.toNat - n - 1 + 1 by omega,
    Client.fillArgs, halloc, Option.bind_some]
  dsimp only
  rw [if_pos rfl]
  unfold Client.storeArg
  rw [hsize, Option.bind_assoc]
  congr 1
  funext k₂
  rw [Option.bind_assoc]
  congr 1
  funext k₃
  rw [Option.bind_map, Option.map_eq_bind]
  rfl

/-- **The entry `n` is stored behind the vector.** -/
theorem trap_falls (hroomy : ¬Roomy params) (haccepted : ProcessHeap.refused params = false) :
    ∃ n r, 8 * n < 2 ^ 31 ∧
      (emptyTable (trap n 0)).createProcess ScriptedHeap.manager (some params) = some r ∧
      (⟨.args, 8 * n, 8 * n, 8⟩ : Write) ∈ r.client.writes := by
  obtain ⟨n, -, hsmall, hreaches⟩ := trap_reaches hroomy haccepted
  obtain ⟨k, hk, hguard, hcall⟩ := hreaches 0 (.inl rfl)
  have hintact : (k.write ScriptedHeap.manager ⟨.args, 8 * n, 8 * n, 8⟩
      ((argField n).set (k.mem ScriptedHeap.manager) (2 ^ 33) NULL)).session.heap.Intact := by
    have hbyte := hk.intact
    unfold ScriptedHeap.Intact at hbyte ⊢
    change (argField n).set _ (2 ^ 33) NULL k.session.heap.guard = 255
    rw [hguard] at hbyte ⊢
    exact (store_outside _ (.inl (by omega))).trans hbyte
  obtain ⟨k₂, hfree₂, hintact₂, hwrites₂⟩ := @scripted_freeArgs (2 ^ 33) n 0 _ hintact
  obtain ⟨k₃, hfree₃, hintact₃, hwrites₃⟩ := scripted_free hintact₂ (2 ^ 33)
  obtain ⟨k₄, hfree₄, -, hwrites₄⟩ := scripted_free hintact₃ (2 ^ 32)
  refine ⟨n, (emptyTable (trap n 0)).fails k₄, hsmall, ?_, ?_⟩
  · rw [hcall, hfree₂, Option.bind_some, hfree₃, Option.bind_some, hfree₄]
    rfl
  · change _ ∈ k₄.writes
    rw [hwrites₄, hwrites₃, hwrites₂]
    exact List.mem_cons_self

/-- **The entry `n` hits the byte of the heap**, and the call does not come back. -/
theorem trap_breaks (hroomy : ¬Roomy params) (haccepted : ProcessHeap.refused params = false) :
    ∃ n, 8 * n < 2 ^ 31 ∧ (emptyTable (trap n (2 ^ 33 + 8 * n))).createProcess
      ScriptedHeap.manager (some params) = none := by
  obtain ⟨n, hpos, hsmall, hreaches⟩ := trap_reaches hroomy haccepted
  obtain ⟨k, -, hguard, hcall⟩ := hreaches (2 ^ 33 + 8 * n) (.inr rfl)
  have hbroken : ¬(k.write ScriptedHeap.manager ⟨.args, 8 * n, 8 * n, 8⟩
      ((argField n).set (k.mem ScriptedHeap.manager) (2 ^ 33) NULL)).session.heap.Intact := by
    unfold ScriptedHeap.Intact
    change ¬(argField n).set _ (2 ^ 33) NULL k.session.heap.guard = 255
    rw [hguard]
    have hzero : (argField n).set (k.mem ScriptedHeap.manager) (2 ^ 33) NULL (2 ^ 33 + 8 * n) = 0 :=
      store_zero
    rw [hzero]
    decide
  refine ⟨n, hsmall, ?_⟩
  rw [hcall, show n = n - 1 + 1 by omega, Client.freeArgs]
  rw [show n - 1 + 1 = n by omega, scripted_broken hbroken]
  rfl

/-- **`createProcess` is all or nothing** exactly for the calls that the checks refuse or whose
vector has room for every entry that is reached. -/
theorem createProcess_allOrNothing (params : ProcessParameters) :
    AllOrNothing params ↔ ProcessHeap.refused params = true ∨ Roomy params := by
  constructor
  · intro hall
    by_contra hno
    rw [not_or, Bool.not_eq_true] at hno
    obtain ⟨n, hsmall, hcall⟩ := trap_breaks hno.2 hno.1
    obtain ⟨r, hr, -⟩ := hall _ _ _ _ scripted_honest (fun _ _ => trivial)
      (emptyTable (trap n (2 ^ 33 + 8 * n))) (trap_scripted hsmall (.inr rfl))
    rw [hcall] at hr
    cases hr
  · exact AllOrNothing.of_roomy

/-- The string `a`. -/
def letter : Argument where
  bytes i := if i = 0 then 97 else 0
  length := 1
  ends := rfl
  before := by
    intro i hi
    obtain rfl : i = 0 := by omega
    decide

/-- `2 ^ 29 + 1` arguments, for which the vector gets 8 bytes. -/
def manyArguments : ProcessParameters where
  name := some [97]
  argc := 536870913
  priority := 1
  entryPoint := 4096
  foreground := 0
  fds := (0, 1)
  argv _ := letter

/-- The second copy lies right behind the vector, and for the third there is no block. -/
def crowded : Session ScriptedHeap where
  heap := {
    mem := fun _ => 255
    script := fun
      | 0 => (2 ^ 32, 2 ^ 12)
      | 1 => (2 ^ 33, 8)
      | 2 => (2 ^ 34, 2)
      | 3 => (2 ^ 33 + 8, 2)
      | _ => (NULL, 0)
    guard := 0 }
  live := []

theorem crowded_scripted : Scripted crowded where
  apart := List.Pairwise.nil
  sized := fun _ hq => absurd hq List.not_mem_nil
  bound := by
    rintro (_ | _ | _ | _ | n) <;> simp [crowded, NULL]
  clear := fun _ _ hq => absurd hq List.not_mem_nil
  places := by
    rintro (_ | _ | _ | _ | m) (_ | _ | _ | _ | n) <;> simp [crowded, NULL]
  intact := rfl
  alone := by
    rintro ⟨q, hq, -⟩
    exact absurd hq List.not_mem_nil
  spared := by
    rintro (_ | _ | _ | _ | n) <;> simp [crowded, NULL]

/-- The copy of the second argument overwrites the second entry, so a wrong address is given back
and the copy stays. -/
theorem crowded_call : ((emptyTable crowded).createProcess ScriptedHeap.manager
    (some manyArguments)).map (fun r => (r.pid, r.client.freed, r.client.session.live)) =
      some (-1, [2 ^ 32, 2 ^ 33, 2 ^ 33 + 97, 2 ^ 34], [(2 ^ 33 + 8, 2)]) := by
  decide +kernel

theorem createProcess_leaks : ¬AllOrNothing manyArguments := by
  intro hall
  obtain ⟨r, hr, hundone⟩ := hall _ _ _ _ scripted_honest (fun _ _ => trivial)
    (emptyTable crowded) crowded_scripted
  have hcall := crowded_call
  rw [hr, Option.map_some, Option.some.injEq, Prod.mk.injEq, Prod.mk.injEq] at hcall
  obtain ⟨hpid, -, hlive⟩ := hcall
  have hempty : r.client.session.live = [] := (hundone hpid).2.live
  rw [hlive] at hempty
  cases hempty

/-! ## The name that is too long -/

/-- **A name of 20 characters** is copied with its terminator when everything is served. -/
theorem plenty_fills (hroomy : Roomy params) (haccepted : ProcessHeap.refused params = false)
    (hfits : ¬NameFits params) : ∃ r w,
      (emptyTable plenty).createProcess ScriptedHeap.manager (some params) = some r ∧
        w ∈ r.client.writes ∧ ¬w.Inside := by
  unfold NameFits at hfits
  simp only [not_or, not_forall, not_exists, not_and, not_lt, not_not] at hfits
  obtain ⟨⟨name, hname, hlong⟩, hvector, hall⟩ := hfits
  have hargc : 0 ≤ params.argc.toInt := by
    unfold ProcessHeap.refused at haccepted
    simp only [decide_eq_false_iff_not, not_or] at haccepted
    have hneg := haccepted.2.1
    rw [Int32.lt_iff_toInt_lt] at hneg
    exact not_lt.mp hneg
  -- in either case the call gets as far as the free slot
  obtain ⟨stackLimit, args, k, hI, hcall⟩ : ∃ stackLimit args k, Scripted k.session ∧
      (emptyTable plenty).createProcess ScriptedHeap.manager (some params) =
        (emptyTable plenty).fillSlot ScriptedHeap.manager 1 name params stackLimit args k := by
    by_cases hnone : params.argc = 0
    · obtain ⟨stackLimit, k, halloc, -, -, -, -, hgot⟩ := (Owns.start scripted_honest
        plenty_scripted).alloc scripted_honest rfl stackSize trivial
      obtain ⟨hstack, -, -⟩ := scripted_alloc halloc
      have hplace : stackLimit ≠ NULL := by
        rw [hstack]
        decide
      refine ⟨stackLimit, NULL, k, (hgot hplace).2.honest, ?_⟩
      unfold ProcessHeap.createProcess
      simp only [hname]
      rw [haccepted, if_neg (by decide)]
      change ((Client.start plenty).alloc ScriptedHeap.manager stackSize).bind _ = _
      rw [halloc, Option.bind_some, if_pos (.inr hnone), Option.bind_some,
        if_neg (by simp [hplace, hnone]), hnone]
      rfl
    · have hne : params.argc.toInt ≠ 0 := fun hzero => hnone (Int32.toInt_inj.mp hzero)
      have hserved := hvector hnone
      have hspace : 8 * params.argc.toInt.toNat ≤ (argsSize params.argc).toNat := by
        have hlast := hroomy.room hargc hserved (i := params.argc.toInt.toNat - 1) (by omega)
          fun j hj => hall j (by omega)
        omega
      have hmax : params.argc.toInt < 2 ^ 31 := params.argc.toInt_lt
      have hplace : ∀ m < 2 ^ 31 + 2, places (2 ^ 31 + 2) (2 ^ 31) m = (2 ^ 32 * (m + 1), 2 ^ 31) :=
        fun m hm => (if_pos hm).trans (by rw [ite_self])
      have hscript : (emptyTable plenty).session.heap.script = places (2 ^ 31 + 2) (2 ^ 31) := rfl
      have hsmall := hserved.2
      obtain ⟨k, hfilled, hscript₀, -, hcall⟩ := createProcess_vector (S := emptyTable plenty)
        plenty_scripted haccepted hname hnone
        (by rw [hscript, hplace 0 (by decide)]; exact ⟨by simp [NULL], le_refl (2 ^ 31)⟩) hserved
        (by rw [hscript, hplace 1 (by decide)]; exact ⟨by simp [NULL], Nat.le_of_lt hsmall⟩)
      obtain ⟨k', hfilled', -, -, hloop⟩ := scripted_rounds (places (2 ^ 31 + 2) (2 ^ 31))
        (t := params.argc.toInt.toNat) params.argc.toInt.toNat (fun i hi => by
          rw [hplace (i + 2) (by omega)]
          refine ⟨?_, le_refl _⟩
          unfold NULL
          dsimp only
          omega) le_rfl hspace hall (Nat.zero_add _) hfilled hscript₀
      obtain ⟨copies, hown, -⟩ := hfilled'.owns
      refine ⟨((emptyTable plenty).session.heap.script 0).1,
        ((emptyTable plenty).session.heap.script 1).1, k', hown.honest, ?_⟩
      rw [hcall, hloop, Nat.sub_self]
      rfl
  obtain ⟨r, hr⟩ := fillSlot_returns scripted_honest trivial (emptyTable plenty) 1 name params
    stackLimit args hI
  refine ⟨r, ⟨.name, maxNameLength, 0, name.length + 1⟩, hcall.trans hr, ?_, ?_⟩
  · rw [(ProcessHeap.fillSlot_spec hr).2]
    exact List.mem_cons_self
  · unfold Write.Inside
    dsimp only
    omega

/-- **`createProcess` fills only what it has** exactly for the calls that the checks refuse, or
that reach no entry without room and leave room for the terminator of the name. -/
theorem createProcess_fillsOnly (params : ProcessParameters) :
    FillsOnly params ↔
      ProcessHeap.refused params = true ∨ Roomy params ∧ NameFits params := by
  constructor
  · intro hall
    by_contra hno
    rw [not_or, Bool.not_eq_true, not_and_or] at hno
    obtain ⟨haccepted, hno⟩ := hno
    by_cases hroomy : Roomy params
    · have hfits := hno.resolve_left (not_not.mpr hroomy)
      obtain ⟨r, w, hcall, hw, hout⟩ := plenty_fills hroomy haccepted hfits
      obtain ⟨r', hcall', hinside⟩ := hall _ _ _ _ scripted_honest (fun _ _ => trivial)
        (emptyTable plenty) plenty_scripted
      obtain rfl := Option.some.inj (hcall.symm.trans hcall')
      exact hout (hinside w hw)
    · obtain ⟨n, r, hsmall, hcall, hwrite⟩ := trap_falls hroomy haccepted
      obtain ⟨r', hcall', hinside⟩ := hall _ _ _ _ scripted_honest (fun _ _ => trivial)
        (emptyTable (trap n 0)) (trap_scripted hsmall (.inl rfl))
      obtain rfl := Option.some.inj (hcall.symm.trans hcall')
      have hlast := hinside _ hwrite
      unfold Write.Inside at hlast
      dsimp only at hlast
      omega
  · exact FillsOnly.of_fits

/-- A name of 20 characters. -/
def longName : ProcessParameters where
  name := some (List.replicate 20 97)
  argc := 0
  priority := 1
  entryPoint := 4096
  foreground := 0
  fds := (0, 1)
  argv _ := letter

theorem createProcess_overruns : ¬FillsOnly longName := by
  intro hall
  have hroomy : Roomy longName := .inr (.inl (by decide))
  have hfits : ¬NameFits longName := by
    rintro (hshort | ⟨hargc, -⟩ | ⟨j, hj, -⟩)
    · exact absurd (hshort _ rfl) (by decide)
    · exact hargc rfl
    · exact absurd hj (Nat.not_lt_zero j)
  obtain ⟨r, w, hcall, hw, hout⟩ := plenty_fills hroomy (by decide) hfits
  obtain ⟨r', hcall', hinside⟩ := hall _ _ _ _ scripted_honest (fun _ _ => trivial)
    (emptyTable plenty) plenty_scripted
  obtain rfl := Option.some.inj (hcall.symm.trans hcall')
  exact hout (hinside w hw)

end BareKernel.Kernel
