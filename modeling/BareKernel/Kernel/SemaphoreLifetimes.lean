import BareKernel.Kernel.StepPosts
import BareKernel.Kernel.WakeUps

/-!
# Semaphores that are destroyed

The loop of `semWait` reads the slot again when it is woken, but not whether the
slot is still in use. A process that was inside `semWait` when its semaphore was
destroyed returns if it finds a token in the slot. If it finds none it goes on with
the queue that was freed, and if the slot was given away it takes a token of the
new semaphore. Where a semaphore is only destroyed with a token for everybody
inside, and with everybody asleep in its queue, the calls return.
-/

namespace BareKernel.Kernel

open ProcessState Runs

namespace Machine

variable {S S' S₁ M M' : Machine} {a : Act} {e : Event} {c p pid fd : ℤ} {semId : ℕ}
  {out : ℤ}

/-- The processes inside a call of `semWait` on the semaphore. -/
def inside (S : Machine) (semId : ℕ) : Finset ℤ :=
  pids.toFinset.filter fun p => (S.frames p).semaphore = some semId

/-- How often the loop of `semWait` can take one before it finds zero. -/
def tokens (S : Machine) (semId : ℕ) : ℕ := (S.sems.sems semId).value.toUInt32.toNat

/-- Nobody inside is blocked, and there is a token for everybody; `out` has taken its own. -/
structure Rested (out : ℤ) (S : Machine) (semId : ℕ) : Prop where
  awake : ∀ p k, p ≠ out → S.frames p = .semWait semId k → (S.sched.processes p).state ≠ BLOCKED
  enough : ((S.inside semId).erase out).card ≤ S.tokens semId

/-- Those inside `semWait` on a slot not in use are going to return, and only a slot in use
has a queue. -/
structure Housed (out : ℤ) (S : Machine) : Prop where
  rested : ∀ semId, (S.sems.sems semId).used = false → S.Rested out semId
  queued : ∀ semId q, (S.sems.sems semId).waiting = .queue q → (S.sems.sems semId).used = true
  range : ∀ p semId k, S.frames p = .semWait semId k → 0 < p ∧ p ≤ maxPid

/-! ## Tokens -/

theorem tokens_pred {v : Int32} (h : v ≠ 0) : (v - 1).toUInt32.toNat + 1 = v.toUInt32.toNat := by
  have hne : v.toUInt32.toNat ≠ 0 := by
    intro h0
    apply h
    cases v
    exact congrArg Int32.ofUInt32 (UInt32.toNat_inj.mp h0)
  have hpos : 1 ≤ v.toUInt32 := UInt32.le_iff_toNat_le.mpr (Nat.one_le_iff_ne_zero.mpr hne)
  have hsub : (v - 1).toUInt32.toNat = v.toUInt32.toNat - 1 := UInt32.toNat_sub_of_le _ _ hpos
  omega

theorem mem_inside : p ∈ S.inside semId ↔
    (0 < p ∧ p ≤ maxPid) ∧ ∃ k, S.frames p = .semWait semId k := by
  unfold inside
  rw [Finset.mem_filter, List.mem_toFinset, mem_pids]
  refine and_congr_right fun _ => ?_
  constructor
  · intro h
    unfold Frame.semaphore at h
    split at h
    · rename_i k heq
      obtain rfl := Option.some.inj h
      exact ⟨k, heq⟩
    · exact absurd h (by simp)
  · rintro ⟨k, hk⟩
    rw [hk]
    rfl

theorem inside_subset (hframes : ∀ p k, S'.frames p = .semWait semId k →
    ∃ k, S.frames p = .semWait semId k) : S'.inside semId ⊆ S.inside semId := by
  intro p hp
  obtain ⟨hrange, k, hk⟩ := mem_inside.mp hp
  exact mem_inside.mpr ⟨hrange, hframes p k hk⟩

/-- Whoever is inside finds a token. -/
theorem Rested.value_ne_zero {k : AfterWait} (h : S.Rested out semId) (hp : p ≠ out)
    (hrange : 0 < p ∧ p ≤ maxPid) (hf : S.frames p = .semWait semId k) :
    (S.sems.sems semId).value ≠ 0 := by
  intro hzero
  have hmem : p ∈ (S.inside semId).erase out :=
    Finset.mem_erase.mpr ⟨hp, mem_inside.mpr ⟨hrange, k, hf⟩⟩
  have hpos := Finset.card_pos.mpr ⟨p, hmem⟩
  have henough := h.enough
  unfold tokens at henough
  rw [hzero] at henough
  exact absurd (hpos.trans_le henough) (by decide)

/-! ## Every action keeps it -/

/-- Nobody comes in, nobody falls asleep, and the tokens stay. -/
theorem Rested.mono (h : S.Rested out semId)
    (hframes : ∀ p k, S'.frames p = .semWait semId k → S.frames p = .semWait semId k)
    (hstate : ∀ p k, S'.frames p = .semWait semId k → (S'.sched.processes p).state = BLOCKED →
      (S.sched.processes p).state = BLOCKED)
    (htokens : (S'.sems.sems semId).value = (S.sems.sems semId).value) :
    S'.Rested out semId := by
  constructor
  · intro p k hp hf hblocked
    exact h.awake p k hp (hframes p k hf) (hstate p k hf hblocked)
  · have hsubset := Finset.erase_subset_erase out
      (inside_subset fun p k hf => ⟨k, hframes p k hf⟩ : S'.inside semId ⊆ S.inside semId)
    unfold tokens
    rw [htokens]
    exact (Finset.card_le_card hsubset).trans h.enough

theorem setSem_slot (S : Machine) (semId i : ℕ) (s : Sem) :
    (S.setSem i s).sems.sems semId = S.sems.sems semId ∨
      semId = i ∧ (S.setSem i s).sems.sems semId = s := by
  by_cases heq : semId = i
  · subst heq
    exact .inr ⟨rfl, by simp⟩
  · left
    rw [setSem_sems, SemTable.setSem_sems_of_ne heq]

/-- **What an action makes of a slot**: in a slot not in use only the queue changes, a token is
taken, or the slot has just been freed. -/
theorem Does.slot (hd : S.Does a S') (semId : ℕ) :
    S'.sems.sems semId = S.sems.sems semId ∨
      ((S'.sems.sems semId).used = true ∧
        ((∃ value, a = .semCreate semId value) ∨ (S.sems.sems semId).used = true)) ∨
      (∃ q q', (S.sems.sems semId).waiting = .queue q ∧
        S'.sems.sems semId = { S.sems.sems semId with waiting := .queue q' }) ∨
      (∃ p, a = .take p semId ∧ S'.sems.sems semId =
        { S.sems.sems semId with value := (S.sems.sems semId).value - 1 }) ∨
      a = .destroy semId ∧ S'.sems.sems semId = { S.sems.sems semId with
        used := false, waiting := (S.sems.sems semId).waiting.free } := by
  cases hd with
  | killWake => exact .inl (by rw [killWake_sems])
  | @semCreate c name value waiting i T hc hf hw hcreate =>
      rcases SemTable.semCreate_cases S.sems c name value waiting with hnone | ⟨j, _, _, -, heq⟩
      · rw [hnone] at hcreate
        exact absurd hcreate (by simp)
      · rw [heq, Prod.mk.injEq, Option.some.injEq] at hcreate
        obtain ⟨rfl, rfl⟩ := hcreate
        rcases setSem_slot S semId j ((S.sems.sems j).fill c name value waiting) with
          hsame | ⟨rfl, hnew⟩
        · exact .inl hsame
        · refine .inr (.inl ⟨?_, .inl ⟨value, rfl⟩⟩)
          change ((S.setSem semId _).sems.sems semId).used = true
          rw [hnew, Sem.fill_used]
  | @mark c i b hc hf hused =>
      rcases setSem_slot S semId i ((S.sems.sems i).setOpened c b) with hsame | ⟨rfl, hnew⟩
      · exact .inl hsame
      · refine .inr (.inl ⟨?_, .inr hused⟩)
        rw [hnew, (SemTable.setOpened_eq _ _ _).2.1, hused]
  | @sleep q i k =>
      have hsems : (S.fallAsleep q i k).sems = (S.enlist q i).sems := rfl
      rw [hsems]
      unfold enlist
      split
      · rename_i elements hqueue
        rcases setSem_slot S semId i { S.sems.sems i with
          waiting := .queue (S.sched.append elements q) } with hsame | ⟨rfl, hnew⟩
        · exact .inl hsame
        · exact .inr (.inr (.inl ⟨elements, _, hqueue, hnew⟩))
      · exact .inl rfl
  | @take q i =>
      rcases setSem_slot S semId i { S.sems.sems i with
        value := (S.sems.sems i).value - 1 } with hsame | ⟨rfl, hnew⟩
      · exact .inl hsame
      · exact .inr (.inr (.inr (.inl ⟨q, rfl, hnew⟩)))
  | @post i hlt hused =>
      rcases setSem_slot S semId i { S.sems.sems i with
        value := (S.sems.sems i).value + 1 } with hsame | ⟨rfl, hnew⟩
      · exact .inl hsame
      · exact .inr (.inl ⟨(congrArg Sem.used hnew).trans hused, .inr hused⟩)
  | @wake c q i rest hc hqueue =>
      rcases setSem_slot S semId i { S.sems.sems i with
        waiting := .queue rest } with hsame | ⟨rfl, hnew⟩
      · exact .inl hsame
      · exact .inr (.inr (.inl ⟨_, rest, hqueue, hnew⟩))
  | @set i value hlt hused =>
      rcases setSem_slot S semId i { S.sems.sems i with
        value := value } with hsame | ⟨rfl, hnew⟩
      · exact .inl hsame
      · exact .inr (.inl ⟨(congrArg Sem.used hnew).trans hused, .inr hused⟩)
  | @destroy i =>
      rcases setSem_slot S semId i { S.sems.sems i with
        used := false, waiting := (S.sems.sems i).waiting.free } with hsame | ⟨rfl, hnew⟩
      · exact .inl hsame
      · exact .inr (.inr (.inr (.inr ⟨rfl, hnew⟩)))
  | _ => exact .inl rfl

/-- **Every action keeps those inside housed**, if it destroys a semaphore only with a token for
everybody, and blocks or serves nobody on a slot not in use. -/
theorem housed_does (hbase : S.Base) (h : S.Housed out)
    (hdestroy : ∀ semId, a = .destroy semId → S.Rested out semId)
    (hblock : ∀ p semId k, a = .block p → S.frames p = .semWait semId k →
      (S.sems.sems semId).used = true)
    (hwork : ∀ p semId, (a = .take p semId ∨ ∃ k, a = .sleep p semId k) →
      (S.sems.sems semId).used = true) (hd : S.Does a S') : S'.Housed out := by
  have hmono : ∀ semId, S.Rested out semId → (S.sems.sems semId).used = false →
      (S'.sems.sems semId).value = (S.sems.sems semId).value → S'.Rested out semId := by
    intro semId hrested hunused hvalue
    have hframes : ∀ p k, S'.frames p = .semWait semId k → S.frames p = .semWait semId k := by
      intro p k hf
      refine (hd.frames_semWait hf).resolve_right ?_
      rintro rfl
      rw [hwork p semId (.inr ⟨k, rfl⟩)] at hunused
      exact absurd hunused (by decide)
    refine hrested.mono hframes (fun p k hf hblocked => ?_) hvalue
    by_contra hawake
    have hsleeps : ¬a.spares p := fun hspares => hawake (hd.blocked hbase hspares hblocked)
    cases a with
    | block q =>
        obtain rfl : q = p := not_not.mp hsleeps
        rw [hblock q semId k rfl (hframes q k hf)] at hunused
        exact absurd hunused (by decide)
    | waitBlock q target wstatus =>
        obtain rfl : q = p := not_not.mp hsleeps
        cases hd with
        | waitBlock hc huser =>
            rw [hframes q k hf] at huser
            exact absurd huser (by simp)
    | sleep q i k' =>
        obtain rfl : q = p := not_not.mp hsleeps
        cases hd with
        | sleep =>
            unfold fallAsleep at hf
            rw [onSched_frames, setFrame_frames, enlist_frames, Function.update_self,
              Frame.semWait.injEq] at hf
            rw [← hf.1, hwork q i (.inr ⟨k', rfl⟩)] at hunused
            exact absurd hunused (by decide)
    | _ => exact hsleeps trivial
  refine ⟨fun semId hunused => ?_, fun semId q hq => ?_, fun p semId k hf => ?_⟩
  · rcases hd.slot semId with heq | ⟨hused, -⟩ | ⟨_, _, -, heq⟩ | ⟨p, rfl, heq⟩ | ⟨rfl, heq⟩
    · rw [heq] at hunused
      exact hmono semId (h.rested semId hunused) hunused (by rw [heq])
    · rw [hused] at hunused
      exact absurd hunused (by decide)
    · rw [heq] at hunused
      exact hmono semId (h.rested semId hunused) hunused (by rw [heq])
    · rw [heq] at hunused
      rw [show (S.sems.sems semId).used = true from hwork p semId (.inl rfl)] at hunused
      exact absurd hunused (by decide)
    · cases hd with
      | destroy =>
          have hrested := hdestroy semId rfl
          exact hrested.mono (fun _ _ => id) (fun _ _ _ => id) (by rw [heq])
  · rcases hd.slot semId with heq | ⟨hused, -⟩ | ⟨q', _, hqueue, heq⟩ | ⟨p, rfl, heq⟩ | ⟨rfl, heq⟩
    · rw [heq] at hq ⊢
      exact h.queued semId q hq
    · exact hused
    · rw [heq]
      exact h.queued semId q' hqueue
    · rw [heq] at hq ⊢
      exact h.queued semId q hq
    · rw [heq] at hq
      dsimp only [WaitQueue.free] at hq
      split at hq <;> exact absurd hq (by simp)
  · rcases hd.frames_semWait hf with hS | rfl
    · exact h.range p semId k hS
    · cases hd with
      | sleep hc => exact hbase.sound.current p hc

/-- The actions that neither serve nor block anybody, and destroy nothing. -/
def mild : Act → Prop
  | .block _ | .take _ _ | .sleep _ _ _ | .destroy _ => False
  | _ => True

theorem housed_mild (hbase : S.Base) (h : S.Housed out) (hd : S.Does a S') (ha : mild a) :
    S'.Housed out := by
  refine housed_does hbase h ?_ ?_ ?_ hd
  · rintro semId rfl
    exact ha.elim
  · rintro p semId k rfl
    exact ha.elim
  · rintro p semId (rfl | ⟨k, rfl⟩)
    · exact ha.elim
    · exact ha.elim

theorem Housed.path {ok : Act → Prop} (hbase : S.Base) (h : S.Housed out) (hpath : Path ok S S')
    (hok : ∀ a, ok a → mild a) : S'.Housed out :=
  (hpath.invariant (I := fun M => M.Base ∧ M.Housed out) ⟨hbase, h⟩
    fun _ _ _ hM ha hd => ⟨hM.1.does hd, housed_mild hM.1 hM.2 hd (hok _ ha)⟩).2

theorem Housed.same (h : S.Housed out) (hsched : S'.sched = S.sched) (hsems : S'.sems = S.sems)
    (hframes : S'.frames = S.frames) : S'.Housed out := by
  refine ⟨fun semId hunused => ?_, ?_, ?_⟩
  · rw [hsems] at hunused
    refine (h.rested semId hunused).mono ?_ ?_ (by rw [hsems])
    · rw [hframes]
      exact fun _ _ => id
    · rw [hsched]
      exact fun _ _ _ => id
  · rw [hsems]
    exact h.queued
  · rw [hframes]
    exact h.range

/-! ## Destroying with a token for everybody -/

/-- Who is blocked inside `semWait` stands in the queue, and there is a token for everybody
inside. -/
structure Covered (S : Machine) (semId : ℕ) : Prop where
  listed : ∀ p k, S.frames p = .semWait semId k → (S.sched.processes p).state = BLOCKED →
    p ∈ S.waiters semId
  enough : (S.inside semId).card ≤ S.tokens semId

theorem Covered.of_empty (h : ∀ p k, S.frames p ≠ .semWait semId k) : S.Covered semId := by
  refine ⟨fun p k hf => absurd hf (h p k), ?_⟩
  have hnobody : S.inside semId = ∅ := by
    rw [Finset.eq_empty_iff_forall_notMem]
    intro p hp
    obtain ⟨-, k, hk⟩ := mem_inside.mp hp
    exact h p k hk
  rw [hnobody]
  exact Nat.zero_le _

theorem Covered.same (h : S.Covered semId) (hsched : S'.sched = S.sched)
    (hsems : S'.sems = S.sems) (hframes : S'.frames = S.frames) : S'.Covered semId := by
  constructor
  · unfold waiters
    rw [hsched, hsems, hframes]
    exact h.listed
  · unfold inside tokens
    rw [hsems, hframes]
    exact h.enough

theorem waiters_of_elements {elements : List ℤ}
    (h : (S.sems.sems semId).waiting.elements = some elements) : S.waiters semId = elements := by
  unfold waiters
  rcases elements_some h with ⟨heq, rfl⟩ | heq <;> rw [heq] <;> rfl

/-- Whoever is still blocked was blocked before, and was not in the queue. -/
theorem wakeAll_blocked {woken : List ℤ} (hrange : 0 < p ∧ p ≤ maxPid)
    (h : ((S.wakeAll woken).sched.processes p).state = BLOCKED) :
    (S.sched.processes p).state = BLOCKED ∧ p ∉ woken := by
  rcases wakeAll_processes woken S p with ⟨heq, hnot⟩ | ⟨-, heq⟩
  · rw [heq] at h
    exact ⟨h, fun hmem => hnot ⟨hmem, hrange, h⟩⟩
  · rw [heq] at h
    exact absurd h (by simp)

theorem release_slot (T : SemTable) (semId i : ℕ) :
    ((T.release semId).sems i).value = (T.sems i).value ∧
      (i ≠ semId → (T.release semId).sems i = T.sems i) := by
  by_cases heq : i = semId
  · subst heq
    exact ⟨by rw [SemTable.release, SemTable.setSem_sems_self], fun hne => absurd rfl hne⟩
  · have hsame : (T.release semId).sems i = T.sems i := SemTable.setSem_sems_of_ne heq
    exact ⟨by rw [hsame], fun _ => hsame⟩

/-- **A semaphore is destroyed**, and those inside are going to return. -/
theorem Housed.semDestroy {semId : ℤ} {r : Int32} (h : S.Housed 0) (hcover : S.Covered semId.toNat)
    (hdestroy : S.semDestroy semId = some (r, S')) : S'.Housed 0 := by
  obtain ⟨-, woken, hwoken, rfl⟩ := semDestroy_cases hdestroy
  have hblocked : ∀ i p k, S.frames p = .semWait i k →
      (((({ S with sems := S.sems.release semId.toNat } : Machine).note
        (.semDestroyed semId.toNat)).wakeAll woken).sched.processes p).state = BLOCKED →
          (S.sched.processes p).state = BLOCKED ∧ p ∉ woken := fun i p k hf hb =>
    wakeAll_blocked (h.range p i k hf) hb
  refine ⟨fun i hunused => ?_, fun i q hq => ?_, h.range⟩
  · by_cases heq : i = semId.toNat
    · subst heq
      refine ⟨fun p k _ hf hb => ?_, ?_⟩
      · obtain ⟨hbefore, hnot⟩ := hblocked _ p k hf hb
        have hlisted := hcover.listed p k hf hbefore
        rw [waiters_of_elements hwoken] at hlisted
        exact hnot hlisted
      · refine (Finset.card_le_card (Finset.erase_subset _ _)).trans (hcover.enough.trans_eq ?_)
        exact congrArg (fun v : Int32 => v.toUInt32.toNat) (release_slot S.sems _ _).1.symm
    · change ((S.sems.release semId.toNat).sems i).used = false at hunused
      rw [(release_slot S.sems _ i).2 heq] at hunused
      exact (h.rested i hunused).mono (fun _ _ => id) (fun p k hf hb => (hblocked i p k hf hb).1)
        (release_slot S.sems _ i).1
  · change ((S.sems.release semId.toNat).sems i).waiting = .queue q at hq
    change ((S.sems.release semId.toNat).sems i).used = true
    by_cases heq : i = semId.toNat
    · subst heq
      rw [SemTable.release, SemTable.setSem_sems_self] at hq
      dsimp only [WaitQueue.free] at hq
      split at hq <;> exact absurd hq (by simp)
    · rw [(release_slot S.sems _ i).2 heq] at hq ⊢
      exact h.queued i q hq

/-- Destroying another semaphore, or the same one again. -/
theorem Covered.semDestroy {semId : ℤ} {i : ℕ} {r : Int32} (h : S.Covered i) (hS : S.Housed out)
    (hdestroy : S.semDestroy semId = some (r, S')) : S'.Covered i := by
  obtain ⟨-, woken, hwoken, rfl⟩ := semDestroy_cases hdestroy
  constructor
  · intro p k hf hb
    obtain ⟨hbefore, hnot⟩ := wakeAll_blocked (hS.range p i k hf) hb
    have hlisted := h.listed p k hf hbefore
    by_cases heq : i = semId.toNat
    · subst heq
      rw [waiters_of_elements hwoken] at hlisted
      exact absurd hlisted hnot
    · change p ∈ ((S.sems.release semId.toNat).sems i).waiting.list
      rw [(release_slot S.sems _ i).2 heq]
      exact hlisted
  · refine h.enough.trans_eq ?_
    exact congrArg (fun v : Int32 => v.toUInt32.toNat) (release_slot S.sems _ _).1.symm

theorem closing_mild {P : ℕ → Prop} (ha : closing P (fun _ => False) a) : mild a := by
  cases a <;> simp_all [closing, mild]

/-- **A descriptor is closed**, and the semaphores that go with it are covered. -/
theorem Housed.closeFD {r : Int32} (hbase : S.Base) (hc : S.sched.currentProcess = some c)
    (h : S.Housed 0) (hcover : ∀ semId ∈ S.lastEnds fd, S.Covered semId.toNat)
    (hclose : S.closeFD fd = some (r, S')) : S'.Housed 0 := by
  rcases closeFD_cases hclose with ⟨-, -, rfl⟩ |
    ⟨hgood, -, id, st, hid, hst, ⟨-, rfl⟩ | ⟨hfd, hend⟩⟩
  · exact h
  · exact h.same rfl rfl rfl
  · obtain ⟨-, S₁, S₂, hsignal, hfree, rfl⟩ := closeEnd_cases hend
    unfold lastEnds at hcover
    rw [closedEnd_some hgood hfd hid hst] at hcover
    dsimp only at hcover
    generalize st.dropEnd (S.fileDescriptors fd).mode = st' at *
    rcases freeStream_cases hfree with ⟨hends, _, M, _, M', hread, hwrite, rfl⟩ | ⟨-, rfl⟩
    · -- without readers nobody gets a token
      rw [if_pos hends] at hcover
      obtain ⟨-, rfl⟩ := (signalEof_cases hsignal).resolve_left fun hno =>
        absurd hno.1.1 (by rw [hends.1]; decide)
      have hstart : (S.setStream id st').Housed 0 := h.same rfl rfl rfl
      have hcover' : ∀ semId ∈ [st'.readSem, st'.writeSem],
          (S.setStream id st').Covered semId.toNat := fun semId hmem =>
        (hcover semId hmem).same rfl rfl rfl
      have hfirst : M.Housed 0 := hstart.semDestroy (hcover' _ (by simp)) hread
      have hsecond : M'.Housed 0 :=
        hfirst.semDestroy ((hcover' st'.writeSem (by simp)).semDestroy hstart hread) hwrite
      exact hsecond.same rfl rfl rfl
    · have hpath := signalEof_path (P := fun _ => True) (D := fun _ => False) (fun _ => trivial) hc
        hsignal
      exact (h.path hbase hpath fun _ => closing_mild).same rfl rfl rfl

/-! ## The rules -/

/-- The slots that the next `n` semaphores get. -/
def freeSlots : ℕ → SemTable → List ℕ
  | 0, _ => []
  | n + 1, T => T.findFreeSem.elim [] fun semId =>
      semId :: freeSlots n (T.setSem semId { T.sems semId with used := true })

/-- The slots that an event may give to new semaphores. -/
def creates (S : Machine) : Event → List ℕ
  | .call (.semOpen name _) => if (S.sems.findSemByName name).isNone then freeSlots 1 S.sems else []
  | .call (.pipe _) => freeSlots 2 S.sems
  | _ => []

/-- A semaphore is destroyed only with a token for everybody inside and with the sleepers in its
queue, and in a kill only if nobody else is inside. Nobody inside `semWait` on a slot not in use
is blocked by `sys_block`, and the slot is not given away. -/
structure keepsReleased (S : Machine) (e : Event) : Prop where
  destroys : ∀ semId ∈ S.destroys e, match e.victim with
    | none => S.Covered semId.toNat
    | some pid => ∀ p k, S.frames p = .semWait semId.toNat k → p = pid
  block : ∀ pid semId k, e = .call (.block pid) → S.frames pid = .semWait semId k →
    (S.sems.sems semId).used = true
  creates : ∀ semId ∈ S.creates e, ∀ p k, S.frames p ≠ .semWait semId k

/-! ## Every step keeps it -/

/-- A step that destroys nothing and blocks nobody inside a slot not in use. -/
theorem housed_path (hbase : S.Base) (h : S.Housed 0) (hstep : S.Step e S')
    (hin : ∀ c semId k, S.sched.currentProcess = some c → S.frames c = .semWait semId k →
      (S.sems.sems semId).used = true)
    (hblock : ∀ pid, e ≠ .call (.block pid))
    (hnone : ∀ semId, ¬S.Records S' (.semDestroyed semId)) : S'.Housed 0 := by
  refine ((step_path hbase hstep).within (I := fun M => (M.Base ∧ M.Housed 0) ∧
    ∀ c semId k, S.sched.currentProcess = some c → M.frames c = .semWait semId k →
      (M.sems.sems semId).used = true) ⟨⟨hbase, h⟩, hin⟩ ?_).1.2
  rintro M a M' ⟨⟨hMbase, hM⟩, hinside⟩ ha hfirst hlast hd
  have hdestroy : ∀ semId, a ≠ .destroy semId := by
    rintro semId rfl
    cases hd with
    | destroy => exact hnone semId ((records_destroy M semId).within hfirst hlast)
  have hwork : ∀ p semId, (a = .take p semId ∨ ∃ k, a = .sleep p semId k) →
      (M.sems.sems semId).used = true := by
    rintro p semId (rfl | ⟨k, rfl⟩)
    · cases hd with
      | take _ _ _ hentered =>
          rcases hentered with ⟨k, hk⟩ | ⟨-, hused⟩
          · exact hinside p semId k ha.2.1 hk
          · exact hused
    · cases hd with
      | sleep _ _ _ _ hentered =>
          rcases hentered with ⟨k, hk⟩ | ⟨-, hused⟩
          · exact hinside p semId k ha.2.1 hk
          · exact hused
  refine ⟨⟨hMbase.does hd, housed_does hMbase hM (fun semId heq => absurd heq (hdestroy semId))
    ?_ hwork hd⟩, fun c semId k hc hf => ?_⟩
  · rintro p semId k rfl
    exact absurd ha.1 (hblock p)
  · have hused : (M.sems.sems semId).used = true := by
      rcases hd.frames_semWait hf with hf | heq
      · exact hinside c semId k hc hf
      · exact hwork c semId (.inr ⟨k, heq⟩)
    rcases hd.slot semId with heq | ⟨hused', -⟩ | ⟨_, _, -, heq⟩ | ⟨_, -, heq⟩ | ⟨heq, -⟩
    · rw [heq]
      exact hused
    · exact hused'
    · rw [heq]
      exact hused
    · rw [heq]
      exact hused
    · exact absurd heq (hdestroy semId)

/-- Whoever has taken its token is out of `semWait` behind it. -/
theorem Housed.leave {f : Frame} (h : S.Housed c) (hf : ∀ semId k, f ≠ .semWait semId k) :
    (S.setFrame c f).Housed 0 := by
  have hframes : ∀ p semId k, (S.setFrame c f).frames p = .semWait semId k →
      p ≠ c ∧ S.frames p = .semWait semId k := by
    intro p semId k hp
    rw [setFrame_frames] at hp
    by_cases heq : p = c
    · subst heq
      rw [Function.update_self] at hp
      exact absurd hp (hf semId k)
    · rw [Function.update_of_ne heq] at hp
      exact ⟨heq, hp⟩
  refine ⟨fun semId hunused => ?_, h.queued, fun p semId k hp =>
    h.range p semId k (hframes p semId k hp).2⟩
  have hrested := h.rested semId hunused
  refine ⟨fun p k _ hp => ?_, le_trans (Finset.card_le_card fun p hp => ?_) hrested.enough⟩
  · obtain ⟨hne, hS⟩ := hframes p semId k hp
    exact hrested.awake p k hne hS
  · obtain ⟨hrange, k, hk⟩ := mem_inside.mp (Finset.mem_of_mem_erase hp)
    obtain ⟨hne, hS⟩ := hframes p semId k hk
    exact Finset.mem_erase.mpr ⟨hne, mem_inside.mpr ⟨hrange, k, hS⟩⟩

/-- Everybody inside `semWait` on a slot not in use finds a token. -/
theorem Housed.everybody (h : S.Housed 0) (hunused : (S.sems.sems semId).used = false) :
    (∀ p k, S.frames p = .semWait semId k → (S.sched.processes p).state ≠ BLOCKED) ∧
      (S.inside semId).card ≤ S.tokens semId := by
  have hrested := h.rested semId hunused
  have hzero : (0 : ℤ) ∉ S.inside semId := fun hmem => lt_irrefl _ (mem_inside.mp hmem).1.1
  refine ⟨fun p k hp => hrested.awake p k (h.range p semId k hp).1.ne' hp, ?_⟩
  rw [← Finset.erase_eq_of_notMem hzero]
  exact hrested.enough

theorem Housed.weaken (h : S.Housed 0) (out : ℤ) : S.Housed out := by
  refine ⟨fun semId hunused => ?_, h.queued, h.range⟩
  obtain ⟨hawake, henough⟩ := h.everybody hunused
  exact ⟨fun p k _ => hawake p k,
    (Finset.card_le_card (Finset.erase_subset _ _)).trans henough⟩

theorem Housed.semPost {semId : ℤ} {r : Int32} (hbase : S.Base)
    (hc : S.sched.currentProcess = some c) (h : S.Housed out)
    (hpost : S.semPost semId = some (r, S')) : S'.Housed out :=
  h.path hbase (semPost_path (P := fun _ => True) (D := fun _ => False) trivial hpost hc) fun _ =>
    closing_mild

/-- What follows `semWait` serves the process that has left it. -/
theorem Housed.afterWait {k : AfterWait} (hbase : S.Base) (hc : S.sched.currentProcess = some c)
    (h : S.Housed c) (hafter : S.afterWait c k = some S') : S'.Housed 0 := by
  have hmoved : ∀ (id : ℕ) (st : Stream) (o : Obs), o.ofPipe → ((S.setStream id st).note o).Base ∧
      ((S.setStream id st).note o).Housed c := fun id st o ho =>
    ⟨(hbase.does .files).does (.moved ho), h.same rfl rfl rfl⟩
  cases k with
  | done => exact Option.some.inj hafter ▸ h.leave (by simp)
  | take r =>
      obtain ⟨st, hst, ⟨-, r₁, S₁, hpost, rfl⟩ | ⟨-, rfl⟩⟩ := takeByte_cases hafter
      · obtain ⟨hbase', htook⟩ := hmoved r.stream st.advance
          (.took r.stream (st.buffer st.readPos)) trivial
        have hposted : S₁.Housed c := htook.semPost hbase' hc hpost
        split
        · exact (hposted.leave (f := .user) (by simp)).same rfl rfl rfl
        · exact hposted.leave (by simp)
      · have hended : (S.setStream r.stream { st with eof := true }).Housed c := h.same rfl rfl rfl
        exact (hended.leave (f := .user) (by simp)).same rfl rfl rfl
  | store w =>
      obtain ⟨st, byte, r₁, S₁, -, -, hpost, rfl⟩ := storeByte_cases hafter
      obtain ⟨hbase', hstored⟩ := hmoved w.stream (st.put byte) (.stored w.stream byte) trivial
      have hposted : S₁.Housed c := hstored.semPost hbase' hc hpost
      exact hposted.leave (by simp)
  | readAt stream pos =>
      obtain ⟨st, -, rfl⟩ := finishReadAt_cases hafter
      exact (h.same rfl rfl rfl : (S.setStream stream _).Housed c).leave (by simp)

/-- A process takes its token in a slot not in use. -/
theorem Housed.takeOne {k : AfterWait} (h : S.Housed 0)
    (hunused : (S.sems.sems semId).used = false) (hf : S.frames c = .semWait semId k)
    (hvalue : (S.sems.sems semId).value ≠ 0) : (S.takeOne c semId).Housed c := by
  have hslot : ∀ i, ((S.takeOne c semId).sems.sems i).used = (S.sems.sems i).used ∧
      ((S.takeOne c semId).sems.sems i).waiting = (S.sems.sems i).waiting ∧
        (i ≠ semId → ((S.takeOne c semId).sems.sems i).value = (S.sems.sems i).value) := by
    intro i
    rcases setSem_slot S i semId { S.sems.sems semId with
      value := (S.sems.sems semId).value - 1 } with hsame | ⟨rfl, hnew⟩
    · exact ⟨congrArg Sem.used hsame, congrArg Sem.waiting hsame, fun _ => congrArg Sem.value hsame⟩
    · exact ⟨(congrArg Sem.used hnew).trans rfl, (congrArg Sem.waiting hnew).trans rfl,
        fun hne => absurd rfl hne⟩
  refine ⟨fun i hi => ?_, fun i q hq => ?_, h.range⟩
  · rw [(hslot i).1] at hi
    obtain ⟨hawake, henough⟩ := h.everybody hi
    refine ⟨fun p k _ hp => hawake p k hp, ?_⟩
    change ((S.inside i).erase c).card ≤ (S.takeOne c semId).tokens i
    by_cases heq : i = semId
    · subst heq
      have hmem : c ∈ S.inside i := mem_inside.mpr ⟨h.range c i k hf, k, hf⟩
      have htaken : (S.takeOne c i).tokens i + 1 = S.tokens i := by
        unfold tokens Machine.takeOne
        rw [note_sems, setSem_sems, SemTable.setSem_sems_self]
        exact tokens_pred hvalue
      have hcard := Finset.card_erase_add_one hmem
      omega
    · refine (Finset.card_le_card (Finset.erase_subset _ _)).trans (henough.trans_eq ?_)
      unfold tokens
      rw [(hslot i).2.2 heq]
  · rw [(hslot i).2.1] at hq
    rw [(hslot i).1]
    exact h.queued i q hq

/-- A process is killed, and nobody else is inside what goes with it. -/
theorem housed_kill {r : Int32} (hbase : S.Base) (hc : S.sched.currentProcess = some c)
    (h : S.Housed 0) (hok : ∀ semId ∈ S.destroys (.call (.kill pid)), ∀ p k,
      S.frames p = .semWait semId.toNat k → p = pid)
    (hkill : S.kill pid = some (r, S')) : S'.Housed 0 := by
  rcases kill_closes hkill with rfl | ⟨halive, r₁, S₁, r₂, S₂, hin, hout, hend⟩
  · exact h
  · have hstart : S.Does (.kill pid) (S.killStart pid .leave) := .kill hc halive.1 halive.2
    have hbase₀ := hbase.does hstart
    have h₀ : (S.killStart pid .leave).Housed 0 := housed_mild hbase h hstart trivial
    -- the process that ends has left `semWait`, and nobody else was in it
    have hempty : ∀ M : Machine, M.frames = (S.killStart pid .leave).frames →
        ∀ semId ∈ S.destroys (.call (.kill pid)), M.Covered semId.toNat := by
      intro M hframes semId hmem
      refine Covered.of_empty fun p k hf => ?_
      rw [hframes] at hf
      have hS := (hstart.frames_semWait hf).resolve_right (by simp)
      rw [hok semId hmem p k hS] at hf
      simp [killStart] at hf
    have hlists : S.destroys (.call (.kill pid)) = _ := (kill_closings halive hin).2
    have hc₀ : (S.killStart pid .leave).sched.currentProcess = some c := hc
    have hpathIn := closeFD_path (P := fun _ => True) (D := fun _ => True) (fun _ => trivial)
      (fun _ => trivial) hc₀ hin
    have hc₁ : S₁.sched.currentProcess = some c := hpathIn.calm.1.trans hc
    have hpathOut := closeFD_path (P := fun _ => True) (D := fun _ => True) (fun _ => trivial)
      (fun _ => trivial) hc₁ hout
    have hbase₁ : S₁.Base := hpathIn.invariant hbase₀ fun _ _ _ hM _ hd => hM.does hd
    have hbase₂ : S₂.Base := hpathOut.invariant hbase₁ fun _ _ _ hM _ hd => hM.does hd
    have h₁ : S₁.Housed 0 := h₀.closeFD hbase₀ hc₀ (fun semId hmem =>
      hempty _ rfl semId (by rw [hlists]; exact List.mem_append_left _ hmem)) hin
    have h₂ : S₂.Housed 0 := h₁.closeFD hbase₁ hc₁ (fun semId hmem =>
      hempty S₁ (closeFD_frames hin) semId (by rw [hlists]; exact List.mem_append_right _ hmem))
        hout
    have hover : (S₂.sched.processes pid).state = EXITED := by
      rw [closing_exited hpathOut, closing_exited hpathIn]
      exact killStart_state S pid .leave
    have hwake : S₂.Does (.killWake pid) (S₂.killWake pid) :=
      .killWake (hpathOut.calm.1.trans hc₁) hover
    have hwoken : (S₂.killWake pid).Housed 0 := housed_mild hbase₂ h₂ hwake trivial
    rcases hend with rfl | rfl
    · exact hwoken
    · exact housed_mild (hbase₂.does hwake) hwoken (switch_path _) trivial

/-- Somebody goes on in the loop of `semWait`, on a slot not in use. -/
theorem housed_woken {k : AfterWait} (hbase : S.Base) (h : S.Housed 0)
    (hc : S.sched.currentProcess = some c) (hf : S.frames c = .semWait semId k)
    (hunused : (S.sems.sems semId).used = false) (hstep : S.Step e S') : S'.Housed 0 := by
  obtain rfl : e = .resume := by
    unfold Step step at hstep
    rw [hc] at hstep
    dsimp only at hstep
    rw [hf] at hstep
    cases e <;> simp_all [interruptible]
  have hvalue : (S.sems.sems semId).value ≠ 0 :=
    (h.rested semId hunused).value_ne_zero (h.range c semId k hf).1.ne' (h.range c semId k hf) hf
  have hresume : S.resume c (.semWait semId k) = some S' := by
    unfold Step step at hstep
    rw [hc] at hstep
    dsimp only at hstep
    rwa [hf] at hstep
  simp only [Machine.resume, Option.bind_eq_bind, Option.bind_eq_some_iff, Prod.exists] at hresume
  obtain ⟨taken, S₁, hloop, hrest⟩ := hresume
  rcases semWaitLoop_cases hloop with ⟨-, hzero, -⟩ | ⟨rfl, -, rfl⟩
  · exact absurd hzero hvalue
  · have htake : S.Does (.take c semId) (S.takeOne c semId) :=
      .take hc (by rw [hf]; trivial) hvalue (.inl ⟨k, hf⟩)
    exact (h.takeOne hunused hf hvalue).afterWait (hbase.does htake) hc hrest

/-- **A step that keeps to the rules** leaves everybody housed. -/
theorem housed_step (hbase : S.Base) (h : S.Housed 0) (hok : S.keepsReleased e)
    (hstep : S.Step e S') : S'.Housed 0 := by
  by_cases hwoken : ∃ c semId k, S.sched.currentProcess = some c ∧
      S.frames c = .semWait semId k ∧ (S.sems.sems semId).used = false
  · obtain ⟨c, semId, k, hc, hf, hunused⟩ := hwoken
    exact housed_woken hbase h hc hf hunused hstep
  have hin : ∀ c semId k, S.sched.currentProcess = some c → S.frames c = .semWait semId k →
      (S.sems.sems semId).used = true := by
    intro c semId k hc hf
    by_contra hunused
    exact hwoken ⟨c, semId, k, hc, hf, by simpa using hunused⟩
  by_cases hblock : ∃ pid, e = .call (.block pid)
  · obtain ⟨pid, rfl⟩ := hblock
    obtain ⟨c, hc, hf, hcall⟩ := step_call hstep
    rw [← Option.some.inj hcall]
    unfold sysBlock
    split
    · exact h
    · rename_i hvalid
      rw [not_or, Bool.not_eq_true, Bool.not_eq_false'] at hvalid
      refine housed_does hbase h (by simp) (fun p semId k heq hp => ?_) (by simp)
        (.block hc hf hvalid.2)
      obtain rfl := Act.block.inj heq
      exact hok.block pid semId k rfl hp
  have hpath := fun hnone => housed_path hbase h hstep hin (fun pid heq => hblock ⟨pid, heq⟩) hnone
  rcases step_uses hstep with haside | ⟨c, hc, huses⟩
  · exact hpath fun semId => haside.quiet semId _ rfl
  · have hempty : S.destroys e = [] → S'.Housed 0 := fun hnil => hpath fun semId hrec => by
      have hmem : (semId : ℤ) ∈ S.destroys e := huses.logs hc _ hrec
      rw [hnil] at hmem
      exact absurd hmem List.not_mem_nil
    cases huses with
    | semDestroy hdestroy => exact h.semDestroy (hok.destroys _ (by simp [destroys])) hdestroy
    | close hclose => exact h.closeFD hbase hc hok.destroys hclose
    | @kill pid =>
        obtain ⟨c, hc, _, hcall⟩ := step_call hstep
        simp only [sysCall, Option.map_eq_map, Option.map_eq_some_iff, Prod.exists] at hcall
        obtain ⟨r, _, hkill, rfl⟩ := hcall
        exact housed_kill hbase hc h hok.destroys hkill
    | @closeIn r S₁ hf hclose =>
        have hclosed : S₁.Housed 0 := h.closeFD hbase hc (fun semId hmem =>
          hok.destroys semId (by simp [destroys, overClosings, hc, hf, hmem])) hclose
        exact (hclosed.weaken c).leave (by simp)
    | @closeOut r S₁ hf hclose =>
        have hclosed : S₁.Housed 0 := h.closeFD hbase hc (fun semId hmem =>
          hok.destroys semId (by simp [destroys, overClosings, hc, hf, hmem])) hclose
        exact (hclosed.weaken c).leave (by simp)
    | reading hf => exact hempty (by simp [destroys, overClosings, hc, hf])
    | writing hf => exact hempty (by simp [destroys, overClosings, hc, hf])
    | woken hf => exact hempty (by simp [destroys, overClosings, hc, hf])
    | _ => exact hempty rfl

theorem housed_boot (nodes blocks : ℕ → Bool) : (boot nodes blocks).Housed 0 := by
  have hoff : (off nodes blocks).Housed 0 := by
    have hnobody : ∀ p semId k, (off nodes blocks).frames p ≠ .semWait semId k :=
      fun p semId k => by
      simp [off]
    refine ⟨fun semId _ => ?_, fun semId q hq => ?_, fun p semId k hp => absurd hp
      (hnobody p semId k)⟩
    · refine ⟨fun p k _ hp => absurd hp (hnobody p semId k), ?_⟩
      have hcovered := Covered.of_empty (fun p k => hnobody p semId k)
      exact (Finset.card_le_card (Finset.erase_subset _ _)).trans hcovered.enough
    · rcases bootSems_waiting semId with ⟨hused, _⟩ | ⟨_, hnull⟩
      · exact hused
      · exact absurd (hnull.symm.trans hq) (by simp)
  refine (boot_path.invariant (I := fun M => M.Base ∧ M.Housed 0) ⟨base_off, hoff⟩ ?_).2
  rintro S a S' ⟨hbase, hS⟩ ha hd
  refine ⟨hbase.does hd, housed_mild hbase hS hd ?_⟩
  cases a <;> trivial

/-! ## Slots that are given away -/

theorem findFreeSem_congr {T T' : SemTable} (h : ∀ i, (T'.sems i).used = (T.sems i).used) :
    T'.findFreeSem = T.findFreeSem := by
  unfold SemTable.findFreeSem
  congr 1
  funext i
  rw [h]

/-- A new semaphore is in the first free slot. -/
theorem semCreate_slot {name : CString} {value : Int32} {r : ℤ}
    (h : S.semCreate pid name value = (r, S')) : S' = S ∨
      ∃ i, S.sems.findFreeSem = some i ∧ ∀ j, (S'.sems.sems j).used =
        ((S.sems.setSem i { S.sems.sems i with used := true }).sems j).used := by
  unfold Machine.semCreate at h
  dsimp only at h
  split at h
  · exact .inl (Prod.mk.inj h).2.symm
  · rename_i i T hcreate
    obtain ⟨-, rfl⟩ := Prod.mk.inj h
    rcases SemTable.semCreate_cases S.sems pid name value
      (if S.sched.blocks 0 then .queue [] else .null) with hnone | ⟨j, _, _, hfree, heq⟩
    · rw [hnone] at hcreate
      exact absurd hcreate (by simp)
    · rw [heq, Prod.mk.injEq, Option.some.injEq] at hcreate
      obtain ⟨rfl, rfl⟩ := hcreate
      refine .inr ⟨j, hfree, fun other => ?_⟩
      change ((S.sems.setSem j _).sems other).used = _
      by_cases hother : other = j
      · subst hother
        rw [SemTable.setSem_sems_self, SemTable.setSem_sems_self, Sem.fill_used]
      · rw [SemTable.setSem_sems_of_ne hother, SemTable.setSem_sems_of_ne hother]

theorem used_setSem {T : SemTable} {i j : ℕ} (hunused : (T.sems j).used = false)
    (h : ((T.setSem i { T.sems i with used := true }).sems j).used = true) : j = i := by
  by_contra hne
  rw [SemTable.setSem_sems_of_ne hne, hunused] at h
  exact absurd h (by decide)

theorem freeSlots_some {T : SemTable} {n i : ℕ} (h : T.findFreeSem = some i) :
    freeSlots (n + 1) T = i :: freeSlots n (T.setSem i { T.sems i with used := true }) := by
  rw [freeSlots, h, Option.elim_some]

/-- A slot not in use that a creation leaves in use is the first free one. -/
theorem semCreate_creates {name : CString} {value : Int32} {r : ℤ}
    (h : S.semCreate pid name value = (r, S')) (hunused : (S.sems.sems semId).used = false)
    (hused : (S'.sems.sems semId).used = true) : S.sems.findFreeSem = some semId := by
  rcases semCreate_slot h with hsame | ⟨i, hfree, hslots⟩
  · rw [hsame, hunused] at hused
    exact absurd hused (by decide)
  · rw [hslots] at hused
    rw [used_setSem hunused hused]
    exact hfree

theorem semOpen_creates {name : CString} {r : ℤ} (h : S.semOpen pid name = (r, S'))
    (hunused : (S.sems.sems semId).used = false) : (S'.sems.sems semId).used = false := by
  unfold Machine.semOpen at h
  split at h
  · rw [← (Prod.mk.inj h).2]
    exact hunused
  · rename_i i T hopen
    obtain ⟨husedOpen, rfl⟩ := SemTable.semOpen_eq hopen
    rw [← (Prod.mk.inj h).2]
    rcases setSem_slot S semId i ((S.sems.sems i).setOpened pid 1) with hsame | ⟨rfl, -⟩
    · exact (congrArg Sem.used hsame).trans hunused
    · rw [husedOpen] at hunused
      exact absurd hunused (by decide)

/-- A pipe takes the first two free slots. -/
theorem createPipe_creates {fresh : ℕ → UInt8} {r : Int32}
    (h : S.createPipe pid fresh = some (r, S'))
    (hunused : (S.sems.sems semId).used = false) (hused : (S'.sems.sems semId).used = true) :
    semId ∈ freeSlots 2 S.sems := by
  rcases createPipe_cases h with ⟨-, hnone⟩ |
    ⟨-, fd1, fd2, readSem, writeSem, S₁, S₂, -, hread, hwrite, hS'⟩
  · have hsame : S'.sems = S.sems := by
      rcases hnone with rfl | ⟨_, -, rfl⟩ <;> rfl
    rw [hsame, hunused] at hused
    exact absurd hused (by decide)
  · have hsems : S'.sems = S₂.sems := by rw [hS']; rfl
    have hstart : (S.reserve fd1 fd2).sems = S.sems := rfl
    rw [hsems] at hused
    generalize S.reserve fd1 fd2 = M at hread hstart
    rw [← hstart] at hunused ⊢
    by_cases hfirst : (S₁.sems.sems semId).used = true
    · rw [freeSlots_some (semCreate_creates hread hunused hfirst)]
      exact List.mem_cons_self
    · have hsecond := semCreate_creates hwrite (by simpa using hfirst) hused
      rcases semCreate_slot hread with hsame | ⟨i, hfree, hslots⟩
      · rw [hsame] at hsecond
        rw [freeSlots_some hsecond]
        exact List.mem_cons_self
      · rw [findFreeSem_congr hslots] at hsecond
        rw [freeSlots_some hfree, freeSlots_some hsecond]
        exact List.mem_cons_of_mem _ List.mem_cons_self

/-- **A slot is given away** only by the events that create semaphores, and in their order. -/
theorem step_creates (hbase : S.Base) (h : S.Step e S')
    (hunused : (S.sems.sems semId).used = false) (hused : (S'.sems.sems semId).used = true) :
    semId ∈ S.creates e := by
  by_cases hmay : MayCreate e
  · unfold MayCreate at hmay
    split at hmay
    · rename_i name value
      obtain ⟨c, hc, hf, hcall⟩ := step_call h
      have hdone : (S.sysSemOpen c name value).2 = S' := Option.some.inj hcall
      unfold sysSemOpen at hdone
      split at hdone
      · rename_i hnew
        obtain ⟨r, hcreate⟩ : ∃ r, S.semCreate c name value = (r, S') := ⟨_, by rw [← hdone]⟩
        simp only [creates, hnew, if_true]
        rw [freeSlots_some (semCreate_creates hcreate hunused hused)]
        exact List.mem_cons_self
      · obtain ⟨r, hopen⟩ : ∃ r, S.semOpen c name = (r, S') := ⟨_, by rw [← hdone]⟩
        rw [semOpen_creates hopen hunused] at hused
        exact absurd hused (by decide)
    · rename_i fresh
      obtain ⟨c, hc, hf, hcall⟩ := step_call h
      simp only [sysCall, Option.map_eq_map, Option.map_eq_some_iff, Prod.exists] at hcall
      obtain ⟨r, M, hpipe, rfl⟩ := hcall
      unfold creates
      exact createPipe_creates hpipe hunused hused
    · exact hmay.elim
  · have hsame := (step_path hbase h).invariant (I := fun M => (M.sems.sems semId).used = false)
      hunused ?_
    · rw [hsame] at hused
      exact absurd hused (by decide)
    · intro M a M' hM ha hd
      rcases hd.slot semId with heq | ⟨-, ⟨value, rfl⟩ | hused'⟩ | ⟨_, _, -, heq⟩ | ⟨_, -, heq⟩ |
        ⟨-, heq⟩
      · rw [heq, hM]
      · exact absurd ha hmay
      · rw [hM] at hused'
        exact absurd hused' (by decide)
      · rw [heq]
        exact hM
      · rw [heq]
        exact hM
      · rw [heq]

/-! ## Those inside when a semaphore is destroyed -/

/-- An event that may destroy semaphores creates none. -/
theorem mayDestroy_not_create (h : S.MayDestroy e semId) : ¬MayCreate e := by
  intro hcreate
  unfold MayCreate at hcreate
  split at hcreate
  · exact h
  · exact h
  · exact hcreate

/-- The step that destroys a semaphore leaves its slot not in use. -/
theorem step_destroyed (hbase : S.Base) (h : S.Step e S')
    (hrec : S.Records S' (.semDestroyed semId)) : (S'.sems.sems semId).used = false := by
  have hpath := step_path hbase h
  have hmay := hpath.mayDestroy hrec
  refine hpath.invariant (I := fun M => S.Records M (.semDestroyed semId) →
    (M.sems.sems semId).used = false) (fun habs => absurd habs not_records_self) ?_ hrec
  intro M a M' hM ha hd hM'
  by_cases hlast : M.Records M' (.semDestroyed semId)
  · obtain rfl := hd.records_destroyed hlast
    cases hd with
    | destroy => exact congrArg Sem.used (SemTable.setSem_sems_self (T := M.sems))
  · have hunused := hM ((hM'.split M).resolve_right hlast)
    rcases hd.slot semId with heq | ⟨-, ⟨value, rfl⟩ | hused⟩ | ⟨_, _, -, heq⟩ | ⟨_, -, heq⟩ |
      ⟨rfl, heq⟩
    · rw [heq, hunused]
    · -- an event that destroys creates nothing
      exact absurd ha (mayDestroy_not_create hmay)
    · rw [hunused] at hused
      exact absurd hused (by decide)
    · rw [heq]
      exact hunused
    · rw [heq]
      exact hunused
    · rw [heq]

/-- Without the CPU nobody gets into `semWait`. -/
theorem outside_step {k : AfterWait} (hbase : S.Base) (hc : S.sched.currentProcess ≠ some p)
    (hstep : S.Step e S') (h : S'.frames p = .semWait semId k) :
    S.frames p = .semWait semId k :=
  ((step_path hbase hstep).frames_semWait h).resolve_right fun ⟨_, hc', _⟩ => hc hc'

/-- Where the rules are kept, the slot that somebody is inside stays free until it has the CPU. -/
theorem free_step {k : AfterWait} (hbase : S.Base) (hok : S.keepsReleased e)
    (hc : S.sched.currentProcess ≠ some p) (hstep : S.Step e S')
    (h : S.frames p = .semWait semId k → (S.sems.sems semId).used = false)
    (hf : S'.frames p = .semWait semId k) : (S'.sems.sems semId).used = false := by
  have hS := outside_step hbase hc hstep hf
  by_contra hused
  exact hok.creates semId (step_creates hbase hstep (h hS) (by simpa using hused)) p k hS

/-! ## Every run keeps it -/

/-- The call of `semWait` that goes on returns: the slot is still free, nobody falls asleep, and
neither the queue that was freed nor another semaphore is touched. -/
def Returns (S : Machine) (p : ℤ) (semId : ℕ) (k : AfterWait) : Prop :=
  (S.sems.sems semId).used = false ∧ ∃ S', S.semWaitLoop p semId k = some (true, S') ∧
    S'.sched = S.sched ∧ (S'.sems.sems semId).waiting = (S.sems.sems semId).waiting ∧
      ∀ i, i ≠ semId → S'.sems.sems i = S.sems.sems i

/-- Nobody is blocked on a semaphore not in use or in its queue, and the calls
that a step finds on a semaphore it destroys return when they go on. -/
structure WaitersReleased (ok : Machine → Event → Prop) (S : Machine) : Prop where
  blocked : ∀ p semId k, (S.sched.processes p).state = BLOCKED →
    S.frames p = .semWait semId k → (S.sems.sems semId).used = true
  enqueued : ∀ p semId q, (S.sems.sems semId).used = false →
    (S.sems.sems semId).waiting = .queue q → p ∉ q
  released : ∀ e S₁ semId, ok S e → S.Step e S₁ → S.Records S₁ (.semDestroyed semId) →
    ∀ p k, S.frames p = .semWait semId k →
      ∀ S₂, Reaches Step (fun T e => ok T e ∧ T.sched.currentProcess ≠ some p) S₁ S₂ →
        S₂.sched.currentProcess = some p → S₂.frames p = .semWait semId k → S₂.Returns p semId k

/-- Whoever is inside `semWait` on a slot not in use takes a token there. -/
theorem Housed.returns {k : AfterWait} (h : S.Housed 0) (hf : S.frames p = .semWait semId k)
    (hunused : (S.sems.sems semId).used = false) : S.Returns p semId k := by
  have hvalue : (S.sems.sems semId).value ≠ 0 :=
    (h.rested semId hunused).value_ne_zero (h.range p semId k hf).1.ne' (h.range p semId k hf) hf
  refine ⟨hunused, S.takeOne p semId, ?_, rfl, ?_, fun i hi => ?_⟩
  · unfold semWaitLoop
    rw [if_neg hvalue]
    rfl
  · unfold Machine.takeOne
    rw [note_sems, setSem_sems, SemTable.setSem_sems_self]
  · exact SemTable.setSem_sems_of_ne hi

/-- **Destroying a semaphore releases its waiters** in every run in which there is a token for
everybody inside it at that moment. -/
theorem semDestroy_releases (nodes blocks : ℕ → Bool) (S : Machine)
    (h : Reaches Step keepsReleased (boot nodes blocks) S) : S.WaitersReleased keepsReleased := by
  have hkept : ∀ (T : Machine) (e : Event) (T' : Machine), T.Base ∧ T.Housed 0 →
      T.keepsReleased e → T.Step e T' → T'.Base ∧ T'.Housed 0 := fun T e T' hT hok hstep =>
    ⟨hT.1.step hstep, housed_step hT.1 hT.2 hok hstep⟩
  obtain ⟨hbase, hhoused⟩ := h.invariant (I := fun S => S.Base ∧ S.Housed 0)
    ⟨base_boot, housed_boot nodes blocks⟩ hkept
  constructor
  · intro p semId k hblocked hp
    by_contra hused
    exact (hhoused.everybody (by simpa using hused)).1 p k hp hblocked
  · intro p semId q hused hq
    rw [hhoused.queued semId q hq] at hused
    exact absurd hused (by decide)
  · intro e S₁ semId hok hstep hrec p k _ S₂ hrun _ hp₂
    have hfreed := step_destroyed hbase hstep hrec
    obtain ⟨⟨-, hhoused₂⟩, hfree⟩ := hrun.invariant
      (I := fun T => (T.Base ∧ T.Housed 0) ∧
        (T.frames p = .semWait semId k → (T.sems.sems semId).used = false))
      ⟨hkept S e S₁ ⟨hbase, hhoused⟩ hok hstep, fun _ => hfreed⟩
      fun T e T' hT hrules hstep' => ⟨hkept T e T' hT.1 hrules.1 hstep',
        free_step hT.1.1 hrules.1 hrules.2 hstep' hT.2⟩
    exact hhoused₂.returns hp₂ (hfree hp₂)

/-! ## Runs that keep to the rules -/

/-- The first rule, for the processes that may be inside. -/
def coveredIn (S : Machine) (semId : ℕ) : Bool :=
  decide ((S.inside semId).card ≤ S.tokens semId) && pids.all fun p =>
    decide ((S.frames p).semaphore ≠ some semId) || decide
      ((S.sched.processes p).state ≠ BLOCKED) ||
      decide (p ∈ S.waiters semId)

/-- An event that blocks nobody, kills nobody, destroys only covered semaphores, and gives away
no slot that somebody is inside. -/
def releasing (S : Machine) (e : Event) : Bool :=
  ((S.destroys e).all fun semId => e.victim.isNone && S.coveredIn semId.toNat) &&
    ((S.creates e).all fun semId => decide (S.inside semId = ∅)) &&
      match e with
      | .call (.block _) => false
      | _ => true

theorem Housed.coveredIn (h : S.Housed out) (hcheck : S.coveredIn semId = true) :
    S.Covered semId := by
  obtain ⟨henough, hall⟩ := Bool.and_eq_true_iff.mp hcheck
  refine ⟨fun p k hf hb => ?_, of_decide_eq_true henough⟩
  have hone := List.all_eq_true.mp hall p (mem_pids.mpr (h.range p semId k hf))
  simpa [hf, hb, Frame.semaphore] using hone

theorem Housed.releasing (h : S.Housed out) (hcheck : S.releasing e = true) :
    S.keepsReleased e := by
  obtain ⟨hlists, hrest⟩ := Bool.and_eq_true_iff.mp hcheck
  obtain ⟨hdestroys, hcreates⟩ := Bool.and_eq_true_iff.mp hlists
  refine ⟨fun semId hmem => ?_, ?_, fun semId hmem p k hf => ?_⟩
  · have hone := List.all_eq_true.mp hdestroys semId hmem
    obtain ⟨hnone, hcovered⟩ := Bool.and_eq_true_iff.mp hone
    rw [Option.isNone_iff_eq_none.mp hnone]
    exact h.coveredIn hcovered
  · rintro pid semId k rfl
    exact absurd hrest (by simp)
  · have hempty := of_decide_eq_true (List.all_eq_true.mp hcreates semId hmem)
    have hmem' : p ∈ S.inside semId := mem_inside.mpr ⟨h.range p semId k hf, k, hf⟩
    rw [hempty] at hmem'
    exact absurd hmem' (Finset.notMem_empty p)

/-- The worker sleeps and gets a token; the shell destroys the semaphore, and yields. -/
def destroyedUnderWorker : Option (Machine × Machine × Machine) := do
  let S ← exec (fun S e => if releasing S e = true then S.step e else none) booted
    (workerSleeps ++ [.call (.semPost 3)])
  let S₁ ← S.step (.call (.semDestroy 3))
  let S₂ ← S₁.step (.call .yield)
  return (S, S₁, S₂)

/-- **The semaphore goes, and its waiter returns** when it has the CPU again. -/
theorem semDestroy_releases_worker : ∃ S S₁ S₂, Reaches Step keepsReleased booted S ∧
    S.frames 3 = .semWait 3 .done ∧ S.Step (.call (.semDestroy 3)) S₁ ∧
    S.Records S₁ (.semDestroyed 3) ∧ S₁.Step (.call .yield) S₂ ∧
    S₂.sched.currentProcess = some 3 ∧ S₂.Returns 3 3 .done := by
  obtain ⟨⟨S, S₁, S₂⟩, hall⟩ := Option.isSome_iff_exists.mp (by decide +kernel :
    destroyedUnderWorker.isSome)
  have hfacts : destroyedUnderWorker.map (fun (S, S₁, S₂) =>
      ((S.frames 3, S.releasing (.call (.semDestroy 3)), S₁.releasing (.call .yield)),
        (S.trace.count (.semDestroyed 3), S₁.trace.count (.semDestroyed 3)),
        S₁.sched.currentProcess, S₂.sched.currentProcess, S₂.frames 3)) =
      some ((.semWait 3 .done, true, true), (0, 1), some 2, some 3, .semWait 3 .done) := by
    decide +kernel
  rw [hall] at hfacts
  simp only [Option.map_some, Option.some.injEq, Prod.mk.injEq] at hfacts
  obtain ⟨⟨hf, hok, hok₁⟩, ⟨hbefore, hafter⟩, hc₁, hc₂, hf₂⟩ := hfacts
  simp only [destroyedUnderWorker, Option.bind_eq_bind, Option.bind_eq_some_iff, Option.pure_def,
    Option.some.injEq, Prod.mk.injEq] at hall
  obtain ⟨S, hS, S₁, hS₁, S₂, hS₂, rfl, rfl, rfl⟩ := hall
  have hkeeps : ∀ (M : Machine) (e : Event) (M' : Machine), M.Base ∧ M.Housed 0 →
      M.releasing e = true → M.Step e M' → M'.Base ∧ M'.Housed 0 := fun M e M' hM hcheck hstep =>
    ⟨hM.1.step hstep, housed_step hM.1 hM.2 (hM.2.releasing hcheck) hstep⟩
  have hreach : Reaches Step (fun S e => releasing S e = true) booted S := exec_guarded hS
  obtain ⟨hkept, hrun⟩ := hreach.invariant (I := fun S => (S.Base ∧ S.Housed 0) ∧
    Reaches Step keepsReleased booted S) ⟨⟨base_boot, housed_boot _ _⟩, Reaches.refl _⟩
    fun M e M' hM hcheck hstep => ⟨hkeeps M e M' hM.1 hcheck hstep,
      hM.2.tail (hM.1.2.releasing hcheck) hstep⟩
  have hkept₁ := hkeeps _ _ _ hkept hok hS₁
  have hrec : S.Records S₁ (.semDestroyed 3) := by
    unfold Records
    omega
  have hlast :
      Reaches Step (fun T e => keepsReleased T e ∧ T.sched.currentProcess ≠ some 3) S₁ S₂ :=
    (Reaches.refl _).tail ⟨hkept₁.2.releasing hok₁, by rw [hc₁]; simp⟩ hS₂
  refine ⟨S, S₁, S₂, hrun, hf, hS₁, hrec, hS₂, hc₂, ?_⟩
  exact (semDestroy_releases _ _ S hrun).released _ S₁ 3 (hkept.2.releasing hok) hS₁ hrec 3 _ hf S₂
    hlast hc₂ hf₂

/-- **A waiter outlives its semaphore**: the value is zero when the shell destroys it, and the
worker goes on, finds the zero and queues itself in the queue that was freed. -/
theorem semDestroy_leaves_waiter : ¬∀ nodes blocks S, Reaches Step always (boot nodes blocks) S →
    ∀ e S₁ semId, S.Step e S₁ → S.Records S₁ (.semDestroyed semId) →
      (S.sems.sems semId).value = 0 → ∀ p k, S.frames p = .semWait semId k →
        ∀ S₂, Reaches Step (fun T _ => T.sched.currentProcess ≠ some p) S₁ S₂ →
          S₂.sched.currentProcess = some p → S₂.frames p = .semWait semId k →
            S₂.Returns p semId k := by
  intro hall
  obtain ⟨S, hS⟩ := Option.isSome_iff_exists.mp (by decide +kernel :
    (exec step booted workerSleeps).isSome)
  obtain ⟨S₁, hS₁⟩ := Option.isSome_iff_exists.mp (by decide +kernel :
    ((exec step booted workerSleeps).bind fun S => S.step (.call (.semDestroy 3))).isSome)
  obtain ⟨S₂, hS₂⟩ := Option.isSome_iff_exists.mp (by decide +kernel :
    (((exec step booted workerSleeps).bind fun S => S.step (.call (.semDestroy 3))).bind
      fun S => S.step (.call .yield)).isSome)
  have hbefore : (exec step booted workerSleeps).map (fun S =>
      (S.trace.count (.semDestroyed 3), (S.sems.sems 3).value, S.frames 3)) =
        some (0, 0, .semWait 3 .done) := by
    decide +kernel
  have hdestroyed : ((exec step booted workerSleeps).bind
      fun S => S.step (.call (.semDestroy 3))).map (fun S =>
        (S.trace.count (.semDestroyed 3), S.sched.currentProcess)) = some (1, some 2) := by
    decide +kernel
  have hafter : (((exec step booted workerSleeps).bind
      fun S => S.step (.call (.semDestroy 3))).bind fun S => S.step (.call .yield)).map (fun S =>
        (S.sched.currentProcess, S.frames 3, (S.semWaitLoop 3 3 .done).isSome)) =
          some (some 3, .semWait 3 .done, false) := by
    decide +kernel
  rw [hS₂] at hafter
  rw [hS₁] at hdestroyed hS₂
  rw [hS] at hbefore hS₁
  simp only [Option.map_some, Option.some.injEq, Prod.mk.injEq, Option.bind_some] at *
  have hrec : S.Records S₁ (.semDestroyed 3) := by
    unfold Records
    omega
  have hlast : Reaches Step (fun T _ => T.sched.currentProcess ≠ some 3) S₁ S₂ :=
    (Reaches.refl _).tail (e := .call .yield) (by rw [hdestroyed.2]; simp) hS₂
  obtain ⟨-, S', hloop, -⟩ := hall _ _ S (exec_always hS fun _ _ _ => trivial) _ S₁ 3 hS₁ hrec
    hbefore.2.1 3 _ hbefore.2.2 S₂ hlast hafter.1 hafter.2.1
  rw [hloop] at hafter
  exact absurd hafter.2.2 (by simp)

end Machine

end BareKernel.Kernel
