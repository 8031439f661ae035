import BareKernel.Kernel.SemaphoreNames
import BareKernel.Kernel.StepTrace
import Mathlib.Algebra.Order.Ring.Int

/-!
# Semaphores count

The value of a semaphore is the one it was created with, and one more for each
`semPost` and one less for each `semWait` that came through. It is never
negative as long as no `semPost` finds the largest `int`. Where only those post
who have waited, no more of them are between the two than the first value.
-/

namespace BareKernel.Kernel

open ProcessState Runs

namespace Obs

variable {semId : ℕ} {o : Obs}

/-- The semaphore is created or destroyed, or its value is set. -/
def resets (semId : ℕ) : Obs → Bool
  | .semCreated i _ | .semSet i _ | .semDestroyed i => i = semId
  | _ => false

/-- A `semWait` on the semaphore comes through. -/
def waits (semId : ℕ) : Obs → Bool
  | .semWaited _ i => i = semId
  | _ => false

def posts (semId : ℕ) : Obs → Bool
  | .semPosted _ i _ => i = semId
  | _ => false

/-- A post that finds the largest `int`. -/
def floods (semId : ℕ) : Obs → Bool
  | .semPosted _ i before => i = semId ∧ before = 2147483647
  | _ => false

/-- It is about something else. -/
structure Elsewhere (semId : ℕ) (o : Obs) : Prop where
  resets : o.resets semId = false
  waits : o.waits semId = false
  posts : o.posts semId = false

end Obs

section Counts

variable {semId : ℕ} {v x : Int32} {o : Obs} {t since : List Obs} {p : ℤ} {poster : Option ℤ}

/-- What happened to the semaphore since it was created with the value `v`, newest first. -/
structure Lifetime (t : List Obs) (semId : ℕ) (v : Int32) (since : List Obs) : Prop where
  created : ∃ before, t = since ++ .semCreated semId v :: before
  still : ∀ o ∈ since, o.resets semId = false

theorem Lifetime.nil (h : Lifetime [] semId v since) : False := by
  obtain ⟨before, hbefore⟩ := h.created
  exact absurd hbefore (by simp)

/-- A lifetime has just begun, or what it has seen of the trace is one more. -/
theorem Lifetime.cons (h : Lifetime (o :: t) semId v since) :
    since = [] ∧ o = .semCreated semId v ∨
      ∃ rest, since = o :: rest ∧ o.resets semId = false ∧ Lifetime t semId v rest := by
  obtain ⟨⟨before, hbefore⟩, hstill⟩ := h
  cases since with
  | nil =>
      rw [List.nil_append, List.cons.injEq] at hbefore
      exact .inl ⟨rfl, hbefore.1⟩
  | cons o' rest =>
      rw [List.cons_append, List.cons.injEq] at hbefore
      obtain ⟨rfl, hrest⟩ := hbefore
      refine .inr ⟨rest, rfl, hstill o List.mem_cons_self, ⟨before, hrest⟩, ?_⟩
      exact fun o' ho' => hstill o' (List.mem_cons_of_mem _ ho')

/-- The value is what was there at first, with the posts and without the waits. -/
structure Counted (semId : ℕ) (v : Int32) (since : List Obs) (x : Int32) : Prop where
  value : x.toInt = v.toInt + since.countP (Obs.posts semId) - since.countP (Obs.waits semId)
  nonneg : 0 ≤ x.toInt

/-- Those who came through `semWait` and have not posted since. -/
def holders (semId : ℕ) : List Obs → List ℤ
  | [] => []
  | .semWaited p i :: t => if i = semId then p :: holders semId t else holders semId t
  | .semPosted (some p) i _ :: t =>
      if i = semId then (holders semId t).erase p else holders semId t
  | _ :: t => holders semId t

/-- Only those post who have waited. -/
def Paired (semId : ℕ) (since : List Obs) : Prop :=
  ∀ poster value before, .semPosted poster semId value :: before <:+ since →
    ∃ p, poster = some p ∧ p ∈ holders semId before

theorem Paired.tail (h : Paired semId (o :: t)) : Paired semId t :=
  fun poster value before hbefore => h poster value before (hbefore.trans (List.suffix_cons o t))

theorem Paired.cons (h : Paired semId t) (hpost : ∀ poster value,
    o = .semPosted poster semId value → ∃ p, poster = some p ∧ p ∈ holders semId t) :
    Paired semId (o :: t) := by
  intro poster value before hbefore
  rcases List.suffix_cons_iff.mp hbefore with heq | hrest
  · obtain ⟨rfl, rfl⟩ := List.cons.inj heq
    exact hpost poster value rfl
  · exact h poster value before hrest

/-! ## Values -/

theorem toInt_dec (hx : x ≠ 0) (hnonneg : 0 ≤ x.toInt) :
    (x - 1).toInt = x.toInt - 1 ∧ 0 < x.toInt := by
  have hpos : 0 < x.toInt := by
    apply lt_of_le_of_ne hnonneg
    intro hzero
    exact hx (Int32.toInt_inj.mp (by rw [← hzero]; rfl))
  have hbound := Int32.toInt_lt x
  refine ⟨?_, hpos⟩
  rw [Int32.toInt_sub]
  change (x.toInt - 1).bmod (2 ^ 32) = x.toInt - 1
  rw [Int.bmod_eq_of_le] <;> omega

theorem toInt_inc (hx : x.toInt < 2 ^ 31 - 1) (hnonneg : 0 ≤ x.toInt) :
    (x + 1).toInt = x.toInt + 1 := by
  rw [Int32.toInt_add]
  change (x.toInt + 1).bmod (2 ^ 32) = x.toInt + 1
  rw [Int.bmod_eq_of_le] <;> omega

/-- A post that does not find the largest `int` has room for one more. -/
theorem room_of_not_floods (h : (Obs.semPosted poster semId x).floods semId = false) :
    x.toInt < 2 ^ 31 - 1 := by
  have hne : x ≠ 2147483647 := by
    rintro rfl
    exact absurd h (by simp [Obs.floods])
  have hbound := Int32.toInt_lt x
  have hmax : x.toInt ≠ 2 ^ 31 - 1 := by
    intro hmax
    exact hne (Int32.toInt_inj.mp hmax)
  omega

/-! ## What one observation does -/

theorem Counted.start (hv : 0 ≤ v.toInt) : Counted semId v [] v := ⟨by simp, hv⟩

theorem Counted.elsewhere (h : Counted semId v since x) (ho : o.Elsewhere semId) :
    Counted semId v (o :: since) x := by
  refine ⟨?_, h.nonneg⟩
  rw [List.countP_cons_of_neg (by simp [ho.posts]), List.countP_cons_of_neg (by simp [ho.waits])]
  exact h.value

theorem Counted.wait (h : Counted semId v since x) (hx : x ≠ 0) :
    Counted semId v (.semWaited p semId :: since) (x - 1) := by
  obtain ⟨hless, hpos⟩ := toInt_dec hx h.nonneg
  have hvalue := h.value
  constructor
  · rw [List.countP_cons_of_neg (by simp [Obs.posts]),
      List.countP_cons_of_pos (by simp [Obs.waits]), hless]
    push_cast
    omega
  · omega

theorem Counted.post (h : Counted semId v since x) (hx : x.toInt < 2 ^ 31 - 1) :
    Counted semId v (.semPosted poster semId x :: since) (x + 1) := by
  have hnonneg := h.nonneg
  have hmore := toInt_inc hx hnonneg
  have hvalue := h.value
  constructor
  · rw [List.countP_cons_of_pos (by simp [Obs.posts]),
      List.countP_cons_of_neg (by simp [Obs.waits]), hmore]
    push_cast
    omega
  · omega

theorem holders_elsewhere (ho : o.Elsewhere semId) :
    holders semId (o :: since) = holders semId since := by
  cases o with
  | semWaited p i => exact if_neg (by simpa [Obs.waits] using ho.waits)
  | semPosted poster i before =>
      cases poster with
      | none => rfl
      | some p => exact if_neg (by simpa [Obs.posts] using ho.posts)
  | _ => rfl

theorem holders_wait : holders semId (.semWaited p semId :: since) = p :: holders semId since :=
  if_pos rfl

theorem holders_post :
    holders semId (.semPosted (some p) semId x :: since) = (holders semId since).erase p :=
  if_pos rfl

/-- The value and those who are between a wait and their post make up the first value. -/
structure Shared (semId : ℕ) (v : Int32) (since : List Obs) (x : Int32) : Prop where
  value : x.toInt + (holders semId since).length = v.toInt
  nonneg : 0 ≤ x.toInt

theorem Shared.start (hv : 0 ≤ v.toInt) : Shared semId v [] v := ⟨by simp [holders], hv⟩

theorem Shared.elsewhere (h : Shared semId v since x) (ho : o.Elsewhere semId) :
    Shared semId v (o :: since) x := by
  refine ⟨?_, h.nonneg⟩
  rw [holders_elsewhere ho]
  exact h.value

theorem Shared.wait (h : Shared semId v since x) (hx : x ≠ 0) :
    Shared semId v (.semWaited p semId :: since) (x - 1) := by
  obtain ⟨hless, hpos⟩ := toInt_dec hx h.nonneg
  have hvalue := h.value
  constructor
  · rw [holders_wait, hless, List.length_cons]
    push_cast
    omega
  · omega

/-- Whoever posts was one of those, so there is room. -/
theorem Shared.post (h : Shared semId v since x) (hp : p ∈ holders semId since) :
    Shared semId v (.semPosted (some p) semId x :: since) (x + 1) := by
  have hvalue := h.value
  have hnonneg := h.nonneg
  have hbound := Int32.toInt_lt v
  have hsome : 0 < (holders semId since).length := List.length_pos_of_mem hp
  have hmore := toInt_inc (by omega) hnonneg
  constructor
  · rw [holders_post, hmore, List.length_erase_of_mem hp]
    omega
  · omega

end Counts

namespace Machine

variable {S S' : Machine} {a : Act} {semId : ℕ} {v : Int32} {since : List Obs} {o : Obs}

/-! ## What the actions record -/

/-- One action, as the semaphore sees it. -/
inductive Tallies (semId : ℕ) (t : List Obs) (x : Int32) : List Obs → Int32 → Prop where
  | same : Tallies semId t x t x
  | elsewhere {o : Obs} (ho : o.Elsewhere semId) : Tallies semId t x (o :: t) x
  | twice {o o' : Obs} (ho : o.Elsewhere semId) (ho' : o'.Elsewhere semId) :
      Tallies semId t x (o' :: o :: t) x
  | wait {p : ℤ} (hx : x ≠ 0) : Tallies semId t x (.semWaited p semId :: t) (x - 1)
  | post {poster : Option ℤ} : Tallies semId t x (.semPosted poster semId x :: t) (x + 1)
  | create {v : Int32} : Tallies semId t x (.semCreated semId v :: t) v
  | reset {o : Obs} {y : Int32} (ho : o.resets semId = true)
      (hnew : ∀ v, o ≠ .semCreated semId v) : Tallies semId t x (o :: t) y

/-- The value that a semaphore has. -/
def count (S : Machine) (semId : ℕ) : Int32 := (S.sems.sems semId).value

theorem setSem_count_of_ne {i : ℕ} {s : Sem} (h : semId ≠ i) :
    (S.setSem i s).count semId = S.count semId := by
  unfold count
  rw [setSem_sems, SemTable.setSem_sems_of_ne h]

theorem setSem_count {s : Sem} : (S.setSem semId s).count semId = s.value := by
  unfold count
  rw [setSem_sems, SemTable.setSem_sems_self]

theorem enlist_count (pid : ℤ) (i : ℕ) : (S.enlist pid i).count semId = S.count semId := by
  unfold enlist
  split
  · by_cases h : semId = i
    · subst h
      exact setSem_count
    · exact setSem_count_of_ne h
  · rfl

/-- **Every action**, as a semaphore sees it. -/
theorem Does.tallies (hd : S.Does a S') (semId : ℕ) :
    Tallies semId S.trace (S.count semId) S'.trace (S'.count semId) := by
  have hsame : ∀ {T : Machine}, T.trace = S.trace → T.count semId = S.count semId →
      Tallies semId S.trace (S.count semId) T.trace (T.count semId) := by
    intro T htrace hcount
    rw [htrace, hcount]
    exact .same
  have hnote : ∀ {T : Machine} {o : Obs}, T.trace = S.trace → T.count semId = S.count semId →
      o.Elsewhere semId →
        Tallies semId S.trace (S.count semId) (T.note o).trace ((T.note o).count semId) := by
    intro T o htrace hcount ho
    change Tallies semId S.trace (S.count semId) (o :: T.trace) (T.count semId)
    rw [htrace, hcount]
    exact .elsewhere ho
  cases hd with
  | create => exact hnote rfl rfl ⟨rfl, rfl, rfl⟩
  | returned => exact hnote rfl rfl ⟨rfl, rfl, rfl⟩
  | kill => exact hnote rfl rfl ⟨rfl, rfl, rfl⟩
  | killWake =>
      refine hsame (killWake_trace _ _) ?_
      unfold count
      rw [killWake_sems]
  | waitBlock => exact hnote rfl rfl ⟨rfl, rfl, rfl⟩
  | waitGone => exact .twice ⟨rfl, rfl, rfl⟩ ⟨rfl, rfl, rfl⟩
  | waitRead => exact hnote rfl rfl ⟨rfl, rfl, rfl⟩
  | @semCreate c name value waiting i T hc hf hw hcreate =>
      obtain rfl : T = S.sems.setSem i ((S.sems.sems i).fill c name value waiting) := by
        rcases SemTable.semCreate_cases S.sems c name value waiting with hnone | ⟨j, -, -, -, heq⟩
        · rw [hnone] at hcreate
          exact absurd hcreate (by simp)
        · rw [heq, Prod.mk.injEq, Option.some.injEq] at hcreate
          obtain ⟨rfl, rfl⟩ := hcreate
          rfl
      by_cases h : semId = i
      · subst h
        have hvalue : (S.setSem semId ((S.sems.sems semId).fill c name value waiting)).count semId =
            value := by
          rw [setSem_count]
          exact (SemTable.setOpened_eq _ _ _).1
        change Tallies semId S.trace _ (.semCreated semId value :: S.trace)
          ((S.setSem semId ((S.sems.sems semId).fill c name value waiting)).count semId)
        rw [hvalue]
        exact .create
      · have hother : Obs.Elsewhere semId (.semCreated i value) :=
          ⟨decide_eq_false (Ne.symm h), rfl, rfl⟩
        exact hnote (T := { S with
          sems := S.sems.setSem i ((S.sems.sems i).fill c name value waiting)
          sched := S.sched.dropBlock }) rfl (setSem_count_of_ne h) hother
  | @mark c i b hc hf hused =>
      refine hsame rfl ?_
      by_cases h : semId = i
      · subst h
        rw [setSem_count]
        exact (SemTable.setOpened_eq _ _ _).1
      · exact setSem_count_of_ne h
  | @sleep pid i k => exact hsame (enlist_trace _ _ _) (enlist_count pid i)
  | @take pid i hc hf hvalue =>
      by_cases h : semId = i
      · subst h
        change Tallies semId S.trace _ (.semWaited pid semId :: S.trace)
          ((S.setSem semId _).count semId)
        rw [setSem_count]
        exact .wait hvalue
      · have hother : Obs.Elsewhere semId (.semWaited pid i) :=
          ⟨rfl, decide_eq_false (Ne.symm h), rfl⟩
        exact hnote rfl (setSem_count_of_ne h) hother
  | @post i =>
      by_cases h : semId = i
      · subst h
        change Tallies semId S.trace _ (.semPosted S.sched.currentProcess semId _ :: S.trace)
          ((S.setSem semId _).count semId)
        rw [setSem_count]
        exact .post
      · have hother : Obs.Elsewhere semId
            (.semPosted S.sched.currentProcess i (S.sems.sems i).value) :=
          ⟨rfl, rfl, decide_eq_false (Ne.symm h)⟩
        exact hnote rfl (setSem_count_of_ne h) hother
  | @wake c pid i rest =>
      refine hsame rfl ?_
      by_cases h : semId = i
      · subst h
        exact setSem_count
      · exact setSem_count_of_ne h
  | @set i value =>
      by_cases h : semId = i
      · subst h
        exact .reset (decide_eq_true (Eq.refl semId)) (by simp)
      · have hother : Obs.Elsewhere semId (.semSet i value) :=
          ⟨decide_eq_false (Ne.symm h), rfl, rfl⟩
        exact hnote rfl (setSem_count_of_ne h) hother
  | @destroy i =>
      by_cases h : semId = i
      · subst h
        exact .reset (decide_eq_true (Eq.refl semId)) (by simp)
      · have hother : Obs.Elsewhere semId (.semDestroyed i) :=
          ⟨decide_eq_false (Ne.symm h), rfl, rfl⟩
        exact hnote (T := { S with sems := S.sems.release i }) rfl (setSem_count_of_ne h) hother
  | @moved o ho =>
      refine hnote rfl rfl ?_
      cases o <;> first | exact ⟨rfl, rfl, rfl⟩ | exact ho.elim
  | _ => exact hsame rfl rfl

/-! ## Every run -/

/-- What each wait and each post keeps during a lifetime, as long as `Q` holds of what
happened in it. -/
structure Keeps (semId : ℕ) (Q : List Obs → Prop) (P : Int32 → List Obs → Int32 → Prop) : Prop where
  tail : ∀ o t, Q (o :: t) → Q t
  start : ∀ v, 0 ≤ v.toInt → P v [] v
  elsewhere : ∀ v t x o, P v t x → o.Elsewhere semId → P v (o :: t) x
  wait : ∀ v t x p, P v t x → x ≠ 0 → P v (.semWaited p semId :: t) (x - 1)
  post : ∀ v t x poster, Q (.semPosted poster semId x :: t) → P v t x →
    P v (.semPosted poster semId x :: t) (x + 1)

variable {Q : List Obs → Prop} {P : Int32 → List Obs → Int32 → Prop} {nodes blocks : ℕ → Bool}

/-- It holds in every lifetime that the trace shows. -/
def Throughout (semId : ℕ) (Q : List Obs → Prop) (P : Int32 → List Obs → Int32 → Prop)
    (t : List Obs) (x : Int32) : Prop :=
  ∀ v since, Lifetime t semId v since → 0 ≤ v.toInt → Q since → P v since x

theorem Throughout.elsewhere {t : List Obs} {x : Int32} (h : Throughout semId Q P t x)
    (hkeeps : Keeps semId Q P) (ho : o.Elsewhere semId) : Throughout semId Q P (o :: t) x := by
  intro v since hlife hv hQ
  rcases hlife.cons with ⟨-, rfl⟩ | ⟨rest, rfl, -, hrest⟩
  · exact absurd ho.resets (by simp [Obs.resets])
  · exact hkeeps.elsewhere v rest x o (h v rest hrest hv (hkeeps.tail o rest hQ)) ho

theorem Throughout.tallies {t t' : List Obs} {x x' : Int32} (h : Throughout semId Q P t x)
    (hkeeps : Keeps semId Q P) (hnext : Tallies semId t x t' x') : Throughout semId Q P t' x' := by
  cases hnext with
  | same => exact h
  | elsewhere ho => exact h.elsewhere hkeeps ho
  | twice ho ho' => exact (h.elsewhere hkeeps ho).elsewhere hkeeps ho'
  | @wait p hx =>
      intro v since hlife hv hQ
      rcases hlife.cons with ⟨-, heq⟩ | ⟨rest, rfl, -, hrest⟩
      · exact absurd heq (by simp)
      · exact hkeeps.wait v rest x p (h v rest hrest hv (hkeeps.tail _ rest hQ)) hx
  | @post poster =>
      intro v since hlife hv hQ
      rcases hlife.cons with ⟨-, heq⟩ | ⟨rest, rfl, -, hrest⟩
      · exact absurd heq (by simp)
      · exact hkeeps.post v rest x poster hQ (h v rest hrest hv (hkeeps.tail _ rest hQ))
  | create =>
      intro v since hlife hv hQ
      rcases hlife.cons with ⟨rfl, heq⟩ | ⟨rest, rfl, hreset, -⟩
      · obtain ⟨-, rfl⟩ := Obs.semCreated.inj heq
        exact hkeeps.start _ hv
      · exact absurd hreset (by simp [Obs.resets])
  | reset ho hnew =>
      intro v since hlife hv hQ
      rcases hlife.cons with ⟨-, heq⟩ | ⟨rest, rfl, hreset, -⟩
      · exact absurd heq (hnew v)
      · rw [ho] at hreset
        exact absurd hreset (by simp)

theorem throughout_off (hkeeps : Keeps semId Q P) :
    Throughout semId Q P (off nodes blocks).trace ((off nodes blocks).count semId) := by
  have hnil : ∀ x, Throughout semId Q P [] x := fun x v since hlife => hlife.nil.elim
  have hother : ∀ {i : ℕ} {v : Int32}, semId ≠ i → (Obs.semCreated i v).Elsewhere semId :=
    fun hne => ⟨decide_eq_false (Ne.symm hne), rfl, rfl⟩
  change Throughout semId Q P [.semCreated 2 0, .semCreated 1 2048, .semCreated 0 0] _
  by_cases h₀ : semId = 0
  · subst h₀
    have hfirst : Throughout 0 Q P [.semCreated 0 0] 0 := (hnil 0).tallies hkeeps .create
    exact (hfirst.elsewhere hkeeps (hother (by decide))).elsewhere hkeeps (hother (by decide))
  · by_cases h₁ : semId = 1
    · subst h₁
      have hfirst : Throughout 1 Q P [.semCreated 1 2048, .semCreated 0 0] 2048 :=
        ((hnil 0).elsewhere hkeeps (hother (by decide))).tallies hkeeps .create
      exact hfirst.elsewhere hkeeps (hother (by decide))
    · have hrest : ∀ x, Throughout semId Q P [.semCreated 1 2048, .semCreated 0 0] x := fun x =>
        ((hnil x).elsewhere hkeeps (hother h₀)).elsewhere hkeeps (hother h₁)
      by_cases h₂ : semId = 2
      · subst h₂
        exact (hrest 0).tallies hkeeps .create
      · exact (hrest _).elsewhere hkeeps (hother h₂)

/-- **Lifetime rule**: what waits and posts keep holds in every state of every run. -/
theorem throughout_run (hkeeps : Keeps semId Q P) (h : Reaches Step always (boot nodes blocks) S) :
    Throughout semId Q P S.trace (S.count semId) := by
  have hpath : ∀ {ok : Act → Prop} {M M' : Machine}, Path ok M M' →
      Throughout semId Q P M.trace (M.count semId) →
        Throughout semId Q P M'.trace (M'.count semId) := by
    intro ok M M' hpath hM
    exact hpath.invariant (I := fun M => Throughout semId Q P M.trace (M.count semId)) hM
      fun _ _ _ hN _ hd => hN.tallies hkeeps (hd.tallies semId)
  exact (h.invariant (I := fun S => S.Base ∧ Throughout semId Q P S.trace (S.count semId))
    ⟨base_boot, hpath boot_path (throughout_off hkeeps)⟩ fun M e M' hM _ hstep =>
      ⟨hM.1.step hstep, hpath (step_path hM.1 hstep) hM.2⟩).2

/-- **The counting law**: unless a post finds the largest `int`, the value is the first one with
all posts and without all waits, and it is not negative. -/
theorem counted_run (h : Reaches Step always (boot nodes blocks) S)
    (hlife : Lifetime S.trace semId v since) (hv : 0 ≤ v.toInt)
    (hroom : ∀ o ∈ since, o.floods semId = false) : Counted semId v since (S.count semId) := by
  have hkeeps : Keeps semId (fun t => ∀ o ∈ t, o.floods semId = false) (Counted semId) := by
    constructor
    · exact fun o t ht o' ho' => ht o' (List.mem_cons_of_mem o ho')
    · exact fun v hv => .start hv
    · exact fun v t x o hP ho => hP.elsewhere ho
    · exact fun v t x p hP hx => hP.wait hx
    · exact fun v t x poster ht hP => hP.post (room_of_not_floods (ht _ List.mem_cons_self))
  exact throughout_run hkeeps h v since hlife hv hroom

/-- **Exclusion**: where only those post who have waited, they are not more than the first value. -/
theorem shared_run (h : Reaches Step always (boot nodes blocks) S)
    (hlife : Lifetime S.trace semId v since) (hv : 0 ≤ v.toInt) (hpaired : Paired semId since) :
    Shared semId v since (S.count semId) := by
  have hkeeps : Keeps semId (Paired semId) (Shared semId) := by
    constructor
    · exact fun o t ht => ht.tail
    · exact fun v hv => .start hv
    · exact fun v t x o hP ho => hP.elsewhere ho
    · exact fun v t x p hP hx => hP.wait hx
    · intro v t x poster ht hP
      obtain ⟨p, rfl, hp⟩ := ht poster x t (List.suffix_refl _)
      exact hP.post hp
  exact throughout_run hkeeps h v since hlife hv hpaired

end Machine

end BareKernel.Kernel
