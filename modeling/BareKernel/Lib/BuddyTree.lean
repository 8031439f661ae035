import Mathlib.Algebra.BigOperators.Group.List.Basic
import Mathlib.Algebra.Order.Ring.Nat
import Mathlib.Data.List.Perm.Basic
import Mathlib.Tactic.Common
import Mathlib.Tactic.Ring

/-!
# Buddy trees

The abstract state of a buddy allocator: a binary tree in which a node of
order `n` covers `2 ^ n` bytes and is wholly free, wholly taken, or split into
two buddies of order `n - 1`. Allocation takes the leftmost free place of the
wanted order; release frees a block and joins buddies that are both free. The
taken leaves are the blocks, and the operations are characterised by what they
do to the list of blocks.
-/

namespace BuddyTree

inductive Buddy : Type where
  | free
  | full
  | split (left right : Buddy)
deriving DecidableEq, Repr

/-- The taken blocks as `(offset, order)`, for a tree of order `ord` at `off`. -/
def blocks : ℕ → ℕ → Buddy → List (ℕ × ℕ)
  | _, _, .free => []
  | ord, off, .full => [(off, ord)]
  | 0, _, .split _ _ => []
  | ord + 1, off, .split l r => blocks ord off l ++ blocks ord (off + 2 ^ ord) r

/-- A tree fits its order and has no split node whose two halves are free. -/
def WF : ℕ → Buddy → Prop
  | _, .free => True
  | _, .full => True
  | 0, .split _ _ => False
  | ord + 1, .split l r => WF ord l ∧ WF ord r ∧ ¬(l = .free ∧ r = .free)

/-- Take the leftmost free place of order `want`; the result is its offset in
the tree and the tree with that place taken. -/
def alloc (want : ℕ) : ℕ → Buddy → Option (ℕ × Buddy)
  | _, .full => none
  | 0, .free => if 0 = want then some (0, .full) else none
  | 0, .split _ _ => none
  | ord + 1, .free =>
      if ord + 1 = want then some (0, .full)
      else (alloc want ord .free).map fun (o, l) => (o, .split l .free)
  | ord + 1, .split l r =>
      if ord + 1 = want then none
      else match alloc want ord l with
        | some (o, l') => some (o, .split l' r)
        | none => (alloc want ord r).map fun (o, r') => (2 ^ ord + o, .split l r')

/-- Two buddies put together. -/
def join (l r : Buddy) : Buddy :=
  if l = .free ∧ r = .free then .free else .split l r

/-- Free the block of order `k` at offset `off` and join on the way back up. -/
def release (k : ℕ) : ℕ → ℕ → Buddy → Buddy
  | 0, _, _ => .free
  | _ + 1, _, .free => .free
  | ord + 1, _, .full => if ord + 1 = k then .free else .full
  | ord + 1, off, .split l r =>
      if ord + 1 = k then .free
      else if 2 ^ ord ≤ off then join l (release k ord (off - 2 ^ ord) r)
      else join (release k ord off l) r

/-! ## The blocks of a tree -/

@[simp] theorem wf_free (ord : ℕ) : WF ord .free := by cases ord <;> trivial

@[simp] theorem wf_full (ord : ℕ) : WF ord .full := by cases ord <;> trivial

theorem blocks_bounds : ∀ {ord off : ℕ} {t : Buddy}, ∀ b ∈ blocks ord off t,
    b.2 ≤ ord ∧ off ≤ b.1 ∧ b.1 + 2 ^ b.2 ≤ off + 2 ^ ord
  | ord, off, .full, b, hb => by
      obtain rfl : b = (off, ord) := by simpa [blocks] using hb
      simp
  | ord + 1, off, .split l r, b, hb => by
      rw [blocks, List.mem_append] at hb
      rw [pow_succ]
      have hpos : 0 < 2 ^ ord := Nat.two_pow_pos _
      rcases hb with hb | hb
      · have := blocks_bounds b hb
        omega
      · have := blocks_bounds b hb
        omega
  | 0, _, .split _ _, b, hb => by simp [blocks] at hb
  | _, _, .free, b, hb => by simp [blocks] at hb

/-- Every block is aligned to its own size, relative to the tree. -/
theorem blocks_aligned : ∀ {ord off : ℕ} {t : Buddy}, 2 ^ ord ∣ off →
    ∀ b ∈ blocks ord off t, 2 ^ b.2 ∣ b.1
  | ord, off, .full, hoff, b, hb => by
      obtain rfl : b = (off, ord) := by simpa [blocks] using hb
      exact hoff
  | ord + 1, off, .split l r, hoff, b, hb => by
      have hleft : 2 ^ ord ∣ off := Dvd.dvd.trans (pow_dvd_pow 2 (Nat.le_succ ord)) hoff
      rw [blocks, List.mem_append] at hb
      rcases hb with hb | hb
      · exact blocks_aligned hleft b hb
      · exact blocks_aligned (Nat.dvd_add hleft (dvd_refl _)) b hb
  | 0, _, .split _ _, _, b, hb => by simp [blocks] at hb
  | _, _, .free, _, b, hb => by simp [blocks] at hb

/-- Blocks come in address order and do not overlap. -/
theorem blocks_pairwise : ∀ {ord off : ℕ} {t : Buddy},
    (blocks ord off t).Pairwise fun b c => b.1 + 2 ^ b.2 ≤ c.1
  | _, _, .free => by simp [blocks]
  | _, _, .full => by simp [blocks]
  | 0, _, .split _ _ => by simp [blocks]
  | ord + 1, off, .split l r => by
      rw [blocks, List.pairwise_append]
      refine ⟨blocks_pairwise, blocks_pairwise, ?_⟩
      intro b hb c hc
      have := blocks_bounds b hb
      have := blocks_bounds c hc
      omega

/-- Blocks that share no byte. -/
def Apart (b c : ℕ × ℕ) : Prop := b.1 + 2 ^ b.2 ≤ c.1 ∨ c.1 + 2 ^ c.2 ≤ b.1

theorem Apart.symm {b c : ℕ × ℕ} (h : Apart b c) : Apart c b := Or.symm h

/-- The same blocks in any order are pairwise apart. -/
theorem blocks_apart {ord off : ℕ} {t : Buddy} {bs : List (ℕ × ℕ)}
    (h : (blocks ord off t).Perm bs) : bs.Pairwise Apart :=
  (h.pairwise_iff Apart.symm).mp (blocks_pairwise.imp Or.inl)

theorem blocks_eq_or_apart {ord off : ℕ} {t : Buddy} {b c : ℕ × ℕ}
    (hb : b ∈ blocks ord off t) (hc : c ∈ blocks ord off t) : b = c ∨ Apart b c := by
  by_cases heq : b = c
  · exact Or.inl heq
  · obtain ⟨bs, hperm⟩ : ∃ bs, (blocks ord off t).Perm (b :: bs) :=
      ⟨_, List.perm_cons_erase hb⟩
    rcases List.mem_cons.mp (hperm.mem_iff.mp hc) with rfl | hc
    · exact absurd rfl heq
    · exact Or.inr ((List.pairwise_cons.mp (blocks_apart hperm)).1 c hc)

theorem blocks_ne_nil : ∀ {ord off : ℕ} {t : Buddy}, WF ord t → t ≠ .free →
    blocks ord off t ≠ []
  | _, _, .free, _, h => absurd rfl h
  | _, _, .full, _, _ => by simp [blocks]
  | 0, _, .split _ _, h, _ => h.elim
  | ord + 1, off, .split l r, ⟨hl, hr, hne⟩, _ => by
      rw [blocks]
      intro happ
      obtain ⟨hl', hr'⟩ := List.append_eq_nil_iff.mp happ
      by_cases hlf : l = .free
      · exact blocks_ne_nil hr (fun hrf => hne ⟨hlf, hrf⟩) hr'
      · exact blocks_ne_nil hl hlf hl'

/-! ## Allocation -/

theorem alloc_full (want ord : ℕ) : alloc want ord .full = none := by
  cases ord <;> rfl

theorem alloc_free {want : ℕ} : ∀ {ord : ℕ}, want ≤ ord →
    ∃ t, alloc want ord .free = some (0, t)
  | 0, h => ⟨.full, by simp [alloc, Nat.le_zero.mp h]⟩
  | ord + 1, h => by
      by_cases hw : ord + 1 = want
      · exact ⟨.full, by simp [alloc, hw]⟩
      · obtain ⟨t, ht⟩ := alloc_free (show want ≤ ord by omega)
        exact ⟨.split t .free, by simp [alloc, hw, ht]⟩

theorem alloc_ne_free {want : ℕ} : ∀ {ord o : ℕ} {t t' : Buddy},
    alloc want ord t = some (o, t') → t' ≠ .free
  | _, _, .full, _, h => by simp [alloc] at h
  | 0, _, .split _ _, _, h => by simp [alloc] at h
  | 0, _, .free, t', h => by
      rw [alloc] at h
      split at h
      · obtain ⟨-, rfl⟩ : _ ∧ Buddy.full = t' := by simpa using h
        simp
      · cases h
  | ord + 1, _, .free, t', h => by
      rw [alloc] at h
      split at h
      · obtain ⟨-, rfl⟩ : _ ∧ Buddy.full = t' := by simpa using h
        simp
      · obtain ⟨⟨o', l⟩, -, heq⟩ := Option.map_eq_some_iff.mp h
        obtain ⟨-, rfl⟩ : o' = _ ∧ Buddy.split l .free = t' := by simpa using heq
        simp
  | ord + 1, _, .split l r, t', h => by
      rw [alloc] at h
      split at h
      · cases h
      · split at h
        · rename_i o' l' _
          obtain ⟨-, rfl⟩ : o' = _ ∧ Buddy.split l' r = t' := by simpa using h
          simp
        · obtain ⟨⟨o', r'⟩, -, heq⟩ := Option.map_eq_some_iff.mp h
          obtain ⟨-, rfl⟩ : _ ∧ Buddy.split l r' = t' := by simpa using heq
          simp

theorem alloc_wf {want : ℕ} : ∀ {ord o : ℕ} {t t' : Buddy}, WF ord t →
    alloc want ord t = some (o, t') → WF ord t'
  | _, _, .full, _, _, h => by simp [alloc] at h
  | 0, _, .split _ _, _, hwf, _ => hwf.elim
  | 0, _, .free, t', _, h => by
      rw [alloc] at h
      split at h
      · obtain ⟨-, rfl⟩ : _ ∧ Buddy.full = t' := by simpa using h
        trivial
      · cases h
  | ord + 1, _, .free, t', _, h => by
      rw [alloc] at h
      split at h
      · obtain ⟨-, rfl⟩ : _ ∧ Buddy.full = t' := by simpa using h
        trivial
      · obtain ⟨⟨o', l⟩, hl, heq⟩ := Option.map_eq_some_iff.mp h
        obtain ⟨-, rfl⟩ : o' = _ ∧ Buddy.split l .free = t' := by simpa using heq
        exact ⟨alloc_wf (wf_free _) hl, wf_free _, fun hf => alloc_ne_free hl hf.1⟩
  | ord + 1, _, .split l r, t', ⟨hl, hr, _⟩, h => by
      rw [alloc] at h
      split at h
      · cases h
      · split at h
        · rename_i o' l' hleft
          obtain ⟨-, rfl⟩ : o' = _ ∧ Buddy.split l' r = t' := by simpa using h
          exact ⟨alloc_wf hl hleft, hr, fun hf => alloc_ne_free hleft hf.1⟩
        · obtain ⟨⟨o', r'⟩, hright, heq⟩ := Option.map_eq_some_iff.mp h
          obtain ⟨-, rfl⟩ : _ ∧ Buddy.split l r' = t' := by simpa using heq
          exact ⟨hl, alloc_wf hr hright, fun hf => alloc_ne_free hright hf.2⟩

/-- **Allocation adds one block** of the wanted order and touches no other. -/
theorem alloc_blocks {want : ℕ} : ∀ {ord o : ℕ} {t t' : Buddy} (off : ℕ),
    alloc want ord t = some (o, t') →
      (blocks ord off t').Perm ((off + o, want) :: blocks ord off t)
  | _, _, .full, _, _, h => by simp [alloc] at h
  | 0, _, .split _ _, _, _, h => by simp [alloc] at h
  | 0, o, .free, t', off, h => by
      rw [alloc] at h
      split at h
      · rename_i hw
        obtain ⟨rfl, rfl⟩ : 0 = o ∧ Buddy.full = t' := by simpa using h
        simp [blocks, ← hw]
      · cases h
  | ord + 1, o, .free, t', off, h => by
      rw [alloc] at h
      split at h
      · rename_i hw
        obtain ⟨rfl, rfl⟩ : 0 = o ∧ Buddy.full = t' := by simpa using h
        simp [blocks, ← hw]
      · obtain ⟨⟨o', l⟩, hl, heq⟩ := Option.map_eq_some_iff.mp h
        obtain ⟨rfl, rfl⟩ : o' = o ∧ Buddy.split l .free = t' := by simpa using heq
        have ih := alloc_blocks off hl
        simpa [blocks] using ih
  | ord + 1, o, .split l r, t', off, h => by
      rw [alloc] at h
      split at h
      · cases h
      · split at h
        · rename_i o' l' hleft
          obtain ⟨rfl, rfl⟩ : o' = o ∧ Buddy.split l' r = t' := by simpa using h
          have ih := alloc_blocks off hleft
          simpa [blocks] using ih.append_right _
        · obtain ⟨⟨o', r'⟩, hright, heq⟩ := Option.map_eq_some_iff.mp h
          obtain ⟨rfl, rfl⟩ : 2 ^ ord + o' = o ∧ Buddy.split l r' = t' := by simpa using heq
          have ih := alloc_blocks (off + 2 ^ ord) hright
          rw [blocks, blocks]
          refine (ih.append_left _).trans ?_
          rw [← Nat.add_assoc]
          exact List.perm_middle

theorem alloc_order_le {want ord o : ℕ} {t t' : Buddy} (h : alloc want ord t = some (o, t')) :
    want ≤ ord ∧ o + 2 ^ want ≤ 2 ^ ord := by
  have hmem : (0 + o, want) ∈ blocks ord 0 t' := (alloc_blocks 0 h).mem_iff.mpr (by simp)
  have := blocks_bounds _ hmem
  simp only [] at this
  omega

/-! ## Release -/

theorem join_wf {ord : ℕ} {l r : Buddy} (hl : WF ord l) (hr : WF ord r) :
    WF (ord + 1) (join l r) := by
  rw [join]
  split
  · trivial
  · rename_i h
    exact ⟨hl, hr, h⟩

theorem release_wf {k : ℕ} : ∀ {ord off : ℕ} {t : Buddy}, WF ord t → WF ord (release k ord off t)
  | 0, _, _, _ => trivial
  | _ + 1, _, .free, _ => trivial
  | ord + 1, _, .full, _ => by
      rw [release]
      split <;> simp
  | ord + 1, off, .split l r, ⟨hl, hr, _⟩ => by
      rw [release]
      split
      · trivial
      · split
        · exact join_wf hl (release_wf hr)
        · exact join_wf (release_wf hl) hr

theorem blocks_join {ord off : ℕ} (l r : Buddy) :
    blocks (ord + 1) off (join l r) = blocks ord off l ++ blocks ord (off + 2 ^ ord) r := by
  rw [join]
  split
  · rename_i h
    simp [h.1, h.2, blocks]
  · rw [blocks]

/-- A block of the root's order is the root. -/
theorem eq_full_of_mem {ord off o : ℕ} {t : Buddy} (h : (o, ord) ∈ blocks ord off t) :
    t = .full := by
  cases t with
  | free => simp [blocks] at h
  | full => rfl
  | split l r =>
      cases ord with
      | zero => simp [blocks] at h
      | succ ord =>
          rw [blocks, List.mem_append] at h
          rcases h with h | h
          all_goals
            have := blocks_bounds _ h
            omega

/-- The upper half of a split node holds its blocks from the middle on. -/
theorem mem_right {ord off o k : ℕ} {l r : Buddy}
    (h : (off + o, k) ∈ blocks (ord + 1) off (.split l r)) (ho : 2 ^ ord ≤ o) :
    (off + 2 ^ ord + (o - 2 ^ ord), k) ∈ blocks ord (off + 2 ^ ord) r := by
  have hoff : off + 2 ^ ord + (o - 2 ^ ord) = off + o := by omega
  have hpos : 0 < 2 ^ k := Nat.two_pow_pos _
  rw [blocks, List.mem_append] at h
  rw [hoff]
  rcases h with h | h
  · have := blocks_bounds _ h
    simp only [] at this
    omega
  · exact h

theorem mem_left {ord off o k : ℕ} {l r : Buddy}
    (h : (off + o, k) ∈ blocks (ord + 1) off (.split l r)) (ho : o < 2 ^ ord) :
    (off + o, k) ∈ blocks ord off l := by
  rw [blocks, List.mem_append] at h
  rcases h with h | h
  · exact h
  · have := blocks_bounds _ h
    simp only [] at this
    omega

/-- **Release removes exactly the block it is given.** -/
theorem release_blocks {k : ℕ} : ∀ {ord o : ℕ} {t : Buddy} (off : ℕ),
    (off + o, k) ∈ blocks ord off t →
      (blocks ord off t).Perm ((off + o, k) :: blocks ord off (release k ord o t))
  | 0, o, t, off, h => by
      have hk := (blocks_bounds _ h).1
      obtain rfl : k = 0 := by simpa using hk
      obtain rfl := eq_full_of_mem h
      have ho : off + o = off := by simpa [blocks] using h
      simp [blocks, release, ho]
  | ord + 1, o, .free, off, h => by simp [blocks] at h
  | ord + 1, o, .full, off, h => by
      obtain ⟨rfl, rfl⟩ : o = 0 ∧ k = ord + 1 := by simpa [blocks] using h
      simp [blocks, release]
  | ord + 1, o, .split l r, off, h => by
      have hk : ord + 1 ≠ k := by
        rintro rfl
        cases eq_full_of_mem h
      rw [release, if_neg hk]
      split
      · rename_i ho
        have hoff : off + 2 ^ ord + (o - 2 ^ ord) = off + o := by omega
        have ih := release_blocks (off + 2 ^ ord) (mem_right h ho)
        rw [hoff] at ih
        rw [blocks, blocks_join]
        exact (ih.append_left _).trans List.perm_middle
      · rename_i ho
        have ih := release_blocks off (mem_left h (by omega))
        rw [blocks, blocks_join]
        exact ih.append_right _

/-- A place in one half is a place in both put together. -/
theorem alloc_join {want ord : ℕ} {l r : Buddy} (hw : want ≤ ord)
    (h : (alloc want ord l).isSome ∨ (alloc want ord r).isSome) :
    (alloc want (ord + 1) (join l r)).isSome := by
  unfold join
  split
  · obtain ⟨t, ht⟩ := alloc_free (show want ≤ ord + 1 by omega)
    rw [ht]
    rfl
  · have hne : ord + 1 ≠ want := by omega
    rw [alloc, if_neg hne]
    cases hl : alloc want ord l with
    | some place => rfl
    | none =>
        have hr := h.resolve_left (by rw [hl]; simp)
        simpa using hr

/-- **What was released can be had again**, for any order up to that of the block. -/
theorem alloc_release {want k : ℕ} : ∀ {ord o : ℕ} {t : Buddy} (off : ℕ),
    (off + o, k) ∈ blocks ord off t → want ≤ k →
      (alloc want ord (release k ord o t)).isSome
  | 0, o, t, off, h, hw => by
      have hk := (blocks_bounds _ h).1
      obtain ⟨t', ht'⟩ := alloc_free (show want ≤ 0 from le_trans hw hk)
      rw [release, ht']
      rfl
  | ord + 1, o, .free, off, h, _ => by simp [blocks] at h
  | ord + 1, o, .full, off, h, hw => by
      obtain ⟨-, rfl⟩ : o = 0 ∧ k = ord + 1 := by simpa [blocks] using h
      obtain ⟨t', ht'⟩ := alloc_free hw
      rw [release, if_pos rfl, ht']
      rfl
  | ord + 1, o, .split l r, off, h, hw => by
      have hk : ord + 1 ≠ k := by
        rintro rfl
        cases eq_full_of_mem h
      have hle := (blocks_bounds _ h).1
      have hlow : want ≤ ord := by
        simp only [] at hle
        omega
      rw [release, if_neg hk]
      split
      · rename_i ho
        exact alloc_join hlow (.inr (alloc_release (off + 2 ^ ord) (mem_right h ho) hw))
      · rename_i ho
        exact alloc_join hlow (.inl (alloc_release off (mem_left h (by omega)) hw))

/-! ## Bytes -/

/-- The bytes of the blocks. -/
def bytes (bs : List (ℕ × ℕ)) : ℕ := (bs.map fun b => 2 ^ b.2).sum

@[simp] theorem bytes_nil : bytes [] = 0 := rfl

@[simp] theorem bytes_cons (b : ℕ × ℕ) (bs : List (ℕ × ℕ)) :
    bytes (b :: bs) = 2 ^ b.2 + bytes bs := by
  simp [bytes]

theorem bytes_append (bs cs : List (ℕ × ℕ)) : bytes (bs ++ cs) = bytes bs + bytes cs := by
  simp [bytes]

theorem bytes_perm {bs cs : List (ℕ × ℕ)} (h : bs.Perm cs) : bytes bs = bytes cs :=
  (h.map _).sum_eq

theorem mul_length_le_bytes {c : ℕ} : ∀ {bs : List (ℕ × ℕ)}, (∀ b ∈ bs, c ≤ 2 ^ b.2) →
    c * bs.length ≤ bytes bs
  | [], _ => by simp
  | b :: bs, h => by
      have ih := mul_length_le_bytes fun b' hb => h b' (List.mem_cons_of_mem _ hb)
      have hb := h b List.mem_cons_self
      rw [List.length_cons, bytes_cons, Nat.mul_succ]
      omega

theorem bytes_le : ∀ {ord off : ℕ} {t : Buddy}, bytes (blocks ord off t) ≤ 2 ^ ord
  | _, _, .free => by simp [blocks]
  | _, _, .full => by simp [blocks]
  | 0, _, .split _ _ => by simp [blocks]
  | ord + 1, off, .split l r => by
      rw [blocks, bytes_append, pow_succ]
      have : bytes (blocks ord off l) ≤ 2 ^ ord := bytes_le
      have : bytes (blocks ord (off + 2 ^ ord) r) ≤ 2 ^ ord := bytes_le
      omega

/-- No leaf is free. -/
def Exhausted : Buddy → Prop
  | .free => False
  | .full => True
  | .split l r => Exhausted l ∧ Exhausted r

/-- Such a tree refuses every request. -/
theorem alloc_exhausted {want : ℕ} : ∀ {ord : ℕ} {t : Buddy}, Exhausted t →
    alloc want ord t = none
  | ord, .full, _ => alloc_full want ord
  | 0, .split _ _, _ => rfl
  | ord + 1, .split l r, ⟨hl, hr⟩ => by
      simp [alloc, alloc_exhausted hl, alloc_exhausted hr]

/-- Then the blocks fill the tree. -/
theorem bytes_of_exhausted : ∀ {ord off : ℕ} {t : Buddy}, WF ord t → Exhausted t →
    bytes (blocks ord off t) = 2 ^ ord
  | _, _, .free, _, hex => hex.elim
  | _, _, .full, _, _ => by simp [blocks]
  | 0, _, .split _ _, hwf, _ => hwf.elim
  | ord + 1, off, .split l r, ⟨hl, hr, _⟩, ⟨hexl, hexr⟩ => by
      rw [blocks, bytes_append, bytes_of_exhausted hl hexl, bytes_of_exhausted hr hexr, pow_succ]
      omega

/-- When the blocks fill the tree, no leaf is free. -/
theorem exhausted_of_bytes : ∀ {ord off : ℕ} {t : Buddy},
    bytes (blocks ord off t) = 2 ^ ord → Exhausted t
  | ord, _, .free, h => by
      have hpos : 0 < 2 ^ ord := Nat.two_pow_pos _
      simp only [blocks, bytes_nil] at h
      omega
  | _, _, .full, _ => trivial
  | 0, _, .split _ _, h => by simp [blocks] at h
  | ord + 1, off, .split l r, h => by
      rw [blocks, bytes_append, pow_succ] at h
      have hl : bytes (blocks ord off l) ≤ 2 ^ ord := bytes_le
      have hr : bytes (blocks ord (off + 2 ^ ord) r) ≤ 2 ^ ord := bytes_le
      have hl' : bytes (blocks ord off l) = 2 ^ ord := by omega
      have hr' : bytes (blocks ord (off + 2 ^ ord) r) = 2 ^ ord := by omega
      exact ⟨exhausted_of_bytes hl', exhausted_of_bytes hr'⟩

/-! ## Free places -/

/-- An aligned place of order `want` in a tree at `off` that shares no byte with a
block. -/
structure Vacant (want ord off : ℕ) (t : Buddy) (a : ℕ) : Prop where
  aligned : 2 ^ want ∣ a
  inside : a + 2 ^ want ≤ 2 ^ ord
  apart : ∀ b ∈ blocks ord off t, Apart b (off + a, want)

/-- An aligned place of a split node lies in one of its halves. -/
theorem halves {want ord a : ℕ} (hw : want ≤ ord) (ha : 2 ^ want ∣ a) :
    a + 2 ^ want ≤ 2 ^ ord ∨ 2 ^ ord ≤ a := by
  obtain ⟨c, rfl⟩ := ha
  obtain ⟨d, hd⟩ : 2 ^ want ∣ 2 ^ ord := pow_dvd_pow 2 hw
  rw [hd]
  rcases Nat.lt_or_ge c d with hlt | hge
  · left
    calc 2 ^ want * c + 2 ^ want = 2 ^ want * (c + 1) := by ring
      _ ≤ 2 ^ want * d := Nat.mul_le_mul_left _ hlt
  · exact .inr (Nat.mul_le_mul_left _ hge)

theorem Vacant.left {want ord off a : ℕ} {l r : Buddy}
    (h : Vacant want (ord + 1) off (.split l r) a) (ha : a + 2 ^ want ≤ 2 ^ ord) :
    Vacant want ord off l a :=
  ⟨h.aligned, ha, fun b hb => h.apart b (by rw [blocks]; exact List.mem_append_left _ hb)⟩

theorem Vacant.right {want ord off a : ℕ} {l r : Buddy} (hw : want ≤ ord)
    (h : Vacant want (ord + 1) off (.split l r) a) (ha : 2 ^ ord ≤ a) :
    Vacant want ord (off + 2 ^ ord) r (a - 2 ^ ord) := by
  have hinside := h.inside
  rw [pow_succ] at hinside
  refine ⟨Nat.dvd_sub h.aligned (pow_dvd_pow 2 hw), by omega, fun b hb => ?_⟩
  have hapart := h.apart b (by rw [blocks]; exact List.mem_append_right _ hb)
  rwa [show off + 2 ^ ord + (a - 2 ^ ord) = off + a by omega]

theorem Vacant.of_left {want ord off a : ℕ} {l r : Buddy} (h : Vacant want ord off l a) :
    Vacant want (ord + 1) off (.split l r) a := by
  have hinside := h.inside
  refine ⟨h.aligned, by rw [pow_succ]; omega, fun b hb => ?_⟩
  rw [blocks, List.mem_append] at hb
  rcases hb with hb | hb
  · exact h.apart b hb
  · have hbounds := blocks_bounds b hb
    exact .inr (by simp only; omega)

theorem Vacant.of_right {want ord off a : ℕ} {l r : Buddy} (hw : want ≤ ord)
    (h : Vacant want ord (off + 2 ^ ord) r a) :
    Vacant want (ord + 1) off (.split l r) (2 ^ ord + a) := by
  have hinside := h.inside
  refine ⟨Nat.dvd_add (pow_dvd_pow 2 hw) h.aligned, by rw [pow_succ]; omega, fun b hb => ?_⟩
  rw [← Nat.add_assoc]
  rw [blocks, List.mem_append] at hb
  rcases hb with hb | hb
  · have hbounds := blocks_bounds b hb
    exact .inl (by simp only; omega)
  · exact h.apart b hb

/-- **Allocation is complete and takes the lowest place**: it refuses when there is no
vacant place of the order, and otherwise takes the first one. -/
theorem alloc_vacant {want : ℕ} : ∀ {ord : ℕ} {t : Buddy} (off : ℕ), WF ord t → want ≤ ord →
    match alloc want ord t with
    | some (o, _) => Vacant want ord off t o ∧ ∀ a, Vacant want ord off t a → o ≤ a
    | none => ∀ a, ¬Vacant want ord off t a
  | ord, .free, off, _, hw => by
      obtain ⟨t', ht'⟩ := alloc_free hw
      rw [ht']
      have hpow : 2 ^ want ≤ 2 ^ ord := Nat.pow_le_pow_right (by norm_num) hw
      exact ⟨⟨dvd_zero _, by omega, by simp [blocks]⟩, fun a _ => Nat.zero_le a⟩
  | ord, .full, off, _, hw => by
      rw [alloc_full]
      intro a ha
      have hapart := ha.apart (off, ord) (by simp [blocks])
      have hinside := ha.inside
      have hpos : 0 < 2 ^ want := Nat.two_pow_pos _
      simp only [Apart] at hapart
      omega
  | 0, .split _ _, _, hwf, _ => hwf.elim
  | ord + 1, .split l r, off, hwf, hw => by
      obtain ⟨hwl, hwr, -⟩ := id hwf
      obtain rfl | hne := eq_or_ne (ord + 1) want
      · -- a split node holds a block, so the whole of it is no place
        have hnone : alloc (ord + 1) (ord + 1) (.split l r) = none := by simp [alloc]
        rw [hnone]
        intro a ha
        have hsome : blocks (ord + 1) off (.split l r) ≠ [] := blocks_ne_nil hwf (by simp)
        obtain ⟨b, hb⟩ := List.exists_mem_of_ne_nil _ hsome
        have hbounds := blocks_bounds b hb
        have hapart := ha.apart b hb
        have hinside := ha.inside
        have hpos : 0 < 2 ^ b.2 := Nat.two_pow_pos _
        simp only [Apart] at hapart
        omega
      have hlow : want ≤ ord := by omega
      have ihl := alloc_vacant off hwl hlow
      have ihr := alloc_vacant (off + 2 ^ ord) hwr hlow
      have hsplit : ∀ a, Vacant want (ord + 1) off (.split l r) a →
          Vacant want ord off l a ∨
            2 ^ ord ≤ a ∧ Vacant want ord (off + 2 ^ ord) r (a - 2 ^ ord) := by
        intro a ha
        rcases halves hlow ha.aligned with hhalf | hhalf
        · exact .inl (ha.left hhalf)
        · exact .inr ⟨hhalf, ha.right hlow hhalf⟩
      cases hal : alloc want ord l with
      | some place =>
          obtain ⟨o, l'⟩ := place
          have halloc : alloc want (ord + 1) (.split l r) = some (o, .split l' r) := by
            simp [alloc, hne, hal]
          rw [hal] at ihl
          obtain ⟨hvacant, hleast⟩ := ihl
          rw [halloc]
          refine ⟨hvacant.of_left, fun a ha => ?_⟩
          rcases hsplit a ha with hl | ⟨hhalf, -⟩
          · exact hleast a hl
          · exact (Nat.le_of_add_right_le hvacant.inside).trans hhalf
      | none =>
          rw [hal] at ihl
          cases har : alloc want ord r with
          | some place =>
              obtain ⟨o, r'⟩ := place
              have halloc : alloc want (ord + 1) (.split l r) =
                  some (2 ^ ord + o, .split l r') := by
                simp [alloc, hne, hal, har]
              rw [har] at ihr
              obtain ⟨hvacant, hleast⟩ := ihr
              rw [halloc]
              refine ⟨hvacant.of_right hlow, fun a ha => ?_⟩
              rcases hsplit a ha with hl | ⟨hhalf, hr⟩
              · exact absurd hl (ihl a)
              · have hle := hleast _ hr
                omega
          | none =>
              have halloc : alloc want (ord + 1) (.split l r) = none := by
                simp [alloc, hne, hal, har]
              rw [har] at ihr
              rw [halloc]
              intro a ha
              rcases hsplit a ha with hl | ⟨-, hr⟩
              · exact ihl a hl
              · exact ihr _ hr

/-! ## A tree is its blocks -/

/-- **The tree is determined by its blocks.** -/
theorem eq_of_blocks : ∀ {ord : ℕ} {t u : Buddy} (off : ℕ), WF ord t → WF ord u →
    (∀ b, b ∈ blocks ord off t ↔ b ∈ blocks ord off u) → t = u := by
  intro ord t u off ht hu hsame
  have hfree : ∀ {t u : Buddy}, WF ord u → (∀ b, b ∈ blocks ord off t ↔ b ∈ blocks ord off u) →
      t = .free → u = .free := by
    rintro t u hu hsame rfl
    by_contra hne
    have hsome : blocks ord off u ≠ [] := blocks_ne_nil hu hne
    obtain ⟨b, hb⟩ := List.exists_mem_of_ne_nil _ hsome
    exact absurd ((hsame b).mpr hb) (by simp [blocks])
  have hfull : ∀ {t u : Buddy}, (∀ b, b ∈ blocks ord off t ↔ b ∈ blocks ord off u) →
      t = .full → u = .full := by
    rintro t u hsame rfl
    exact eq_full_of_mem ((hsame (off, ord)).mp (by simp [blocks]))
  cases t with
  | free => exact (hfree hu hsame rfl).symm
  | full => exact (hfull hsame rfl).symm
  | split l r =>
      cases u with
      | free => exact absurd (hfree ht (fun b => (hsame b).symm) rfl) (by simp)
      | full => exact absurd (hfull (fun b => (hsame b).symm) rfl) (by simp)
      | split l' r' =>
          cases ord with
          | zero => exact ht.elim
          | succ ord =>
              obtain ⟨hl, hr, -⟩ := ht
              obtain ⟨hl', hr', -⟩ := hu
              simp only [blocks, List.mem_append] at hsame
              -- a block of the left half ends where those of the right half begin
              have hside : ∀ {x y z w : Buddy} {b : ℕ × ℕ},
                  (b ∈ blocks ord off x ∨ b ∈ blocks ord (off + 2 ^ ord) y →
                    b ∈ blocks ord off z ∨ b ∈ blocks ord (off + 2 ^ ord) w) →
                  (b ∈ blocks ord off x → b ∈ blocks ord off z) ∧
                    (b ∈ blocks ord (off + 2 ^ ord) y → b ∈ blocks ord (off + 2 ^ ord) w) := by
                intro x y z w b himp
                have hpos : 0 < 2 ^ b.2 := Nat.two_pow_pos _
                refine ⟨fun hb => (himp (.inl hb)).resolve_right fun hw => ?_,
                  fun hb => (himp (.inr hb)).resolve_left fun hz => ?_⟩
                · have hlow := blocks_bounds b hb
                  have hhigh := blocks_bounds b hw
                  omega
                · have hlow := blocks_bounds b hz
                  have hhigh := blocks_bounds b hb
                  omega
              rw [eq_of_blocks off hl hl' fun b =>
                  ⟨(hside (hsame b).mp).1, (hside (hsame b).mpr).1⟩,
                eq_of_blocks (off + 2 ^ ord) hr hr' fun b =>
                  ⟨(hside (hsame b).mp).2, (hside (hsame b).mpr).2⟩]

end BuddyTree
