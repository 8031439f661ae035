import BareKernel.Memory.BuddyManager
import BareKernel.Lib.BuddyTree

/-!
# The marks of the buddy manager show a buddy tree

`allocRec` addresses nodes by index arithmetic and `freeRec` by the bits of an
offset. Both are related to the same abstract tree: whatever subtree the marks
at an index show, the code does to the marks what the tree operation does to
the subtree, and leaves every other mark alone.
-/

namespace BareKernel.BuddyManager

open ByteMemory BuddyTree ImplicitTree
open NodeState

/-- The marks at `idx` and below show the tree. -/
def Shows (nodeState : ℕ → NodeState) : ℕ → Buddy → Prop
  | idx, .free => ∀ n, Below idx n → nodeState n = FREE
  | idx, .full => nodeState idx = FULL ∧ ∀ n, Below idx n → n ≠ idx → nodeState n = FREE
  | idx, .split l r =>
      nodeState idx = SPLIT ∧ Shows nodeState (2 * idx + 1) l ∧ Shows nodeState (2 * idx + 2) r

/-- The mark of a tree's root. -/
def mark : Buddy → NodeState
  | .free => FREE
  | .full => FULL
  | .split _ _ => SPLIT

variable {nodeState nodeState' : ℕ → NodeState} {idx : ℕ} {t l r : Buddy}

theorem Shows.root : ∀ {t : Buddy}, Shows nodeState idx t → nodeState idx = mark t
  | .free, h => h idx (below_self idx)
  | .full, h => h.1
  | .split _ _, h => h.1

theorem mark_eq_free : mark t = FREE ↔ t = .free := by
  cases t <;> simp [mark]

theorem Shows.congr : ∀ {idx : ℕ} {t : Buddy}, (∀ n, Below idx n → nodeState' n = nodeState n) →
    Shows nodeState idx t → Shows nodeState' idx t
  | _, .free, hsame, h => fun n hn => (hsame n hn).trans (h n hn)
  | idx, .full, hsame, ⟨hroot, hbelow⟩ =>
      ⟨(hsame idx (below_self idx)).trans hroot, fun n hn hne =>
        (hsame n hn).trans (hbelow n hn hne)⟩
  | idx, .split _ _, hsame, ⟨hroot, hl, hr⟩ =>
      ⟨(hsame idx (below_self idx)).trans hroot,
        hl.congr fun n hn => hsame n (below_left hn),
        hr.congr fun n hn => hsame n (below_right hn)⟩

/-- A free or full node has only free nodes below it. -/
theorem Shows.left_free (h : Shows nodeState idx .free) : Shows nodeState (2 * idx + 1) .free :=
  fun n hn => h n (below_left hn)

theorem Shows.right_free (h : Shows nodeState idx .free) : Shows nodeState (2 * idx + 2) .free :=
  fun n hn => h n (below_right hn)

/-- Marks that show one tree are the same. -/
theorem Shows.unique : ∀ {idx : ℕ} {t : Buddy}, Shows nodeState idx t → Shows nodeState' idx t →
    ∀ n, Below idx n → nodeState n = nodeState' n
  | _, .free, h, h', n, hn => (h n hn).trans (h' n hn).symm
  | idx, .full, ⟨hroot, hbelow⟩, ⟨hroot', hbelow'⟩, n, hn => by
      by_cases hne : n = idx
      · rw [hne, hroot, hroot']
      · rw [hbelow n hn hne, hbelow' n hn hne]
  | _, .split _ _, ⟨hroot, hl, hr⟩, ⟨hroot', hl', hr'⟩, n, hn => by
      rcases below_cases hn with rfl | hleft | hright
      · rw [hroot, hroot']
      · exact hl.unique hl' n hleft
      · exact hr.unique hr' n hright

/-- Setting one mark leaves the subtrees below it as they are. -/
theorem Shows.update_left (m : NodeState) (h : Shows nodeState (2 * idx + 1) t) :
    Shows (Function.update nodeState idx m) (2 * idx + 1) t :=
  h.congr fun n hn => Function.update_of_ne
    (by rintro rfl; exact not_below_left_self n hn) _ _

theorem Shows.update_right (m : NodeState) (h : Shows nodeState (2 * idx + 2) t) :
    Shows (Function.update nodeState idx m) (2 * idx + 2) t :=
  h.congr fun n hn => Function.update_of_ne
    (by rintro rfl; exact not_below_right_self n hn) _ _

theorem Shows.split (hl : Shows nodeState (2 * idx + 1) l) (hr : Shows nodeState (2 * idx + 2) r) :
    Shows (Function.update nodeState idx SPLIT) idx (.split l r) :=
  ⟨Function.update_self _ _ _, hl.update_left SPLIT, hr.update_right SPLIT⟩

/-- Freeing a node whose children are free makes the whole subtree free. -/
theorem Shows.free (hl : Shows nodeState (2 * idx + 1) .free)
    (hr : Shows nodeState (2 * idx + 2) .free) :
    Shows (Function.update nodeState idx FREE) idx .free := by
  intro n hn
  rcases below_cases hn with rfl | hleft | hright
  · exact Function.update_self _ _ _
  · exact hl.update_left FREE n hleft
  · exact hr.update_right FREE n hright

/-- What a call that stays at `idx` and below leaves alone. -/
def Frames (nodeState nodeState' : ℕ → NodeState) (idx : ℕ) : Prop :=
  ∀ n, ¬Below idx n → nodeState' n = nodeState n

theorem Frames.refl (nodeState : ℕ → NodeState) (idx : ℕ) : Frames nodeState nodeState idx :=
  fun _ _ => rfl

theorem Frames.trans {nodeState'' : ℕ → NodeState} (h : Frames nodeState nodeState' idx)
    (h' : Frames nodeState' nodeState'' idx) : Frames nodeState nodeState'' idx :=
  fun n hn => (h' n hn).trans (h n hn)

theorem Frames.update (m : NodeState) (h : Frames nodeState nodeState' idx) :
    Frames nodeState (Function.update nodeState' idx m) idx := by
  intro n hn
  rw [Function.update_of_ne (by rintro rfl; exact hn (below_self n))]
  exact h n hn

theorem Frames.of_left (h : Frames nodeState nodeState' (2 * idx + 1)) :
    Frames nodeState nodeState' idx :=
  fun n hn => h n fun hbelow => hn (below_left hbelow)

theorem Frames.of_right (h : Frames nodeState nodeState' (2 * idx + 2)) :
    Frames nodeState nodeState' idx :=
  fun n hn => h n fun hbelow => hn (below_right hbelow)

/-- A call in the left subtree keeps what the right one shows. -/
theorem Frames.right (h : Frames nodeState nodeState' (2 * idx + 1))
    (hr : Shows nodeState (2 * idx + 2) r) : Shows nodeState' (2 * idx + 2) r :=
  hr.congr fun n hn => h n fun hbelow => not_below_right hbelow hn

theorem Frames.left (h : Frames nodeState nodeState' (2 * idx + 2))
    (hl : Shows nodeState (2 * idx + 1) l) : Shows nodeState' (2 * idx + 1) l :=
  hl.congr fun n hn => h n fun hbelow => not_below_right hn hbelow

/-! ## Offsets and indices -/

theorem idxToOffset_node {M d p ord : ℕ} (hM : M < 32) (hd : d + ord = M) :
    idxToOffset M (node d p) ord = p * 2 ^ ord := by
  have hdepth : M - ord = d := by omega
  have hpos : node d p - (2 ^ d - 1) = p := by
    unfold node
    omega
  rw [idxToOffset, hdepth, hpos, orderSize_toNat (by omega)]

/-- An offset below `2^(c+1)` has bit `c` exactly when it lies in the upper half. -/
theorem and_halfSize {off c : ℕ} (hoff : off < 2 ^ (c + 1)) :
    off &&& 2 ^ c ≠ 0 ↔ 2 ^ c ≤ off := by
  have hpos : 0 < 2 ^ c := Nat.two_pow_pos _
  rw [Nat.and_two_pow, Nat.testBit_eq_decide_div_mod_eq]
  rw [pow_succ] at hoff
  by_cases hle : 2 ^ c ≤ off
  · have hone : off / 2 ^ c = 1 := Nat.div_eq_of_lt_le (by omega) (by omega)
    simp [hone, hle]
  · have hzero : off / 2 ^ c = 0 := Nat.div_eq_of_lt (by omega)
    simp [hzero, hle]

/-- The array of marks reaches down to the nodes of order `k`. -/
def InArray (len M k : ℕ) : Prop := 2 ^ (M - k + 1) - 1 ≤ len

theorem InArray.node {len M k d p : ℕ} (h : InArray len M k) (hp : p < 2 ^ d)
    (hd : d ≤ M - k) : ¬len ≤ node d p := by
  have := node_lt hp hd
  unfold InArray at h
  omega

/-! ## Allocation -/

section AllocRec

variable {len M want ord : ℕ}

theorem allocRec_full (hin : ¬len ≤ idx) (h : nodeState idx = FULL) :
    allocRec len M want ord idx nodeState = some (none, nodeState) := by
  rw [allocRec.eq_def, if_neg hin, if_pos h]

theorem allocRec_take (hin : ¬len ≤ idx) (h : nodeState idx = FREE) :
    allocRec len M want want idx nodeState =
      some (some (idxToOffset M idx want), Function.update nodeState idx FULL) := by
  rw [allocRec.eq_def, if_neg hin, if_neg (by simp [h]), if_pos rfl, if_pos h]

theorem allocRec_busy (hin : ¬len ≤ idx) (h : nodeState idx = SPLIT) :
    allocRec len M want want idx nodeState = some (none, nodeState) := by
  rw [allocRec.eq_def, if_neg hin, if_neg (by simp [h]), if_pos rfl, if_neg (by simp [h])]

/-- Descending into a node that is, or becomes, `SPLIT`. -/
theorem allocRec_descend (hin : ¬len ≤ idx) (h : nodeState idx ≠ FULL) (hord : ord + 1 ≠ want) :
    allocRec len M want (ord + 1) idx nodeState =
      match allocRec len M want ord (2 * idx + 1)
          (if nodeState idx = FREE then Function.update nodeState idx SPLIT else nodeState) with
      | none => none
      | some (some outOffset, ns) => some (some outOffset, ns)
      | some (none, ns) =>
          match allocRec len M want ord (2 * idx + 2) ns with
          | none => none
          | some (some outOffset, ns) => some (some outOffset, ns)
          | some (none, ns) =>
              if ns (2 * idx + 1) = FREE ∧ ns (2 * idx + 2) = FREE then
                some (none, Function.update ns idx FREE)
              else some (none, ns) := by
  rw [allocRec.eq_def, if_neg hin, if_neg h]
  exact if_neg hord

/-- **Allocation on the marks is allocation in the tree.** It finds the same
place, or leaves every mark as it was. -/
theorem allocRec_shows (hM : M < 32) (hlen : InArray len M want) :
    ∀ {ord d p : ℕ} {nodeState : ℕ → NodeState} {t : Buddy}, d + ord = M → p < 2 ^ d →
      want ≤ ord → WF ord t → Shows nodeState (node d p) t →
      match alloc want ord t with
      | some (o, t') => ∃ nodeState',
          allocRec len M want ord (node d p) nodeState = some (some (p * 2 ^ ord + o), nodeState') ∧
            Shows nodeState' (node d p) t' ∧ Frames nodeState nodeState' (node d p)
      | none => allocRec len M want ord (node d p) nodeState = some (none, nodeState) := by
  intro ord d p nodeState t hd hp hwant hwf hshows
  have hin := hlen.node hp (by omega)
  cases t with
  | full =>
      rw [alloc_full]
      exact allocRec_full hin hshows.root
  | free =>
      obtain rfl | hord := eq_or_ne ord want
      · have halloc : alloc ord ord .free = some (0, .full) := by
          cases ord <;> simp [alloc]
        rw [halloc, allocRec_take hin hshows.root, idxToOffset_node hM hd]
        refine ⟨_, rfl, ⟨Function.update_self _ _ _, fun n hn hne => ?_⟩, ?_⟩
        · exact (Function.update_of_ne hne _ _).trans (hshows n hn)
        · exact (Frames.refl _ _).update FULL
      · cases ord with
        | zero => omega
        | succ ord =>
            -- the node is split on the way down; a free child never refuses
            have hroot : nodeState (node d p) = FREE := hshows.root
            have hleft : Shows (Function.update nodeState (node d p) SPLIT)
                (node (d + 1) (2 * p)) .free := by
              rw [← node_left]
              exact hshows.left_free.update_left SPLIT
            have ih := allocRec_shows hM hlen (show d + 1 + ord = M by omega)
              (by rw [pow_succ]; omega) (by omega) (wf_free _) hleft
            obtain ⟨l, hl⟩ : ∃ l, alloc want ord .free = some (0, l) := alloc_free (by omega)
            rw [hl] at ih
            obtain ⟨ns, hrec, hns, hframe⟩ := ih
            rw [← node_left] at hrec hns hframe
            have halloc : alloc want (ord + 1) .free = some (0, .split l .free) := by
              simp [alloc, hord, hl]
            rw [halloc, allocRec_descend hin (by simp [hroot]) hord, hroot, if_pos rfl, hrec]
            refine ⟨ns, by rw [pow_succ]; ring_nf, ⟨?_, hns, ?_⟩, ?_⟩
            · rw [hframe _ (not_below_left_self _), Function.update_self]
            · exact hframe.right (hshows.right_free.update_right SPLIT)
            · exact ((Frames.refl _ _).update SPLIT).trans hframe.of_left
  | split l r =>
      obtain ⟨hroot, hl, hr⟩ := hshows
      cases ord with
      | zero => exact hwf.elim
      | succ ord =>
          obtain ⟨hwl, hwr, hne⟩ := hwf
          obtain rfl | hord := eq_or_ne (ord + 1) want
          · have halloc : alloc (ord + 1) (ord + 1) (.split l r) = none := by simp [alloc]
            rw [halloc]
            exact allocRec_busy hin hroot
          have hpl : 2 * p < 2 ^ (d + 1) := by rw [pow_succ]; omega
          have hpr : 2 * p + 1 < 2 ^ (d + 1) := by rw [pow_succ]; omega
          rw [node_left] at hl
          rw [node_right] at hr
          have ihl := allocRec_shows hM hlen (by omega) hpl (by omega) hwl hl
          have ihr := allocRec_shows hM hlen (by omega) hpr (by omega) hwr hr
          rw [← node_left] at hl ihl
          rw [← node_right] at hr ihr
          rw [allocRec_descend hin (by simp [hroot]) hord, hroot, if_neg (by simp)]
          cases hal : alloc want ord l with
          | some ol =>
              obtain ⟨o, l'⟩ := ol
              rw [hal] at ihl
              obtain ⟨ns, hrec, hns, hframe⟩ := ihl
              have halloc : alloc want (ord + 1) (.split l r) = some (o, .split l' r) := by
                simp [alloc, hord, hal]
              rw [halloc, hrec]
              refine ⟨ns, by rw [pow_succ]; ring_nf, ⟨?_, hns, hframe.right hr⟩, hframe.of_left⟩
              rw [hframe _ (not_below_left_self _), hroot]
          | none =>
              rw [hal] at ihl
              rw [ihl]
              cases har : alloc want ord r with
              | some or =>
                  obtain ⟨o, r'⟩ := or
                  rw [har] at ihr
                  obtain ⟨ns, hrec, hns, hframe⟩ := ihr
                  have halloc : alloc want (ord + 1) (.split l r) =
                      some (2 ^ ord + o, .split l r') := by
                    simp [alloc, hord, hal, har]
                  simp only [halloc, hrec]
                  refine ⟨ns, by rw [pow_succ]; ring_nf, ⟨?_, hframe.left hl, hns⟩,
                    hframe.of_right⟩
                  rw [hframe _ (not_below_right_self _), hroot]
              | none =>
                  -- both halves refuse, and they are not both free: nothing was changed
                  rw [har] at ihr
                  have halloc : alloc want (ord + 1) (.split l r) = none := by
                    simp [alloc, hord, hal, har]
                  have hbusy : ¬(nodeState (2 * node d p + 1) = FREE ∧
                      nodeState (2 * node d p + 2) = FREE) := by
                    rw [hl.root, hr.root, mark_eq_free, mark_eq_free]
                    exact hne
                  simp only [halloc, ihr, if_neg hbusy]

/-- In a tree without free leaves every request is refused, and the search
does not go below the blocks. -/
theorem allocRec_exhausted : ∀ {ord d p : ℕ} {t : Buddy} (off : ℕ), d + ord = M → p < 2 ^ d →
    WF ord t → Shows nodeState (node d p) t → Exhausted t →
    (∀ b ∈ blocks ord off t, InArray len M b.2) →
    allocRec len M want ord (node d p) nodeState = some (none, nodeState)
  | _, _, _, .free, _, _, _, _, _, hex, _ => hex.elim
  | ord, d, p, .full, off, hd, hp, _, hshows, _, hblocks =>
      allocRec_full ((hblocks (off, ord) (by simp [blocks])).node hp (by omega)) hshows.root
  | 0, _, _, .split _ _, _, _, _, hwf, _, _, _ => hwf.elim
  | ord + 1, d, p, .split l r, off, hd, hp, hwf, ⟨hroot, hl, hr⟩, hex, hblocks => by
      have hin : ¬len ≤ node d p := by
        obtain ⟨b, hb⟩ := List.exists_mem_of_ne_nil _
          (blocks_ne_nil hwf (by simp))
        have := (blocks_bounds b hb).1
        exact (hblocks b hb).node hp (by omega)
      obtain rfl | hord := eq_or_ne (ord + 1) want
      · exact allocRec_busy hin hroot
      rw [blocks] at hblocks
      have hbusy : ¬(nodeState (2 * node d p + 1) = FREE ∧
          nodeState (2 * node d p + 2) = FREE) := by
        rw [hl.root, hr.root, mark_eq_free, mark_eq_free]
        exact hwf.2.2
      rw [node_left] at hl
      rw [node_right] at hr
      have ihl := allocRec_exhausted off (by omega) (by rw [pow_succ]; omega) hwf.1 hl hex.1
        fun b hb => hblocks b (List.mem_append_left _ hb)
      have ihr := allocRec_exhausted (off + 2 ^ ord) (by omega) (by rw [pow_succ]; omega) hwf.2.1
        hr hex.2 fun b hb => hblocks b (List.mem_append_right _ hb)
      rw [← node_left] at ihl
      rw [← node_right] at ihr
      rw [allocRec_descend hin (by simp [hroot]) hord, hroot, if_neg (by simp)]
      simp only [ihl, ihr, if_neg hbusy]

end AllocRec

/-! ## Release -/

section FreeRec

variable {len k ord off : ℕ}

theorem freeRec_here (hin : ¬len ≤ idx) :
    freeRec len k k idx off nodeState = some (Function.update nodeState idx FREE) := by
  rw [freeRec.eq_def, if_neg (Nat.lt_irrefl k), if_neg hin, if_pos rfl]

/-- Descending by the bit of the offset that the child's order names. -/
theorem freeRec_descend (hin : ¬len ≤ idx) (hk : k < ord + 1) (hord : ord < 32)
    (hoff : off < 2 ^ (ord + 1)) :
    freeRec len k (ord + 1) idx off nodeState =
      (if 2 ^ ord ≤ off then freeRec len k ord (2 * idx + 2) (off - 2 ^ ord) nodeState
        else freeRec len k ord (2 * idx + 1) off nodeState).bind fun ns =>
        (bothFree len ns (2 * idx + 1) (2 * idx + 2)).map fun b =>
          Function.update ns idx (if b then FREE else SPLIT) := by
  rw [freeRec.eq_def, if_neg (by omega), if_neg hin, if_neg (by omega)]
  simp only [orderSize_toNat hord, and_halfSize hoff]

/-- Joining the children on the way back up. -/
theorem bothFree_join (hl : Shows nodeState (2 * idx + 1) l) (hr : Shows nodeState (2 * idx + 2) r)
    (hin : 2 * idx + 2 < len) :
    ∃ b, bothFree len nodeState (2 * idx + 1) (2 * idx + 2) = some b ∧
      Shows (Function.update nodeState idx (if b then FREE else SPLIT)) idx (join l r) := by
  by_cases hfree : l = .free ∧ r = .free
  · obtain ⟨rfl, rfl⟩ := hfree
    refine ⟨true, ?_, ?_⟩
    · rw [bothFree, if_neg (by omega), hl.root, hr.root, if_neg (by simp [mark]),
        if_neg (by omega)]
      rfl
    · have hjoin : join .free .free = .free := rfl
      rw [hjoin]
      exact hl.free hr
  · refine ⟨false, ?_, ?_⟩
    · rw [bothFree, if_neg (by omega), hl.root, hr.root]
      by_cases hlf : l = .free
      · have hrf : r ≠ .free := fun h => hfree ⟨hlf, h⟩
        rw [if_neg (by simp [mark, hlf]), if_neg (by omega)]
        simp [mark_eq_free, hrf]
      · rw [if_pos (by simp [mark_eq_free, hlf])]
    · rw [join, if_neg hfree]
      exact hl.split hr

/-- **Release on the marks is release in the tree.** The bits of the offset
lead to the node of the block. -/
theorem freeRec_shows {M : ℕ} (hM : M < 32) (hlen : InArray len M k) :
    ∀ {ord d p o : ℕ} {nodeState : ℕ → NodeState} {t : Buddy} (off : ℕ), d + ord = M →
      p < 2 ^ d → o < 2 ^ ord → Shows nodeState (node d p) t → (off + o, k) ∈ blocks ord off t →
      ∃ nodeState', freeRec len k ord (node d p) o nodeState = some nodeState' ∧
        Shows nodeState' (node d p) (release k ord o t) ∧
          Frames nodeState nodeState' (node d p) := by
  intro ord d p o nodeState t off hd hp ho hshows hmem
  have hk : k ≤ ord := (blocks_bounds _ hmem).1
  have hin := hlen.node hp (by omega)
  obtain rfl | hne := eq_or_ne k ord
  · obtain rfl := eq_full_of_mem hmem
    have hrel : release k k o .full = .free := by cases k <;> simp [release]
    rw [hrel, freeRec_here hin]
    refine ⟨_, rfl, fun n hn => ?_, (Frames.refl _ _).update FREE⟩
    by_cases hroot : n = node d p
    · rw [hroot, Function.update_self]
    · rw [Function.update_of_ne hroot, hshows.2 n hn hroot]
  cases ord with
  | zero => omega
  | succ ord =>
      cases t with
      | free => simp [blocks] at hmem
      | full =>
          obtain ⟨-, rfl⟩ : o = 0 ∧ k = ord + 1 := by simpa [blocks] using hmem
          exact absurd rfl hne
      | split l r =>
          obtain ⟨-, hl, hr⟩ := hshows
          have hpl : 2 * p < 2 ^ (d + 1) := by rw [pow_succ]; omega
          have hpr : 2 * p + 1 < 2 ^ (d + 1) := by rw [pow_succ]; omega
          have hchild : 2 * node d p + 2 < len := by
            rw [node_right]
            exact Nat.lt_of_not_le (hlen.node hpr (by omega))
          rw [freeRec_descend hin (by omega) (by omega) ho, release, if_neg hne.symm]
          by_cases hhalf : 2 ^ ord ≤ o
          · rw [if_pos hhalf, if_pos hhalf]
            rw [node_right] at hr
            obtain ⟨ns, hrec, hns, hframe⟩ := freeRec_shows hM hlen (off + 2 ^ ord) (by omega) hpr
              (by rw [pow_succ] at ho; omega) hr (mem_right hmem hhalf)
            rw [← node_right] at hrec hns hframe
            obtain ⟨b, hb, hjoin⟩ := bothFree_join (hframe.left hl) hns hchild
            exact ⟨_, by simp [hrec, hb], hjoin, hframe.of_right.update _⟩
          · rw [if_neg hhalf, if_neg hhalf]
            rw [node_left] at hl
            obtain ⟨ns, hrec, hns, hframe⟩ := freeRec_shows hM hlen off (by omega) hpl
              (by omega) hl (mem_left hmem (by omega))
            rw [← node_left] at hrec hns hframe
            obtain ⟨b, hb, hjoin⟩ := bothFree_join hns (hframe.right hr) hchild
            exact ⟨_, by simp [hrec, hb], hjoin, hframe.of_left.update _⟩

end FreeRec

/-! ## Reading the marks -/

/-- The index of the node of a block in a tree of order `M`. -/
def nodeOf (M : ℕ) (b : ℕ × ℕ) : ℕ := node (M - b.2) (b.1 / 2 ^ b.2)

theorem below_nodeOf {M : ℕ} : ∀ {ord d p : ℕ} {t : Buddy}, d + ord = M →
    ∀ b ∈ blocks ord (p * 2 ^ ord) t, Below (node d p) (nodeOf M b)
  | _, _, _, .free, _, b, hb => by simp [blocks] at hb
  | 0, _, _, .split _ _, _, b, hb => by simp [blocks] at hb
  | ord, d, p, .full, hd, b, hb => by
      obtain rfl : b = (p * 2 ^ ord, ord) := by simpa [blocks] using hb
      have hself : nodeOf M (p * 2 ^ ord, ord) = node d p := by
        rw [nodeOf, Nat.mul_div_cancel _ (Nat.two_pow_pos _), show M - ord = d by omega]
      rw [hself]
      exact below_self _
  | ord + 1, d, p, .split l r, hd, b, hb => by
      rw [blocks, List.mem_append] at hb
      rcases hb with hb | hb
      · have hoff : p * 2 ^ (ord + 1) = 2 * p * 2 ^ ord := by rw [pow_succ]; ring
        rw [hoff] at hb
        apply below_left
        rw [node_left]
        exact below_nodeOf (by omega) b hb
      · have hoff : p * 2 ^ (ord + 1) + 2 ^ ord = (2 * p + 1) * 2 ^ ord := by rw [pow_succ]; ring
        rw [hoff] at hb
        apply below_right
        rw [node_right]
        exact below_nodeOf (by omega) b hb

/-- A node is `FULL` exactly when it is the node of a block. -/
theorem full_iff {M : ℕ} : ∀ {ord d p : ℕ} {t : Buddy}, d + ord = M → WF ord t →
    Shows nodeState (node d p) t → ∀ {n : ℕ}, Below (node d p) n →
      (nodeState n = FULL ↔ ∃ b ∈ blocks ord (p * 2 ^ ord) t, nodeOf M b = n)
  | _, _, _, .free, _, _, hshows, n, hn => by simp [hshows n hn, blocks]
  | 0, _, _, .split _ _, _, hwf, _, _, _ => hwf.elim
  | ord, d, p, .full, hd, _, ⟨hroot, hbelow⟩, n, hn => by
      have hself : nodeOf M (p * 2 ^ ord, ord) = node d p := by
        rw [nodeOf, Nat.mul_div_cancel _ (Nat.two_pow_pos _), show M - ord = d by omega]
      simp only [blocks, List.mem_singleton, exists_eq_left, hself]
      constructor
      · intro hfull
        by_contra hne
        rw [hbelow n hn (Ne.symm hne)] at hfull
        cases hfull
      · rintro rfl
        exact hroot
  | ord + 1, d, p, .split l r, hd, ⟨hwl, hwr, _⟩, ⟨hroot, hl, hr⟩, n, hn => by
      have hleft : p * 2 ^ (ord + 1) = 2 * p * 2 ^ ord := by rw [pow_succ]; ring
      have hright : p * 2 ^ (ord + 1) + 2 ^ ord = (2 * p + 1) * 2 ^ ord := by rw [pow_succ]; ring
      rw [blocks, hright, hleft]
      rw [node_left] at hl
      rw [node_right] at hr
      have hbl := below_nodeOf (p := 2 * p) (t := l) (show d + 1 + ord = M by omega)
      have hbr := below_nodeOf (p := 2 * p + 1) (t := r)
        (show d + 1 + ord = M by omega)
      simp only [List.mem_append, or_and_right, exists_or]
      rcases below_cases hn with rfl | hn | hn
      · rw [hroot]
        simp only [reduceCtorEq, false_iff, not_or, not_exists, not_and]
        refine ⟨fun b hb heq => ?_, fun b hb heq => ?_⟩
        · have := hbl b hb
          rw [← node_left, heq] at this
          exact not_below_left_self _ this
        · have := hbr b hb
          rw [← node_right, heq] at this
          exact not_below_right_self _ this
      · rw [or_iff_left]
        · rw [node_left] at hn
          exact full_iff (by omega) hwl hl hn
        · rintro ⟨b, hb, rfl⟩
          have := hbr b hb
          rw [← node_right] at this
          exact not_below_right hn this
      · rw [or_iff_right]
        · rw [node_right] at hn
          exact full_iff (by omega) hwr hr hn
        · rintro ⟨b, hb, rfl⟩
          have := hbl b hb
          rw [← node_left] at this
          exact not_below_right this hn

/-- A node is `SPLIT` exactly when a proper descendant is `FULL`. -/
theorem split_iff : ∀ {ord d p : ℕ} {t : Buddy}, WF ord t →
    Shows nodeState (node d p) t → ∀ {n : ℕ}, Below (node d p) n →
      (nodeState n = SPLIT ↔ ∃ m, Below n m ∧ m ≠ n ∧ nodeState m = FULL)
  | _, _, _, .free, _, hshows, n, hn => by
      rw [hshows n hn]
      simp only [reduceCtorEq, false_iff, not_exists, not_and]
      intro m hm _ hfull
      rw [hshows m (hn.trans hm)] at hfull
      cases hfull
  | 0, _, _, .split _ _, hwf, _, _, _ => hwf.elim
  | ord, d, p, .full, _, ⟨hroot, hbelow⟩, n, hn => by
      have hnot : nodeState n ≠ SPLIT := by
        by_cases heq : n = node d p
        · simp [heq, hroot]
        · simp [hbelow n hn heq]
      simp only [hnot, false_iff, not_exists, not_and]
      intro m hm hne hfull
      have hne' : m ≠ node d p := by
        rintro rfl
        exact hne (Nat.le_antisymm hn.le hm.le)
      rw [hbelow m (hn.trans hm) hne'] at hfull
      cases hfull
  | ord + 1, d, p, .split l r, hwf, hshows, n, hn => by
      obtain ⟨hroot, hl, hr⟩ := id hshows
      rcases below_cases hn with rfl | hn | hn
      · -- a split node that is well formed has a block below it
        simp only [hroot, true_iff]
        obtain ⟨b, hb⟩ := List.exists_mem_of_ne_nil (blocks _ (p * 2 ^ (ord + 1)) _)
          (blocks_ne_nil hwf (by simp))
        have hbelow := below_nodeOf (M := d + (ord + 1)) rfl b hb
        have hfull := (full_iff (M := d + (ord + 1)) rfl hwf hshows hbelow).mpr ⟨b, hb, rfl⟩
        refine ⟨_, hbelow, ?_, hfull⟩
        intro heq
        rw [heq, hroot] at hfull
        cases hfull
      · rw [node_left] at hl hn
        exact split_iff hwf.1 hl hn
      · rw [node_right] at hr hn
        exact split_iff hwf.2.1 hr hn

end BareKernel.BuddyManager
