import Mathlib.Data.List.Nodup
import Mathlib.Logic.Function.Basic
import Mathlib.Tactic.Common

/-!
# Linked lists in a heap of nodes

A chain of nodes from one address to another, as the list of its addresses and data. Address 0 is
the null pointer.
-/

namespace LinkedList

variable {α : Type*}

structure Node (α : Type*) : Type _ where
  data : α
  tail : ℕ

variable {nodes nodes' : ℕ → Option (Node α)} {p q r a : ℕ} {x : α} {chain chain' : List (ℕ × α)}

def addresses (chain : List (ℕ × α)) : List ℕ := chain.map Prod.fst

def contents (chain : List (ℕ × α)) : List α := chain.map Prod.snd

@[simp] theorem addresses_append :
    addresses (chain ++ chain') = addresses chain ++ addresses chain' :=
  List.map_append

@[simp] theorem contents_append : contents (chain ++ chain') = contents chain ++ contents chain' :=
  List.map_append

@[simp] theorem addresses_cons (n : ℕ × α) : addresses (n :: chain) = n.1 :: addresses chain := rfl

@[simp] theorem contents_cons (n : ℕ × α) : contents (n :: chain) = n.2 :: contents chain := rfl

@[simp] theorem addresses_nil : addresses ([] : List (ℕ × α)) = [] := rfl

@[simp] theorem contents_nil : contents ([] : List (ℕ × α)) = [] := rfl

/-- The nodes of the chain follow each other from `p` on, and the last one leads to `q`. -/
def Segment (nodes : ℕ → Option (Node α)) : ℕ → List (ℕ × α) → ℕ → Prop
  | p, [], q => p = q
  | p, (a, x) :: chain, q =>
      (p = a ∧ a ≠ 0) ∧ ∃ tail, nodes a = some ⟨x, tail⟩ ∧ Segment nodes tail chain q

/-- Chains are joined end to end. -/
theorem segment_append :
    Segment nodes p (chain ++ chain') q ↔ ∃ r, Segment nodes p chain r ∧
      Segment nodes r chain' q := by
  induction chain generalizing p with
  | nil =>
      constructor
      · exact fun h => ⟨p, rfl, h⟩
      · rintro ⟨r, rfl, h⟩
        exact h
  | cons n chain ih =>
      obtain ⟨a, x⟩ := n
      constructor
      · rintro ⟨hp, tail, htail, hrest⟩
        obtain ⟨r, hchain, hlast⟩ := ih.mp hrest
        exact ⟨r, ⟨hp, tail, htail, hchain⟩, hlast⟩
      · rintro ⟨r, ⟨hp, tail, htail, hchain⟩, hlast⟩
        exact ⟨hp, tail, htail, ih.mpr ⟨r, hchain, hlast⟩⟩

/-- Only the nodes of the chain count. -/
theorem segment_congr (h : ∀ a ∈ addresses chain, nodes' a = nodes a)
    (hs : Segment nodes p chain q) :
    Segment nodes' p chain q := by
  induction chain generalizing p with
  | nil => exact hs
  | cons n chain ih =>
      obtain ⟨a, x⟩ := n
      obtain ⟨hp, tail, htail, hrest⟩ := hs
      refine ⟨hp, tail, (h a List.mem_cons_self).trans htail, ih (fun b hb => ?_) hrest⟩
      exact h b (List.mem_cons_of_mem a hb)

theorem segment_mem (hs : Segment nodes p chain q) :
    ∀ a ∈ addresses chain, a ≠ 0 ∧ (nodes a).isSome := by
  induction chain generalizing p with
  | nil => exact fun a ha => absurd ha List.not_mem_nil
  | cons n chain ih =>
      obtain ⟨b, x⟩ := n
      obtain ⟨⟨-, hne⟩, tail, htail, hrest⟩ := hs
      intro a ha
      rcases List.mem_cons.mp ha with rfl | ha
      · exact ⟨hne, by rw [htail]; rfl⟩
      · exact ih hrest a ha

/-- A chain to the null pointer is empty exactly if it starts there. -/
theorem segment_empty (hs : Segment nodes p chain 0) : p = 0 ↔ chain = [] := by
  cases chain with
  | nil => exact iff_of_true hs rfl
  | cons n chain =>
      obtain ⟨⟨rfl, hne⟩, -⟩ := hs
      exact iff_of_false hne (by simp)

/-- The last node leads somewhere else. -/
theorem segment_retarget (hs : Segment nodes p (chain ++ [(a, x)]) q)
    (ha : a ∉ addresses chain) (r : ℕ) :
    Segment (Function.update nodes a (some ⟨x, r⟩)) p (chain ++ [(a, x)]) r := by
  obtain ⟨b, hchain, ⟨rfl, hne⟩, tail, -, -⟩ := segment_append.mp hs
  refine segment_append.mpr ⟨b, segment_congr (fun c hc => ?_) hchain, ⟨rfl, hne⟩, r,
    Function.update_self _ _ _, rfl⟩
  apply Function.update_of_ne
  rintro rfl
  exact ha hc

/-- A node that is in the chain only once. -/
theorem nodup_addresses_middle (h : (addresses (chain ++ (a, x) :: chain')).Nodup) :
    a ∉ addresses (chain ++ chain') ∧ (addresses (chain ++ chain')).Nodup := by
  rw [addresses_append] at h ⊢
  exact List.nodup_cons.mp (List.nodup_middle.mp h)

end LinkedList
