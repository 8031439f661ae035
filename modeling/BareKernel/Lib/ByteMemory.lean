import Mathlib.Logic.Function.Basic
import Mathlib.Tactic.Common
import Mathlib.Tactic.Ring

/-!
# Byte-addressed memory

A flat memory of bytes with little-endian loads and stores of `n` bytes. The
three laws a verification needs are here: a load reads back what the store at
the same place wrote, a store leaves disjoint loads alone, and a load depends
only on the bytes it covers. A record field is an offset and a width, so the
fields of a record at an address are loads and stores too.
-/

namespace ByteMemory

/-- A memory: one byte at each address. -/
abbrev Mem : Type := ℕ → UInt8

/-- The little-endian number in the `n` bytes from `a` on. -/
def load (m : Mem) (a : ℕ) : ℕ → ℕ
  | 0 => 0
  | n + 1 => (m a).toNat + 256 * load m (a + 1) n

/-- The memory after writing the low `n` bytes of `v` from `a` on. -/
def store (m : Mem) (a : ℕ) : ℕ → ℕ → Mem
  | 0, _ => m
  | n + 1, v => Function.update (store m (a + 1) n (v / 256)) a (UInt8.ofNat v)

/-- Two memories hold the same bytes on `[a, a + n)`. -/
def AgreeOn (m m' : Mem) (a n : ℕ) : Prop :=
  ∀ x, a ≤ x → x < a + n → m' x = m x

theorem AgreeOn.refl (m : Mem) (a n : ℕ) : AgreeOn m m a n := fun _ _ _ => rfl

theorem AgreeOn.trans {m m' m'' : Mem} {a n : ℕ}
    (h : AgreeOn m m' a n) (h' : AgreeOn m' m'' a n) : AgreeOn m m'' a n :=
  fun x hx hx' => (h' x hx hx').trans (h x hx hx')

theorem AgreeOn.mono {m m' : Mem} {a n b k : ℕ} (h : AgreeOn m m' a n)
    (hab : a ≤ b) (hbk : b + k ≤ a + n) : AgreeOn m m' b k :=
  fun x hx hx' => h x (by omega) (by omega)

/-! ## Loads -/

theorem load_lt (m : Mem) : ∀ (n a : ℕ), load m a n < 256 ^ n
  | 0, _ => by simp [load]
  | n + 1, a => by
      have hbyte : (m a).toNat < 256 := (m a).toNat_lt
      have ih := load_lt m n (a + 1)
      rw [load, pow_succ]
      omega

theorem load_congr {m m' : Mem} : ∀ {n a : ℕ},
    AgreeOn m m' a n → load m' a n = load m a n
  | 0, _, _ => rfl
  | n + 1, a, h => by
      rw [load, load, h a (le_refl a) (by omega),
        load_congr (h.mono (Nat.le_succ a) (by omega))]

/-! ## Stores -/

theorem store_outside (m : Mem) {x : ℕ} : ∀ {n a v : ℕ},
    x < a ∨ a + n ≤ x → store m a n v x = m x
  | 0, _, _, _ => rfl
  | n + 1, a, v, h => by
      have hne : x ≠ a := by omega
      rw [store, Function.update_of_ne hne, store_outside m (by omega)]

theorem store_agreeOn (m : Mem) {a n v b k : ℕ} (h : b + k ≤ a ∨ a + n ≤ b) :
    AgreeOn m (store m a n v) b k :=
  fun x hx hx' => store_outside m (by omega)

theorem load_store_same (m : Mem) : ∀ (n a v : ℕ),
    load (store m a n v) a n = v % 256 ^ n
  | 0, _, v => by simp [load, Nat.mod_one]
  | n + 1, a, v => by
      have htail : load (store m a (n + 1) v) (a + 1) n =
          load (store m (a + 1) n (v / 256)) (a + 1) n := by
        apply load_congr
        intro x hx _
        rw [store, Function.update_of_ne (by omega)]
      have hbyte : (UInt8.ofNat v).toNat = v % 256 := by simp
      rw [load, htail, load_store_same m n (a + 1) (v / 256), store,
        Function.update_self, hbyte, pow_succ', Nat.mod_mul]

/-- **Read over write**: a load gives back the value stored there when the
value fits. -/
theorem load_store_eq (m : Mem) {n a v : ℕ} (hv : v < 256 ^ n) :
    load (store m a n v) a n = v := by
  rw [load_store_same, Nat.mod_eq_of_lt hv]

/-- **Frame**: a store does not change a load of bytes it does not touch. -/
theorem load_store_disjoint (m : Mem) {a n v b k : ℕ}
    (h : b + k ≤ a ∨ a + n ≤ b) : load (store m a n v) b k = load m b k :=
  load_congr (store_agreeOn m h)

/-- **Copying**: a store of what was loaded elsewhere copies the bytes. -/
theorem store_load (m m' : Mem) : ∀ {n a b j : ℕ}, j < n →
    store m a n (load m' b n) (a + j) = m' (b + j)
  | 0, _, _, _, h => absurd h (Nat.not_lt_zero _)
  | n + 1, a, b, j, h => by
      have hbyte : (m' b).toNat < 256 := (m' b).toNat_lt
      have hlow : UInt8.ofNat ((m' b).toNat + 256 * load m' (b + 1) n) = m' b := by
        apply UInt8.toNat_inj.mp
        rw [UInt8.toNat_ofNat']
        omega
      have hrest : ((m' b).toNat + 256 * load m' (b + 1) n) / 256 = load m' (b + 1) n := by omega
      rw [store, load, hlow, hrest]
      cases j with
      | zero => exact Function.update_self _ _ _
      | succ j =>
          rw [Function.update_of_ne (by omega), ← Nat.add_assoc, Nat.add_right_comm a,
            store_load m m' (Nat.lt_of_succ_lt_succ h), ← Nat.add_assoc, Nat.add_right_comm b]

/-- Four bytes, the lowest first. -/
theorem load_four (m : Mem) (a : ℕ) : load m a 4 = (m a).toNat + 256 * ((m (a + 1)).toNat +
    256 * ((m (a + 2)).toNat + 256 * (m (a + 3)).toNat)) := by
  simp [load]

-- from here on the laws above are the interface; unification must not unfold bytes
attribute [irreducible] load store

/-! ## Record fields -/

/-- A field of a record: where it starts in the record and its width. -/
structure Field where
  off : ℕ
  width : ℕ

/-- The value of field `f` in the record at `a`. -/
def Field.get (f : Field) (m : Mem) (a : ℕ) : ℕ := load m (a + f.off) f.width

/-- The memory after field `f` of the record at `a` got the value `v`. -/
def Field.set (f : Field) (m : Mem) (a v : ℕ) : Mem := store m (a + f.off) f.width v

/-- Two fields of one record share no byte. -/
def Field.Apart (f g : Field) : Prop := f.off + f.width ≤ g.off ∨ g.off + g.width ≤ f.off

/-- Two records of `size` bytes share no byte. -/
def Clear (size a b : ℕ) : Prop := a + size ≤ b ∨ b + size ≤ a

theorem Clear.symm {size a b : ℕ} (h : Clear size a b) : Clear size b a := Or.symm h

theorem Field.get_set_self (f : Field) (m : Mem) {a v : ℕ} (hv : v < 256 ^ f.width) :
    f.get (f.set m a v) a = v :=
  load_store_eq m hv

theorem Field.get_set_apart {f g : Field} (h : f.Apart g) (m : Mem) (a v : ℕ) :
    g.get (f.set m a v) a = g.get m a :=
  load_store_disjoint m (by unfold Field.Apart at h; omega)

theorem Field.get_set_clear {f g : Field} {n : ℕ} (hf : f.off + f.width ≤ n)
    (hg : g.off + g.width ≤ n) {a b : ℕ} (hab : Clear n a b) (m : Mem) (v : ℕ) :
    g.get (f.set m a v) b = g.get m b :=
  load_store_disjoint m (by unfold Clear at hab; omega)

theorem Field.get_congr (f : Field) {m m' : Mem} {a n : ℕ}
    (hf : f.off + f.width ≤ n) (h : AgreeOn m m' a n) : f.get m' a = f.get m a :=
  load_congr (h.mono (by omega) (by omega))

theorem Field.set_agreeOn (f : Field) (m : Mem) {a v b k : ℕ}
    (h : b + k ≤ a + f.off ∨ a + f.off + f.width ≤ b) : AgreeOn m (f.set m a v) b k :=
  store_agreeOn m h

end ByteMemory
