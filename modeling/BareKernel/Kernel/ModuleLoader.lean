import BareKernel.Lib.ByteMemory
import BareKernel.Lib.ByteStrings
import BareKernel.Toolchain.ModulePacker

/-!
# The module loader

`loadModules` of `Kernel/moduleLoader.c` and `memcpy` of `Kernel/lib.c`, which copies
words where both addresses and the length allow it. The loader finds behind the kernel
what the packer wrote there and copies each module to its address. What is read is
kept in the order in which it is read; the code has no such record.
-/

namespace BareKernel.Kernel

open ByteMemory Toolchain
open ByteStrings (Holds holds_append holds_congr holds_getElem holds_of_getElem)

/-! ## The code -/

/-- The memory, and the addresses of the bytes that were read. -/
structure Loader where
  memory : Mem
  reads : List ℕ

namespace Loader

/-- `d[i] = s[i]` in units of `width` bytes. -/
def copyUnit (width d s : ℕ) (L : Loader) (i : ℕ) : Loader :=
  { memory := store L.memory (d + width * i) width (load L.memory (s + width * i) width)
    reads := L.reads ++ List.range' (s + width * i) width }

/-- `for (i = 0; i < n; i++)`. -/
def copyUnits (width d s n : ℕ) (L : Loader) : Loader :=
  (List.range n).foldl (copyUnit width d s) L

def memcpy (destination source length : ℕ) (L : Loader) : Loader :=
  if destination % 4 = 0 ∧ source % 4 = 0 ∧ length % 4 = 0 then
    L.copyUnits 4 destination source (length / 4)
  else L.copyUnits 1 destination source length

/-- The number, the address behind it, and the loader. -/
def readUint32 (address : ℕ) (L : Loader) : UInt32 × ℕ × Loader :=
  (UInt32.ofNat (load L.memory address 4), address + 4,
    { L with reads := L.reads ++ List.range' address 4 })

def loadModule (module targetModuleAddress : ℕ) (L : Loader) : ℕ × Loader :=
  let (moduleSize, module, L) := L.readUint32 module
  (module + moduleSize.toNat, L.memcpy targetModuleAddress module moduleSize.toNat)

/-- The rounds from `i` on; there is no target behind the last one. -/
def loadFrom (targetModuleAddress : List ℕ) : ℕ → ℕ → ℕ → Loader → Option Loader
  | 0, _, _, L => some L
  | rounds + 1, i, currentModule, L =>
      match targetModuleAddress[i]? with
      | none => none
      | some target =>
          let (currentModule, L) := L.loadModule currentModule target
          loadFrom targetModuleAddress rounds (i + 1) currentModule L

def loadModules (payloadStart : ℕ) (targetModuleAddress : List ℕ) (L : Loader) : Option Loader :=
  let (moduleCount, currentModule, L) := L.readUint32 payloadStart
  loadFrom targetModuleAddress moduleCount.toNat 0 currentModule L

end Loader

/-! ## Copying -/

/-- An address in a range. -/
def InRange (a length x : ℕ) : Prop := a ≤ x ∧ x < a + length

section Copying

variable {L : Loader} {w d s n : ℕ}

theorem copyUnit_memory (i : ℕ) : (L.copyUnit w d s i).memory =
    store L.memory (d + w * i) w (load L.memory (s + w * i) w) := rfl

theorem copyUnit_reads (i : ℕ) : (L.copyUnit w d s i).reads =
    L.reads ++ List.range' (s + w * i) w := rfl

/-- **A loop over units** copies the range if the source is not overwritten. -/
theorem copyUnits_spec
    (hdisjoint : ∀ x, InRange d (w * n) x → ¬InRange s (w * n) x) :
    (∀ j < w * n, (L.copyUnits w d s n).memory (d + j) = L.memory (s + j)) ∧
    (∀ x, ¬InRange d (w * n) x → (L.copyUnits w d s n).memory x = L.memory x) ∧
    (L.copyUnits w d s n).reads = L.reads ++ List.range' s (w * n) := by
  induction n with
  | zero =>
      refine ⟨fun j hj => absurd hj (Nat.not_lt_zero j), fun _ _ => rfl, ?_⟩
      exact (List.append_nil _).symm
  | succ n ih =>
      have hmul : w * (n + 1) = w * n + w := Nat.mul_succ w n
      obtain ⟨hcopied, hkept, hreads⟩ := ih fun x hd hs =>
        hdisjoint x ⟨hd.1, by have := hd.2; omega⟩ ⟨hs.1, by have := hs.2; omega⟩
      have hlast : L.copyUnits w d s (n + 1) =
          (L.copyUnits w d s n).copyUnit w d s n := by
        unfold Loader.copyUnits
        rw [List.range_succ, List.foldl_append]
        rfl
      rw [hlast, hmul]
      refine ⟨fun j hj => ?_, fun x hx => ?_, ?_⟩
      · by_cases hfront : j < w * n
        · rw [copyUnit_memory, store_outside _ (by omega), hcopied j hfront]
        · obtain ⟨k, rfl⟩ := Nat.exists_eq_add_of_le (Nat.not_lt.mp hfront)
          rw [copyUnit_memory, ← Nat.add_assoc, store_load _ _ (by omega), Nat.add_assoc]
          -- the source byte is in no place that was written
          apply hkept
          intro hwritten
          exact hdisjoint _ ⟨hwritten.1, by have := hwritten.2; omega⟩ ⟨by omega, by omega⟩
      · rw [copyUnit_memory, store_outside, hkept]
        · intro hwritten
          exact hx ⟨hwritten.1, by have := hwritten.2; omega⟩
        · by_contra hin
          exact hx ⟨by omega, by omega⟩
      · rw [copyUnit_reads, hreads, List.append_assoc, List.range'_append_1]

/-- **memcpy** copies bytes or words, with the same result. -/
theorem memcpy_spec (hdisjoint : ∀ x, InRange d n x → ¬InRange s n x) :
    (∀ j < n, (L.memcpy d s n).memory (d + j) = L.memory (s + j)) ∧
    (∀ x, ¬InRange d n x → (L.memcpy d s n).memory x = L.memory x) ∧
    (L.memcpy d s n).reads = L.reads ++ List.range' s n := by
  unfold Loader.memcpy
  split
  · rename_i haligned
    have hwords : 4 * (n / 4) = n := by omega
    have hcopy := copyUnits_spec (L := L) (w := 4) (d := d) (s := s) (n := n / 4)
      (by rw [hwords]; exact hdisjoint)
    rwa [hwords] at hcopy
  · have hbytes : 1 * n = n := Nat.one_mul n
    have hcopy := copyUnits_spec (L := L) (w := 1) (d := d) (s := s) (n := n)
      (by rw [hbytes]; exact hdisjoint)
    rwa [hbytes] at hcopy

end Copying

/-! ## Reading what the packer wrote -/

section Loading

variable {L : Loader} {a : ℕ} {targets : List ℕ}

theorem readUint32_value {v : UInt32} (h : Holds L.memory a (uint32Bytes v)) :
    (L.readUint32 a).1 = v := by
  obtain ⟨h₀, h₁, h₂, h₃, _⟩ := h
  have hlt := v.toNat_lt
  have hbyte : ∀ k : UInt32, ((v >>> k).toUInt8).toNat = v.toNat / 2 ^ (k.toNat % 32) % 256 := by
    intro k
    rw [UInt32.toNat_toUInt8, UInt32.toNat_shiftRight, Nat.shiftRight_eq_div_pow]
  have hsecond : ((v >>> 8).toUInt8).toNat = v.toNat / 256 % 256 := hbyte 8
  have hthird : ((v >>> 16).toUInt8).toNat = v.toNat / 65536 % 256 := hbyte 16
  have hfourth : ((v >>> 24).toUInt8).toNat = v.toNat / 16777216 % 256 := hbyte 24
  change UInt32.ofNat (load L.memory a 4) = v
  apply UInt32.toNat_inj.mp
  rw [load_four, h₀, h₁, h₂, h₃, UInt32.toNat_ofNat', UInt32.toNat_toUInt8, hsecond, hthird,
    hfourth]
  omega

/-- A module and the place where it goes share no byte with another one. -/
def Apart (A B : ℕ × List UInt8) : Prop :=
  ∀ x, InRange A.1 A.2.length x → ¬InRange B.1 B.2.length x

/-- **One module** is copied from behind its size. -/
theorem loadModule_spec {file : List UInt8} {t : ℕ} (hsize : file.length < 2 ^ 32)
    (h : Holds L.memory a (record file))
    (hclear : ∀ x, InRange t file.length x → ¬InRange a (record file).length x) :
    (L.loadModule a t).1 = a + (record file).length ∧
    Holds (L.loadModule a t).2.memory t file ∧
    (∀ x, ¬InRange t file.length x → (L.loadModule a t).2.memory x = L.memory x) ∧
    (L.loadModule a t).2.reads = L.reads ++ List.range' a (record file).length := by
  have hlength := length_record file
  obtain ⟨hbytes, hfile⟩ := holds_append.mp h
  rw [length_uint32Bytes] at hfile
  have hvalue : (L.readUint32 a).1.toNat = file.length := by
    rw [readUint32_value hbytes, UInt32.toNat_ofNat']
    exact Nat.mod_eq_of_lt hsize
  have hmodule : L.loadModule a t = (a + 4 + (L.readUint32 a).1.toNat,
    (L.readUint32 a).2.2.memcpy t (a + 4) (L.readUint32 a).1.toNat) := rfl
  obtain ⟨hcopied, hkept, hreads⟩ := memcpy_spec (L := (L.readUint32 a).2.2) (d := t) (s := a + 4)
    (n := file.length) fun x hx hin => hclear x hx
      ⟨by have := hin.1; omega, by have := hin.2; omega⟩
  rw [hmodule, hvalue]
  refine ⟨by omega, holds_of_getElem fun j hj => ?_, hkept, ?_⟩
  · rw [hcopied j hj]
    exact holds_getElem hfile j hj
  · change ((L.readUint32 a).2.2.memcpy t (a + 4) file.length).reads = _
    have hfirst : (L.readUint32 a).2.2.reads = L.reads ++ List.range' a 4 := rfl
    rw [hreads, hfirst, hlength, List.append_assoc, List.range'_append_1]

/-- **All of them**, from the round `i` on. -/
theorem loadFrom_spec {modules : List (List UInt8)} {i : ℕ}
    (hsize : ∀ file ∈ modules, file.length < 2 ^ 32)
    (hroom : modules.length ≤ (targets.drop i).length)
    (h : Holds L.memory a (modules.flatMap record))
    (hapart : ((targets.drop i).zip modules).Pairwise Apart)
    (hclear : ∀ A ∈ (targets.drop i).zip modules, ∀ x, InRange A.1 A.2.length x →
      ¬InRange a (modules.flatMap record).length x) :
    ∃ L', Loader.loadFrom targets modules.length i a L = some L' ∧
      (∀ A ∈ (targets.drop i).zip modules, Holds L'.memory A.1 A.2) ∧
      (∀ x, (∀ A ∈ (targets.drop i).zip modules, ¬InRange A.1 A.2.length x) →
        L'.memory x = L.memory x) ∧
      L'.reads = L.reads ++ List.range' a (modules.flatMap record).length := by
  induction modules generalizing i a L with
  | nil => exact ⟨L, rfl, by simp, fun _ _ => rfl, (List.append_nil _).symm⟩
  | cons file modules ih =>
      have hi : i < targets.length := by
        rw [List.length_drop, List.length_cons] at hroom
        omega
      have hdrop : targets.drop i = targets[i] :: targets.drop (i + 1) :=
        List.drop_eq_getElem_cons hi
      rw [hdrop, List.zip_cons_cons] at hapart hclear ⊢
      rw [hdrop, List.length_cons, List.length_cons] at hroom
      rw [List.flatMap_cons] at h hclear ⊢
      have htotal : (record file ++ modules.flatMap record).length =
          (record file).length + (modules.flatMap record).length := List.length_append
      rw [htotal] at hclear ⊢
      obtain ⟨hfirst, hothers⟩ := List.pairwise_cons.mp hapart
      obtain ⟨hrecord, hrest⟩ := holds_append.mp h
      obtain ⟨hnext, hfile, hkept, hreads⟩ := loadModule_spec (t := targets[i])
        (hsize file List.mem_cons_self) hrecord fun x hx hin =>
          hclear _ List.mem_cons_self x hx ⟨hin.1, by have := hin.2; omega⟩
      -- what is still to be read is not in the first area
      have hrest' : Holds (L.loadModule a targets[i]).2.memory (a + (record file).length)
          (modules.flatMap record) := by
        refine holds_congr (fun x hlow hhigh => hkept x fun hx => ?_) hrest
        exact hclear _ List.mem_cons_self x hx ⟨by omega, by omega⟩
      obtain ⟨L', hload, hplaced, hsame, hreads'⟩ := ih (i := i + 1)
        (fun f hf => hsize f (List.mem_cons_of_mem file hf)) (by omega) hrest' hothers
        fun A hA x hx hin => hclear A (List.mem_cons_of_mem _ hA) x hx
          ⟨by have := hin.1; omega, by have := hin.2; omega⟩
      refine ⟨L', ?_, ?_, fun x hx => ?_, ?_⟩
      · rw [List.length_cons, Loader.loadFrom, List.getElem?_eq_getElem hi]
        change Loader.loadFrom targets modules.length (i + 1) (L.loadModule a targets[i]).1
          (L.loadModule a targets[i]).2 = some L'
        rw [hnext]
        exact hload
      · intro A hA
        rcases List.mem_cons.mp hA with rfl | hA
        · refine holds_congr (fun x hlow hhigh => hsame x fun B hB hin => ?_) hfile
          exact hfirst B hB x ⟨hlow, hhigh⟩ hin
        · exact hplaced A hA
      · rw [hsame x fun A hA => hx A (List.mem_cons_of_mem _ hA)]
        exact hkept x (hx _ List.mem_cons_self)
      · rw [hreads', hreads, List.append_assoc, List.range'_append_1]

end Loading

/-! ## The round trip -/

/-- **What was packed is loaded**: behind the image's kernel the loader reads exactly what
the packer wrote, each module gets to its address, and nothing else is changed. -/
theorem modules_round_trip (fileArray : FileArray) (kernel : List UInt8)
    (modules : List (List UInt8)) (harray : fileArray.array = kernel :: modules)
    (hsize : ∀ file ∈ modules, file.length < 2 ^ 32)
    (targets : List ℕ) (hroom : modules.length ≤ targets.length)
    (hapart : (targets.zip modules).Pairwise Apart)
    (image : List UInt8) (himage : buildImage fileArray = some image)
    (m : Mem) (base : ℕ) (hplaced : Holds m base image)
    (hclear : ∀ A ∈ targets.zip modules, ∀ x, InRange A.1 A.2.length x →
      ¬InRange (base + kernel.length) (image.length - kernel.length) x) :
    ∃ L, Loader.loadModules (base + kernel.length) targets ⟨m, []⟩ = some L ∧
      (∀ i (h : i < modules.length), Holds L.memory targets[i] modules[i]) ∧
      L.reads = List.range' (base + kernel.length) (image.length - kernel.length) ∧
      ∀ x, (∀ A ∈ targets.zip modules, ¬InRange A.1 A.2.length x) → L.memory x = m x := by
  obtain rfl : kernel ++ payload modules = image :=
    Option.some.inj ((buildImage_eq harray).symm.trans himage)
  have hpayload : (kernel ++ payload modules).length - kernel.length =
      4 + (modules.flatMap record).length := by
    rw [List.length_append, Nat.add_sub_cancel_left, payload, List.length_append,
      length_uint32Bytes]
  rw [hpayload] at hclear ⊢
  obtain ⟨-, hbehind⟩ := holds_append.mp hplaced
  obtain ⟨hcount, hrecords⟩ := holds_append.mp hbehind
  rw [length_uint32Bytes] at hrecords
  -- the number of modules is an `int`
  have hmany : modules.length < 2 ^ 32 := by
    have hlt := fileArray.length_lt
    rw [harray, List.length_cons] at hlt
    omega
  have hread : ((⟨m, []⟩ : Loader).readUint32 (base + kernel.length)).1.toNat =
      modules.length := by
    rw [readUint32_value hcount, UInt32.toNat_ofNat']
    exact Nat.mod_eq_of_lt hmany
  obtain ⟨L, hload, hloaded, hsame, hreads⟩ := loadFrom_spec
    (L := ⟨m, [] ++ List.range' (base + kernel.length) 4⟩) (i := 0) hsize hroom hrecords
    hapart fun A hA x hx hin => hclear A hA x hx
      ⟨by have := hin.1; omega, by have := hin.2; omega⟩
  refine ⟨L, ?_, fun i hi => ?_, ?_, hsame⟩
  · change Loader.loadFrom targets
      ((⟨m, []⟩ : Loader).readUint32 (base + kernel.length)).1.toNat 0
      (base + kernel.length + 4) ⟨m, [] ++ List.range' (base + kernel.length) 4⟩ = some L
    rw [hread]
    exact hload
  · have hzip : i < (targets.zip modules).length := by
      rw [List.length_zip]
      exact Nat.lt_min.mpr ⟨Nat.lt_of_lt_of_le hi hroom, hi⟩
    have hpair := hloaded (targets.zip modules)[i] (List.getElem_mem hzip)
    rwa [List.getElem_zip] at hpair
  · rw [hreads, List.nil_append, List.range'_append_1]

/-- A kernel of eight bytes, a module of eight and one of three. -/
def twoModules : List UInt8 :=
  [1, 1, 1, 1, 1, 1, 1, 1, 2, 0, 0, 0, 8, 0, 0, 0, 10, 11, 12, 13, 14, 15, 16, 17, 3, 0, 0, 0,
    20, 21, 22]

/-- The first module is copied by words of four bytes, the second one byte by byte. -/
theorem modules_round_trip_two :
    ∃ L, Loader.loadModules 8 [104, 201] ⟨fun x => twoModules.getD x 0, []⟩ = some L ∧
      Holds L.memory 104 [10, 11, 12, 13, 14, 15, 16, 17] ∧ Holds L.memory 201 [20, 21, 22] ∧
        L.reads = List.range' 8 23 ∧ L.memory 200 = 0 ∧ L.memory 204 = 0 := by
  have hapart : Apart (104, [10, 11, 12, 13, 14, 15, 16, 17]) (201, [20, 21, 22]) := by
    intro x hx hin
    exact absurd (Nat.lt_of_le_of_lt hin.1 hx.2) (by decide)
  obtain ⟨L, hload, hheld, hreads, hsame⟩ := modules_round_trip
    ⟨[[1, 1, 1, 1, 1, 1, 1, 1], [10, 11, 12, 13, 14, 15, 16, 17], [20, 21, 22]], by decide⟩
    [1, 1, 1, 1, 1, 1, 1, 1] [[10, 11, 12, 13, 14, 15, 16, 17], [20, 21, 22]] rfl (by simp)
    [104, 201] (by simp) (by simpa using hapart) twoModules (by rw [buildImage_eq rfl]; rfl)
    (fun x => twoModules.getD x 0) 0 (by decide) (by
      intro A hA x hx hin
      have hlow : x < 104 := Nat.lt_of_lt_of_le hin.2 (by decide)
      simp only [List.zip_cons_cons, List.zip_nil_right, List.mem_cons, List.not_mem_nil,
        or_false] at hA
      rcases hA with rfl | rfl
      · exact absurd hx.1 (by simp only; omega)
      · exact absurd hx.1 (by simp only; omega))
  refine ⟨L, hload, hheld 0 (by decide), hheld 1 (by decide), hreads, ?_, ?_⟩
  · exact hsame 200 (by simp [InRange])
  · exact hsame 204 (by simp [InRange])

end BareKernel.Kernel
