import BareKernel.Terminal.Keyboard
import Mathlib.Data.List.Basic

/-!
# Handlers of special keys

The table of `keyboard.c` that says which function a key calls, and `sys_exec`, which runs a program
with the table cleared and puts the handlers back when the program is done. A registration goes to
the entry `scancode - ESCAPE_KEY`; the loops that clear and restore begin at the entry
`ESCAPE_KEY`.
-/

namespace BareKernel.KeyHandlers

/-! ## The code -/

/-- A pointer to a function, `NULL` is 0. -/
abbrev SpecialKeyHandler : Type := UInt64

structure RegisteredKeys : Type where
  registeredFromKernel : UInt8
  fn : SpecialKeyHandler
deriving DecidableEq

abbrev KeyFnMap : Type := ℕ → RegisteredKeys

/-- `F12_KEY - ESCAPE_KEY + 1`. -/
def keyCount : ℕ := f12Key.toNat - escapeKey.toNat + 1

/-- The entry of a key. -/
def keyIndex (scancode : UInt8) : ℕ := (scancode - escapeKey).toNat

def registerSpecialKey (K : KeyFnMap) (scancode : UInt8) (fn : SpecialKeyHandler)
    (registeredFromKernel : UInt8) : UInt8 × KeyFnMap :=
  if isKeycode scancode then
    let index := keyIndex scancode
    if registeredFromKernel ≠ 0 ∨ registeredFromKernel = 0 ∧ (K index).fn = 0 then
      (1, Function.update K index ⟨registeredFromKernel, fn⟩)
    else (0, K)
  else (0, K)

def sysRegisterKey (K : KeyFnMap) (scancode : UInt8) (fn : SpecialKeyHandler) : KeyFnMap :=
  (registerSpecialKey K scancode fn 0).2

/-- `for (i = ESCAPE_KEY; i < F12_KEY; i++)`. -/
def loopIndices : List ℕ := List.range' escapeKey.toNat (f12Key.toNat - escapeKey.toNat)

/-- The caller's array of handlers, and the table. -/
abbrev Saved : Type := (ℕ → SpecialKeyHandler) × KeyFnMap

def clearKey (S : Saved) (i : ℕ) : Saved :=
  if (S.2 i).registeredFromKernel = 0 then
    (Function.update S.1 i (S.2 i).fn, Function.update S.2 i { S.2 i with fn := 0 })
  else S

def clearKeyFnMapNonKernel (S : Saved) : Saved := loopIndices.foldl clearKey S

def restoreKey (map : ℕ → SpecialKeyHandler) (K : KeyFnMap) (i : ℕ) : KeyFnMap :=
  if (K i).registeredFromKernel = 0 then Function.update K i { K i with fn := map i } else K

def restoreKeyFnMapNonKernel (map : ℕ → SpecialKeyHandler) (K : KeyFnMap) : KeyFnMap :=
  loopIndices.foldl (restoreKey map) K

/-- What a program does: the keys that it registers, what becomes of the screen, and what it
returns. -/
structure Program : Type where
  registers : List (UInt8 × SpecialKeyHandler)
  draws : Console → Console
  result : Int32

def Program.registerAll (fnPtr : Program) (K : KeyFnMap) : KeyFnMap :=
  fnPtr.registers.foldl (fun K r => sysRegisterKey K r.1 r.2) K

/-- What `sys_exec` saved and left in the table when the program starts. -/
def execStart (K : KeyFnMap) : Saved := clearKeyFnMapNonKernel (fun _ => 0, K)

def sysExec (console : Console) (K : KeyFnMap) (fnPtr : Program) : Int32 × Console × KeyFnMap :=
  let console := console.clear
  let after := fnPtr.draws console
  let K' := restoreKeyFnMapNonKernel (execStart K).1 (fnPtr.registerAll (execStart K).2)
  let after := after.setFontSize (Int8.ofNat console.fontSize)
  let after :=
    { after with textColor := console.textColor, backgroundColor := console.backgroundColor }
  (fnPtr.result, after.clear, K')

/-! ## One entry -/

/-- What a registration does to the entry of its key. -/
def RegisteredKeys.register (e : RegisteredKeys) (fn : SpecialKeyHandler) : RegisteredKeys :=
  if e.fn = 0 then ⟨0, fn⟩ else e

/-- The handlers that are registered for the entry. -/
def handlersFor (i : ℕ) (registers : List (UInt8 × SpecialKeyHandler)) : List SpecialKeyHandler :=
  (registers.filter fun r => isKeycode r.1 ∧ keyIndex r.1 = i).map Prod.snd

variable {K : KeyFnMap} {S : Saved} {e : RegisteredKeys} {i : ℕ} {map : ℕ → SpecialKeyHandler}

theorem sysRegisterKey_of_ne {scancode : UInt8} (h : ¬ (isKeycode scancode ∧ keyIndex scancode = i))
    (fn : SpecialKeyHandler) : sysRegisterKey K scancode fn i = K i := by
  unfold sysRegisterKey registerSpecialKey
  by_cases hkey : isKeycode scancode
  · have hne : i ≠ keyIndex scancode := fun h' => h ⟨hkey, h'.symm⟩
    rw [if_pos hkey]
    dsimp only
    split
    · exact Function.update_of_ne hne _ _
    · rfl
  · rw [if_neg hkey]

theorem sysRegisterKey_self {scancode : UInt8} (h : isKeycode scancode) (hi : keyIndex scancode = i)
    (fn : SpecialKeyHandler) : sysRegisterKey K scancode fn i = (K i).register fn := by
  subst hi
  unfold sysRegisterKey registerSpecialKey RegisteredKeys.register
  rw [if_pos h]
  by_cases hfn : (K (keyIndex scancode)).fn = 0
  · rw [if_pos hfn, if_pos (.inr ⟨rfl, hfn⟩)]
    exact Function.update_self _ _ _
  · rw [if_neg hfn, if_neg (by simp [hfn])]

/-- **The registrations of a program**, seen from one entry. -/
theorem registerAll_entry (fnPtr : Program) (K : KeyFnMap) (i : ℕ) :
    fnPtr.registerAll K i = (handlersFor i fnPtr.registers).foldl RegisteredKeys.register
      (K i) := by
  unfold Program.registerAll
  induction fnPtr.registers generalizing K with
  | nil => rfl
  | cons r registers ih =>
      rw [List.foldl_cons, ih]
      unfold handlersFor
      by_cases h : isKeycode r.1 ∧ keyIndex r.1 = i
      · rw [List.filter_cons_of_pos (by simpa using h), List.map_cons, List.foldl_cons,
          sysRegisterKey_self h.1 h.2]
      · rw [List.filter_cons_of_neg (by simpa using h), sysRegisterKey_of_ne h]

/-- **A loop over different entries** reaches each of them once. -/
theorem foldl_entry {σ β : Type} {f : σ → ℕ → σ} (get : σ → ℕ → β) (g : ℕ → β → β)
    (hself : ∀ s i, get (f s i) i = g i (get s i))
    (hother : ∀ s i j, j ≠ i → get (f s i) j = get s j)
    (indices : List ℕ) (hnodup : indices.Nodup) (s : σ) (i : ℕ) :
    get (indices.foldl f s) i = if i ∈ indices then g i (get s i) else get s i := by
  induction indices generalizing s with
  | nil => rfl
  | cons j indices ih =>
      obtain ⟨hj, hrest⟩ := List.nodup_cons.mp hnodup
      rw [List.foldl_cons, ih hrest]
      by_cases hi : i = j
      · subst hi
        rw [if_neg hj, if_pos List.mem_cons_self, hself]
      · have hmem : i ∈ j :: indices ↔ i ∈ indices := by simp [hi]
        rw [hother s j i hi, if_congr hmem rfl rfl]

/-- An entry that `clearKeyFnMapNonKernel` comes to, with the cell of the caller's array. -/
def clearEntry (p : SpecialKeyHandler × RegisteredKeys) : SpecialKeyHandler × RegisteredKeys :=
  if p.2.registeredFromKernel = 0 then (p.2.fn, { p.2 with fn := 0 }) else p

def restoreEntry (fn : SpecialKeyHandler) (e : RegisteredKeys) : RegisteredKeys :=
  if e.registeredFromKernel = 0 then { e with fn } else e

theorem mem_loopIndices : i ∈ loopIndices ↔ 1 ≤ i ∧ i < keyCount := by
  have hfirst : escapeKey.toNat = 1 := rfl
  have hlast : f12Key.toNat = 88 := rfl
  unfold loopIndices keyCount
  rw [List.mem_range'_1, hfirst, hlast]

theorem nodup_loopIndices : loopIndices.Nodup := List.nodup_range'

theorem clearKeyFnMapNonKernel_entry (S : Saved) (i : ℕ) :
    ((clearKeyFnMapNonKernel S).1 i, (clearKeyFnMapNonKernel S).2 i) =
      if i ∈ loopIndices then clearEntry (S.1 i, S.2 i) else (S.1 i, S.2 i) := by
  unfold clearKeyFnMapNonKernel
  generalize hindices : loopIndices = indices
  have hnodup : indices.Nodup := hindices ▸ nodup_loopIndices
  refine foldl_entry (fun S i => (S.1 i, S.2 i)) (fun _ => clearEntry) ?_ ?_ indices hnodup S i
  · intro S j
    unfold clearKey clearEntry
    dsimp only
    split
    · dsimp only
      rw [Function.update_self, Function.update_self]
    · rfl
  · intro S j k hk
    unfold clearKey
    split
    · dsimp only
      rw [Function.update_of_ne hk, Function.update_of_ne hk]
    · rfl

theorem execStart_entry (K : KeyFnMap) (i : ℕ) : ((execStart K).1 i, (execStart K).2 i) =
    if i ∈ loopIndices then clearEntry (0, K i) else (0, K i) := by
  unfold execStart
  rw [clearKeyFnMapNonKernel_entry]

theorem restoreKeyFnMapNonKernel_entry (map : ℕ → SpecialKeyHandler) (K : KeyFnMap) (i : ℕ) :
    restoreKeyFnMapNonKernel map K i = if i ∈ loopIndices then restoreEntry (map i) (K i)
      else K i := by
  unfold restoreKeyFnMapNonKernel
  generalize hindices : loopIndices = indices
  have hnodup : indices.Nodup := hindices ▸ nodup_loopIndices
  refine foldl_entry (fun K i => K i) (fun i => restoreEntry (map i)) ?_ ?_ indices hnodup K i
  · intro K j
    unfold restoreKey restoreEntry
    split
    · rw [Function.update_self]
    · rfl
  · intro K j k hk
    unfold restoreKey
    split
    · exact Function.update_of_ne hk _ _
    · rfl

/-! ## What a program leaves behind -/

theorem register_eq_self {fn : SpecialKeyHandler} :
    e.register fn = e ↔ e.fn ≠ 0 ∨ e.registeredFromKernel = 0 ∧ fn = 0 := by
  obtain ⟨flag, fn'⟩ := e
  unfold RegisteredKeys.register
  by_cases h : fn' = 0
  · subst h
    rw [if_pos rfl, RegisteredKeys.mk.injEq]
    constructor
    · exact fun h => .inr ⟨h.1.symm, h.2⟩
    · rintro (h | h)
      · exact absurd rfl h
      · exact ⟨h.1.symm, h.2⟩
  · rw [if_neg h]
    exact iff_of_true rfl (.inl h)

/-- A program cannot make an entry the kernel's. -/
theorem foldl_register_flag (hs : List SpecialKeyHandler) (h : e.registeredFromKernel = 0) :
    (hs.foldl RegisteredKeys.register e).registeredFromKernel = 0 := by
  induction hs generalizing e with
  | nil => exact h
  | cons fn hs ih =>
      apply ih
      unfold RegisteredKeys.register
      split
      · rfl
      · exact h

theorem foldl_register_fn (hs : List SpecialKeyHandler) (h : e.fn ≠ 0) :
    hs.foldl RegisteredKeys.register e = e := by
  induction hs with
  | nil => rfl
  | cons fn hs ih => rw [List.foldl_cons, register_eq_self.mpr (.inl h), ih]

/-- The entry is as before exactly if no registration changes it. -/
theorem foldl_register_eq_self {hs : List SpecialKeyHandler} :
    hs.foldl RegisteredKeys.register e = e ↔ ∀ fn ∈ hs, e.register fn = e := by
  induction hs with
  | nil => exact iff_of_true rfl fun fn hfn => absurd hfn List.not_mem_nil
  | cons fn hs ih =>
      rw [List.foldl_cons, List.forall_mem_cons]
      constructor
      · intro h
        have hfirst : e.register fn = e := by
          rw [register_eq_self]
          by_cases hfn : e.fn = 0
          · have hset : e.register fn = ⟨0, fn⟩ := if_pos hfn
            rw [hset] at h
            have hflag := foldl_register_flag (e := ⟨0, fn⟩) hs rfl
            rw [h] at hflag
            refine .inr ⟨hflag, ?_⟩
            -- a handler that is not null would stay
            by_contra hne
            rw [foldl_register_fn hs (e := ⟨0, fn⟩) hne] at h
            rw [← h] at hfn
            exact hne hfn
          · exact .inl hfn
        rw [hfirst] at h
        exact ⟨hfirst, ih.mp h⟩
      · rintro ⟨hfirst, hrest⟩
        rw [hfirst]
        exact ih.mpr hrest

/-- **The entry of a key after `sys_exec`**: the loops care for what the kernel did not register. -/
theorem sysExec_entry (console : Console) (K : KeyFnMap) (fnPtr : Program) (i : ℕ) :
    (sysExec console K fnPtr).2.2 i = K i ↔ i ∈ loopIndices ∧ (K i).registeredFromKernel = 0 ∨
      ∀ fn ∈ handlersFor i fnPtr.registers, (K i).register fn = K i := by
  have hstart := execStart_entry K i
  have hfinal : (sysExec console K fnPtr).2.2 i =
      restoreKeyFnMapNonKernel (execStart K).1 (fnPtr.registerAll (execStart K).2) i := by
    unfold sysExec
    dsimp only
  rw [hfinal, restoreKeyFnMapNonKernel_entry, registerAll_entry]
  by_cases hi : i ∈ loopIndices
  · rw [if_pos hi] at hstart ⊢
    unfold clearEntry at hstart
    by_cases hflag : (K i).registeredFromKernel = 0
    · rw [if_pos hflag] at hstart
      obtain ⟨hmap, hentry⟩ := Prod.mk.inj hstart
      rw [hmap, hentry]
      have hkept :=
        foldl_register_flag (handlersFor i fnPtr.registers) (e := { K i with fn := 0 }) hflag
      refine iff_of_true ?_ (.inl ⟨hi, hflag⟩)
      unfold restoreEntry
      rw [if_pos hkept, hkept, ← hflag]
    · rw [if_neg hflag] at hstart
      obtain ⟨hmap, hentry⟩ := Prod.mk.inj hstart
      rw [hmap, hentry, ← foldl_register_eq_self]
      unfold restoreEntry
      constructor
      · intro h
        split at h
        · rename_i hzero
          rw [← h] at hflag
          exact absurd hzero hflag
        · exact .inr h
      · rintro (h | h)
        · exact absurd h.2 hflag
        · rw [h, if_neg hflag]
  · rw [if_neg hi] at hstart ⊢
    obtain ⟨-, hentry⟩ := Prod.mk.inj hstart
    rw [hentry, foldl_register_eq_self]
    constructor
    · exact .inr
    · rintro (h | h)
      · exact absurd h.1 hi
      · exact h

/-- **Isolation**: the program starts without other programs' handlers, and the table is as before
when it is done. -/
def Isolated (K : KeyFnMap) (fnPtr : Program) : Prop :=
  (∀ i < keyCount, ((execStart K).2 i).registeredFromKernel = 0 → ((execStart K).2 i).fn = 0) ∧
  ∀ console, ∀ i < keyCount, (sysExec console K fnPtr).2.2 i = K i

/-- Escape, which the loops miss, has no handler of another program, and every registration is
refused, or it is for an entry that is not the kernel's, and sets no handler of Escape. -/
structure Separate (K : KeyFnMap) (registers : List (UInt8 × SpecialKeyHandler)) : Prop where
  escape : (K (keyIndex escapeKey)).registeredFromKernel = 0 → (K (keyIndex escapeKey)).fn = 0
  registers : ∀ r ∈ registers, isKeycode r.1 → (K (keyIndex r.1)).fn ≠ 0 ∨
    (K (keyIndex r.1)).registeredFromKernel = 0 ∧ (r.1 = escapeKey → r.2 = 0)

theorem mem_handlersFor {fn : SpecialKeyHandler} {registers : List (UInt8 × SpecialKeyHandler)} :
    fn ∈ handlersFor i registers ↔
      ∃ r ∈ registers, isKeycode r.1 ∧ keyIndex r.1 = i ∧ r.2 = fn := by
  simp [handlersFor, and_assoc]

theorem keyIndex_toNat {scancode : UInt8} (h : isKeycode scancode) :
    keyIndex scancode + 1 = scancode.toNat ∧ keyIndex scancode < keyCount := by
  unfold isKeycode at h
  rw [Bool.and_eq_true, decide_eq_true_eq, decide_eq_true_eq] at h
  have hlow : 1 ≤ scancode.toNat := UInt8.le_iff_toNat_le.mp h.1
  have hhigh : scancode.toNat ≤ 88 := UInt8.le_iff_toNat_le.mp h.2
  have hsub : keyIndex scancode = scancode.toNat - 1 := UInt8.toNat_sub_of_le scancode escapeKey h.1
  have hcount : keyCount = 88 := rfl
  rw [hsub, hcount]
  omega

theorem eq_escapeKey {scancode : UInt8} (h : isKeycode scancode) (hzero : keyIndex scancode = 0) :
    scancode = escapeKey := by
  obtain ⟨hnat, -⟩ := keyIndex_toNat h
  rw [hzero] at hnat
  exact UInt8.toNat_inj.mp hnat.symm

/-- **`sys_exec` isolates key handlers**, except for Escape and for keys that the kernel registered
without a handler. -/
theorem sysExec_isolates (K : KeyFnMap) (fnPtr : Program) :
    Isolated K fnPtr ↔ Separate K fnPtr.registers := by
  have hentry : ∀ i, (execStart K).2 i =
      (if i ∈ loopIndices then clearEntry (0, K i) else (0, K i)).2 := by
    intro i
    rw [← execStart_entry]
  have hzero : keyIndex escapeKey = 0 := rfl
  have hout : 0 ∉ loopIndices := fun h => absurd (mem_loopIndices.mp h).1 (by decide)
  have hin : ∀ i < keyCount, i ≠ 0 → i ∈ loopIndices :=
    fun i hi hne => mem_loopIndices.mpr ⟨Nat.one_le_iff_ne_zero.mpr hne, hi⟩
  constructor
  · rintro ⟨hstart, hafter⟩
    constructor
    · have hesc := hstart 0 (by decide)
      rw [hentry 0, if_neg hout] at hesc
      exact hesc
    · intro r hr hkey
      obtain ⟨-, hlt⟩ := keyIndex_toNat hkey
      have hback := (sysExec_entry .initial K fnPtr (keyIndex r.1)).mp (hafter .initial _ hlt)
      rcases hback with ⟨hmem, hflag⟩ | hsame
      · refine .inr ⟨hflag, ?_⟩
        intro hesc
        rw [hesc, hzero] at hmem
        exact absurd hmem hout
      · rcases register_eq_self.mp (hsame r.2 (mem_handlersFor.mpr ⟨r, hr, hkey, rfl, rfl⟩))
          with h | h
        · exact .inl h
        · exact .inr ⟨h.1, fun _ => h.2⟩
  · rintro ⟨hesc, hregisters⟩
    rw [hzero] at hesc
    constructor
    · intro i hi hflag
      rw [hentry i] at hflag ⊢
      by_cases hne : i = 0
      · subst hne
        rw [if_neg hout] at hflag ⊢
        exact hesc hflag
      · rw [if_pos (hin i hi hne)] at hflag ⊢
        unfold clearEntry at hflag ⊢
        split
        · rfl
        · rename_i hkernel
          rw [if_neg hkernel] at hflag
          exact absurd hflag hkernel
    · intro console i hi
      rw [sysExec_entry]
      by_cases hne : i ≠ 0 ∧ (K i).registeredFromKernel = 0
      · exact .inl ⟨hin i hi hne.1, hne.2⟩
      · refine .inr fun fn hfn => register_eq_self.mpr ?_
        obtain ⟨r, hr, hkey, rfl, rfl⟩ := mem_handlersFor.mp hfn
        rcases hregisters r hr hkey with h | ⟨hflag, hnull⟩
        · exact .inl h
        · have hfirst : keyIndex r.1 = 0 := by
            by_contra h
            exact hne ⟨h, hflag⟩
          exact .inr ⟨hflag, hnull (eq_escapeKey hkey hfirst)⟩

/-- A program that registers Escape leaves its handler in an empty table. -/
theorem sysExec_escape : ¬ Isolated (fun _ => ⟨0, 0⟩) ⟨[(escapeKey, 1)], id, 0⟩ := by
  rintro ⟨-, hafter⟩
  have hsame := hafter .initial 0 (by decide)
  revert hsame
  decide +kernel

end BareKernel.KeyHandlers
