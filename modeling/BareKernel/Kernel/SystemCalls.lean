import BareKernel.Kernel.InterruptHandlers

/-!
# System calls

The way of a system call: a function of `libsys/asm/libsys.asm` puts its number in `rax`
and raises the interrupt, the CPU reads the gate that `idt/idtLoader.c` has written, and the
handler calls `syscallDispatcher` and comes back.
-/

namespace BareKernel.Kernel.Interrupts

open X86 ByteMemory

variable {σ : Type}

/-! ## The table of interrupts -/

/-- The fields of `DESCR_INT`, which is packed. -/
def offsetL : Field := ⟨0, 2⟩

def selectorField : Field := ⟨2, 2⟩

def zeroField : Field := ⟨4, 1⟩

def accessField : Field := ⟨5, 1⟩

def offsetM : Field := ⟨6, 2⟩

def offsetH : Field := ⟨8, 4⟩

def otherZero : Field := ⟨12, 4⟩

/-- `sizeof(DESCR_INT)`. -/
def descrSize : ℕ := 16

/-- `ACS_INT`. -/
def acsInt : ℕ := 0x8E

/-- `&idt[index]`; the table begins at 0. -/
def descrAt (index : ℕ) : ℕ := descrSize * index

/-- `setup_IDT_entry`. -/
def setupIdtEntry (m : Mem) (index : ℕ) (offset : UInt64) : Mem :=
  let a := descrAt index
  let m := offsetL.set m a (offset &&& 0xFFFF).toNat
  let m := selectorField.set m a 0x08
  let m := zeroField.set m a 0
  let m := accessField.set m a acsInt
  let m := offsetM.set m a ((offset >>> 16) &&& 0xFFFF).toNat
  let m := offsetH.set m a ((offset >>> 32) &&& 0xFFFFFFFF).toNat
  otherZero.set m a 0

/-- Where the linker put the handlers. -/
structure Handlers where
  exceptionHandler00 : UInt64
  exceptionHandler06 : UInt64
  irq00Handler : UInt64
  irq01Handler : UInt64
  irq80Handler : UInt64
  distinct : [exceptionHandler00, exceptionHandler06, irq00Handler, irq01Handler,
    irq80Handler].Nodup

/-- The vectors that `load_idt` sets up. -/
def Handlers.vectors (H : Handlers) : List (ℕ × UInt64) :=
  [(0x00, H.exceptionHandler00), (0x06, H.exceptionHandler06), (0x20, H.irq00Handler),
    (0x21, H.irq01Handler), (0x80, H.irq80Handler)]

/-- The code that lies at an address. -/
def codeAt (H : Handlers) (F : Externs σ) (L : Labels) (offset : UInt64) : Option (Code σ) :=
  if offset = H.exceptionHandler00 then some (exceptionHandler00 F L)
  else if offset = H.exceptionHandler06 then some (exceptionHandler06 F L)
  else if offset = H.irq00Handler then some (irq00Handler F)
  else if offset = H.irq01Handler then some (irq01Handler F L)
  else if offset = H.irq80Handler then some (irq80Handler F)
  else none

def setupEntries (m : Mem) (entries : List (ℕ × UInt64)) : Mem :=
  entries.foldl (fun m entry => setupIdtEntry m entry.1 entry.2) m

/-- The table that `load_idt` leaves. -/
def loadIdt (H : Handlers) (m : Mem) : Mem := setupEntries m H.vectors

/-- What the CPU reads from the table. -/
structure Gate where
  offset : UInt64
  selector : UInt64
  ist : ℕ
  access : ℕ
deriving DecidableEq

def Gate.read (m : Mem) (index : ℕ) : Gate :=
  let a := descrAt index
  { offset := UInt64.ofNat
      (offsetL.get m a + 2 ^ 16 * offsetM.get m a + 2 ^ 32 * offsetH.get m a)
    selector := UInt64.ofNat (selectorField.get m a)
    ist := zeroField.get m a % 8
    access := accessField.get m a }

/-- The parts of an offset are all of it. -/
theorem offset_parts (offset : UInt64) :
    (offset &&& 0xFFFF).toNat + 2 ^ 16 * ((offset >>> 16) &&& 0xFFFF).toNat +
      2 ^ 32 * ((offset >>> 32) &&& 0xFFFFFFFF).toNat = offset.toNat := by
  have hlow : ∀ x : UInt64, (x &&& 0xFFFF).toNat = x.toNat % 2 ^ 16 :=
    fun x => (UInt64.toNat_and _ _).trans (Nat.and_two_pow_sub_one_eq_mod x.toNat 16)
  have hhigh : ∀ x : UInt64, (x &&& 0xFFFFFFFF).toNat = x.toNat % 2 ^ 32 :=
    fun x => (UInt64.toNat_and _ _).trans (Nat.and_two_pow_sub_one_eq_mod x.toNat 32)
  have hshift : (offset >>> 16).toNat = offset.toNat / 2 ^ 16 := by
    rw [UInt64.toNat_shiftRight, Nat.shiftRight_eq_div_pow]
    rfl
  have hshift' : (offset >>> 32).toNat = offset.toNat / 2 ^ 32 := by
    rw [UInt64.toNat_shiftRight, Nat.shiftRight_eq_div_pow]
    rfl
  have hlt := offset.toNat_lt
  rw [hlow, hlow, hhigh, hshift, hshift']
  omega

theorem offset_parts_lt (offset : UInt64) :
    (offset &&& 0xFFFF).toNat < 256 ^ 2 ∧ ((offset >>> 16) &&& 0xFFFF).toNat < 256 ^ 2 ∧
      ((offset >>> 32) &&& 0xFFFFFFFF).toNat < 256 ^ 4 := by
  refine ⟨?_, ?_, ?_⟩
  · rw [UInt64.toNat_and]
    exact Nat.lt_of_le_of_lt Nat.and_le_right (by decide)
  · rw [UInt64.toNat_and]
    exact Nat.lt_of_le_of_lt Nat.and_le_right (by decide)
  · rw [UInt64.toNat_and]
    exact Nat.lt_of_le_of_lt Nat.and_le_right (by decide)

theorem setupIdtEntry_outside (m : Mem) {index : ℕ} (offset : UInt64) {x : ℕ}
    (hx : x < descrAt index ∨ descrAt index + descrSize ≤ x) :
    setupIdtEntry m index offset x = m x := by
  have hsize : descrSize = 16 := rfl
  have hone : ∀ (f : Field) (m : Mem) (v : ℕ), f.off + f.width ≤ 16 →
      f.set m (descrAt index) v x = m x := by
    intro f m v hf
    apply store_outside
    omega
  unfold setupIdtEntry
  rw [hone otherZero _ _ (by decide), hone offsetH _ _ (by decide), hone offsetM _ _ (by decide),
    hone accessField _ _ (by decide), hone zeroField _ _ (by decide),
    hone selectorField _ _ (by decide), hone offsetL _ _ (by decide)]

/-- **A gate** leads to the handler it was set up for. -/
theorem gate_setup (m : Mem) (index : ℕ) (offset : UInt64) :
    Gate.read (setupIdtEntry m index offset) index = ⟨offset, 8, 0, acsInt⟩ := by
  have hskip : ∀ (f g : Field) (m : Mem) (v : ℕ), g.off + g.width ≤ f.off →
      g.get (f.set m (descrAt index) v) (descrAt index) = g.get m (descrAt index) :=
    fun f g m v h => Field.get_set_apart (.inr h) m _ v
  have hparts := offset_parts offset
  have hlt := offset.toNat_lt
  obtain ⟨hlow, hmiddle, hhigh⟩ := offset_parts_lt offset
  let m' := setupIdtEntry m index offset
  have hl : offsetL.get m' (descrAt index) = (offset &&& 0xFFFF).toNat := by
    unfold m' setupIdtEntry
    rw [hskip _ _ _ _ (by decide), hskip _ _ _ _ (by decide), hskip _ _ _ _ (by decide),
      hskip _ _ _ _ (by decide), hskip _ _ _ _ (by decide), hskip _ _ _ _ (by decide)]
    exact Field.get_set_self offsetL m hlow
  have hselector : selectorField.get m' (descrAt index) = 0x08 := by
    unfold m' setupIdtEntry
    rw [hskip _ _ _ _ (by decide), hskip _ _ _ _ (by decide), hskip _ _ _ _ (by decide),
      hskip _ _ _ _ (by decide), hskip _ _ _ _ (by decide)]
    exact Field.get_set_self selectorField _ (by decide)
  have hzero : zeroField.get m' (descrAt index) = 0 := by
    unfold m' setupIdtEntry
    rw [hskip _ _ _ _ (by decide), hskip _ _ _ _ (by decide), hskip _ _ _ _ (by decide),
      hskip _ _ _ _ (by decide)]
    exact Field.get_set_self zeroField _ (by decide)
  have haccess : accessField.get m' (descrAt index) = acsInt := by
    unfold m' setupIdtEntry
    rw [hskip _ _ _ _ (by decide), hskip _ _ _ _ (by decide), hskip _ _ _ _ (by decide)]
    exact Field.get_set_self accessField _ (by decide)
  have hm : offsetM.get m' (descrAt index) = ((offset >>> 16) &&& 0xFFFF).toNat := by
    unfold m' setupIdtEntry
    rw [hskip _ _ _ _ (by decide), hskip _ _ _ _ (by decide)]
    exact Field.get_set_self offsetM _ hmiddle
  have hh : offsetH.get m' (descrAt index) = ((offset >>> 32) &&& 0xFFFFFFFF).toNat := by
    unfold m' setupIdtEntry
    rw [hskip _ _ _ _ (by decide)]
    exact Field.get_set_self offsetH _ hhigh
  show Gate.read m' index = _
  rw [Gate.read, Gate.mk.injEq, hl, hm, hh, hselector, hzero, haccess, hparts]
  exact ⟨UInt64.ofNat_toNat, rfl, rfl, rfl⟩

theorem gate_congr {m m' : Mem} {index : ℕ} (h : AgreeOn m m' (descrAt index) descrSize) :
    Gate.read m' index = Gate.read m index := by
  have hget : ∀ f : Field, f.off + f.width ≤ descrSize →
      f.get m' (descrAt index) = f.get m (descrAt index) := fun f hf => f.get_congr hf h
  rw [Gate.read, Gate.read, hget offsetL (by decide), hget offsetM (by decide),
    hget offsetH (by decide), hget selectorField (by decide), hget zeroField (by decide),
    hget accessField (by decide)]

/-- Other gates stay as they are. -/
theorem gate_setup_of_ne (m : Mem) {index other : ℕ} (offset : UInt64) (h : other ≠ index) :
    Gate.read (setupIdtEntry m index offset) other = Gate.read m other := by
  apply gate_congr
  intro x hx hx'
  apply setupIdtEntry_outside
  unfold descrAt descrSize at *
  omega

theorem gate_setupEntries_of_notMem {index : ℕ} : ∀ {entries : List (ℕ × UInt64)} {m : Mem},
    index ∉ entries.map Prod.fst →
      Gate.read (setupEntries m entries) index = Gate.read m index
  | [], _, _ => rfl
  | entry :: entries, m, h => by
      rw [List.map_cons, List.mem_cons, not_or] at h
      have hrest : Gate.read (setupEntries m (entry :: entries)) index =
          Gate.read (setupIdtEntry m entry.1 entry.2) index :=
        gate_setupEntries_of_notMem h.2
      rw [hrest, gate_setup_of_ne m entry.2 h.1]

/-- Every entry has its gate. -/
theorem gate_setupEntries {index : ℕ} {offset : UInt64} : ∀ {entries : List (ℕ × UInt64)} {m : Mem},
    (entries.map Prod.fst).Nodup → (index, offset) ∈ entries →
      Gate.read (setupEntries m entries) index = ⟨offset, 8, 0, acsInt⟩
  | entry :: entries, m, hnodup, hmem => by
      rw [List.map_cons, List.nodup_cons] at hnodup
      rcases List.mem_cons.mp hmem with rfl | hmem
      · have hrest : Gate.read (setupEntries m ((index, offset) :: entries)) index =
            Gate.read (setupIdtEntry m index offset) index :=
          gate_setupEntries_of_notMem hnodup.1
        rw [hrest, gate_setup]
      · have hrest : Gate.read (setupEntries (setupIdtEntry m entry.1 entry.2) entries) index =
            ⟨offset, 8, 0, acsInt⟩ := gate_setupEntries hnodup.2 hmem
        exact hrest

/-- **The table**: each of the five vectors leads to its handler. -/
theorem gate_loadIdt (H : Handlers) (m : Mem) {index : ℕ} {offset : UInt64}
    (h : (index, offset) ∈ H.vectors) :
    Gate.read (loadIdt H m) index = ⟨offset, 8, 0, acsInt⟩ :=
  gate_setupEntries (show [0x00, 0x06, 0x20, 0x21, 0x80].Nodup by decide) h

/-! ## From the program to the dispatcher and back -/

/-- `int vector`. -/
def interruptThrough (H : Handlers) (F : Externs σ) (L : Labels) (vector : ℕ) (m : Cpu × σ) :
    Option (Cpu × σ) :=
  let gate := Gate.read m.1.mem vector
  (codeAt H F L gate.offset).map fun code =>
    Instr.run code 0 (m.1.interrupt gate.selector gate.offset, m.2)

/-- `sys_int80` up to `int 0x80`, which ends at `behind`. -/
def stubEntry (number behind : UInt64) (c : Cpu) : Cpu :=
  { Instr.execAll ([.push .rbp, .mov .rbp .rsp, .movImm .rax number] : Code Unit) c with
    rip := behind }

/-- `sys_int80`, which the linker put where its `int 0x80` ends at `behind`. -/
def sysInt80 (H : Handlers) (F : Externs σ) (L : Labels) (number behind : UInt64)
    (m : Cpu × σ) : Option (Cpu × σ) :=
  (interruptThrough H F L 0x80 (stubEntry number behind m.1, m.2)).map fun m =>
    (Instr.execAll ([.mov .rsp .rbp, .pop .rbp, .ret] : Code σ) m.1, m.2)

/-- The table, of 256 vectors, is as `load_idt` left it. -/
def Loaded (H : Handlers) (m : Mem) : Prop :=
  ∃ m₀, AgreeOn (loadIdt H m₀) m 0 (descrSize * 256)

theorem Loaded.gate {H : Handlers} {m : Mem} (h : Loaded H m) {index : ℕ} {offset : UInt64}
    (hindex : index < 256) (hmem : (index, offset) ∈ H.vectors) :
    Gate.read m index = ⟨offset, 8, 0, acsInt⟩ := by
  obtain ⟨m₀, hm⟩ := h
  rw [← gate_loadIdt H m₀ hmem]
  apply gate_congr
  apply hm.mono (Nat.zero_le _)
  unfold descrAt descrSize
  omega

theorem codeAt_irq80 (H : Handlers) (F : Externs σ) (L : Labels) :
    codeAt H F L H.irq80Handler = some (irq80Handler F) := by
  have hdistinct := H.distinct
  simp only [List.nodup_cons, List.mem_cons, List.not_mem_nil, or_false, not_or] at hdistinct
  obtain ⟨⟨_, _, _, h00⟩, ⟨_, _, h06⟩, ⟨_, hirq00⟩, hirq01, _⟩ := hdistinct
  rw [codeAt, if_neg (Ne.symm h00), if_neg (Ne.symm h06), if_neg (Ne.symm hirq00),
    if_neg (Ne.symm hirq01), if_pos rfl]

theorem stubEntry_eq (number behind : UInt64) (c : Cpu) : stubEntry number behind c =
    { ((c.push (c.reg .rbp)).set .rbp (c.push (c.reg .rbp)).rsp).set .rax number with
      rip := behind } := rfl

attribute [irreducible] stubEntry

/-- What the stub leaves: `rbp` on the stack, and the number. -/
structure Stub (number behind : UInt64) (c c' : Cpu) : Prop where
  rsp : c'.rsp = c.rsp - 8
  top : c'.rsp.toNat + 8 = c.rsp.toNat
  saved : word c'.mem c'.rsp.toNat = c.reg .rbp
  outside : ∀ x, x < c'.rsp.toNat ∨ c.rsp.toNat ≤ x → c'.mem x = c.mem x
  context : c'.toContext = { c.toContext with
    reg := fun r =>
      if r = .rax then number else if r = .rbp ∨ r = .rsp then c.rsp - 8 else c.reg r
    rip := behind }

theorem stub_entry (number behind : UInt64) {c : Cpu} (hroom : 8 ≤ c.rsp.toNat) :
    Stub number behind c (stubEntry number behind c) := by
  rw [stubEntry_eq]
  have hpush : Cpu.Pushed c (c.push (c.reg .rbp)) [c.reg .rbp] :=
    (Cpu.Pushed.refl c).push hroom _
  have hrsp : (c.push (c.reg .rbp)).rsp = c.rsp - 8 := c.push_rsp _
  have hcontext : (c.push (c.reg .rbp)).toContext =
    { c.toContext with reg := (c.push (c.reg .rbp)).reg } := rfl
  generalize c.push (c.reg .rbp) = c₀ at hpush hrsp hcontext
  have hsame : ((c₀.set .rbp c₀.rsp).set .rax number).rsp = c₀.rsp := by
    rw [Cpu.set_rsp _ (by decide), Cpu.set_rsp _ (by decide)]
  have htop := hpush.top
  have hwords := hpush.words
  have hat : ({ (c₀.set .rbp c₀.rsp).set .rax number with rip := behind } : Cpu).rsp =
    c₀.rsp := hsame
  refine ⟨hat.trans hrsp, ?_, ?_, ?_, ?_⟩
  · rw [hat]
    exact htop
  · rw [hat]
    exact hwords.1
  · rw [hat]
    exact hpush.outside
  · have hset : ({ (c₀.set .rbp c₀.rsp).set .rax number with rip := behind } : Cpu).toContext =
        { c₀.toContext with
          reg := ((c₀.set .rbp c₀.rsp).set .rax number).reg, rip := behind } := rfl
    rw [hset, hcontext, Context.mk.injEq]
    refine ⟨?_, rfl, rfl, rfl, rfl⟩
    funext r
    rw [Cpu.set_reg, Cpu.set_reg, hrsp]
    by_cases hax : r = .rax
    · rw [if_pos hax, if_pos hax]
    rw [if_neg hax, if_neg hax]
    by_cases hbp : r = .rbp
    · rw [if_pos hbp, if_pos (.inl hbp)]
    rw [if_neg hbp]
    by_cases hsp : r = .rsp
    · rw [if_pos (.inr hsp), hsp]
      exact hrsp
    · rw [if_neg (not_or.mpr ⟨hbp, hsp⟩)]
      exact hpush.regs r hsp

/-- The instructions of `sys_int80` after `int 0x80`. -/
theorem stub_exit (c : Cpu) :
    let c' := Instr.execAll ([.mov .rsp .rbp, .pop .rbp, .ret] : Code σ) c
    c'.toContext = { c.toContext with
      reg := fun r => if r = .rbp then word c.mem (c.reg .rbp).toNat
        else if r = .rsp then c.reg .rbp + 8 + 8 else c.reg r
      rip := word c.mem (c.reg .rbp + 8).toNat } ∧ c'.mem = c.mem := by
  intro c'
  have htop : (c.set .rsp (c.reg .rbp)).rsp = c.reg .rbp := by
    rw [Cpu.rsp, Cpu.set_reg, if_pos rfl]
  have hpop : ((c.set .rsp (c.reg .rbp)).pop .rbp).rsp = c.reg .rbp + 8 := by
    rw [Cpu.pop, Cpu.set_rsp _ (by decide), htop, Cpu.rsp, Cpu.set_reg, if_pos rfl]
  have hcode : c' = Instr.exec (.ret : Instr σ) ((c.set .rsp (c.reg .rbp)).pop .rbp) := rfl
  have hret : (Instr.exec (.ret : Instr σ) ((c.set .rsp (c.reg .rbp)).pop .rbp)).toContext =
      { c.toContext with
        reg := (((c.set .rsp (c.reg .rbp)).pop .rbp).set .rsp
          (((c.set .rsp (c.reg .rbp)).pop .rbp).rsp + 8)).reg
        rip := word c.mem ((c.set .rsp (c.reg .rbp)).pop .rbp).rsp.toNat } := rfl
  rw [hcode, hret, hpop, Context.mk.injEq]
  refine ⟨⟨?_, rfl, rfl, rfl, rfl⟩, rfl⟩
  funext r
  rw [Cpu.set_reg, Cpu.pop, Cpu.set_reg, Cpu.set_reg, Cpu.set_reg, htop]
  by_cases hbp : r = .rbp
  · rw [if_neg (by rw [hbp]; decide), if_pos hbp, if_pos hbp]
    rfl
  rw [if_neg hbp, if_neg hbp]
  by_cases hsp : r = .rsp
  · rw [if_pos hsp, if_pos hsp]
  · rw [if_neg hsp, if_neg hsp, if_neg hsp, if_neg hsp]

theorem sysInt80_eq {H : Handlers} {F : Externs σ} {L : Labels} {number behind : UInt64} {c : Cpu}
    {s : σ} (h : Gate.read (stubEntry number behind c).mem 0x80 = ⟨H.irq80Handler, 8, 0, acsInt⟩) :
    sysInt80 H F L number behind (c, s) =
      let back := Instr.run (irq80Handler F) 0
        ((stubEntry number behind c).interrupt 8 H.irq80Handler, s)
      some (Instr.execAll ([.mov .rsp .rbp, .pop .rbp, .ret] : Code σ) back.1, back.2) := by
  unfold sysInt80 interruptThrough
  dsimp only
  rw [h]
  dsimp only
  rw [codeAt_irq80, Option.map_some, Option.map_some]

/-- The frames above `syscallDispatcher` that it must leave alone: what the handler saved,
and the word of the stub and the return address, up to 15 bytes further up. -/
def callFrames : ℕ := savedSize + 32

/-- **A system call**, from the function of the library to the dispatcher and back: the
dispatcher reads the number, the frame and the address of the stub, and the other registers
of the caller, and finds the memory as it was but for what was pushed under the `rsp` of the
caller; and when it keeps to its own frame, the function returns to its caller with all its
registers and its flags, and with the result in `rax`. -/
theorem system_call (H : Handlers) (F : Externs σ) (L : Labels)
    (hF : Abi (InSaved callFrames) F.syscallDispatcher) (number behind : UInt64) (c : Cpu) (s : σ)
    (hidt : Loaded H c.mem) (hroom : descrSize * 256 + 184 ≤ c.rsp.toNat) :
    let arguments := syscallArguments (stubEntry number behind c) H.irq80Handler s
    let result := F.syscallDispatcher arguments
    Registers.read arguments.1.mem (arguments.1.reg .rdi).toNat =
        { Registers.ofContext c.toContext with rax := number, rbp := c.rsp - 8, rip := behind } ∧
      c.rsp.toNat < arguments.1.rsp.toNat + 184 ∧
      (∀ x, x < arguments.1.rsp.toNat ∨ c.rsp.toNat ≤ x → arguments.1.mem x = c.mem x) ∧
      ∃ after, sysInt80 H F L number behind (c, s) = some after ∧
        after.1.toContext = { c.toContext with
          reg := fun r => if r = .rax then result.1.reg .rax
            else if r = .rsp then c.rsp + 8 else c.reg r
          rip := word c.mem c.rsp.toNat } ∧
        after.1.mem = result.1.mem ∧ after.2 = result.2 := by
  intro arguments result
  have htable : descrSize * 256 = 4096 := rfl
  have hframes : callFrames = savedSize + 32 := rfl
  rw [htable] at hroom
  let c₁ := stubEntry number behind c
  have hstub : Stub number behind c c₁ := stub_entry number behind (by omega)
  have htop : c₁.rsp.toNat + 8 = c.rsp.toNat := hstub.top
  have halign := c₁.aligned_le
  have hentered := (pushed_entered c₁ H.irq80Handler (by omega)).top
  rw [savedSize_eq] at hentered
  have hsize : savedSize = 160 := rfl
  have hrsp : arguments.1.rsp = (entered c₁ H.irq80Handler).rsp := rfl
  -- the stub does not reach the table
  have hgate : Gate.read c₁.mem 0x80 = ⟨H.irq80Handler, 8, 0, acsInt⟩ := by
    obtain ⟨m₀, hm₀⟩ := hidt
    have hloaded : Loaded H c₁.mem := by
      refine ⟨m₀, hm₀.trans fun x hx hx' => hstub.outside x ?_⟩
      rw [htable] at hx'
      omega
    apply hloaded.gate (by decide)
    simp [Handlers.vectors]
  have hsmall : Abi (InSaved savedSize) F.syscallDispatcher := by
    apply hF.mono
    intro _ _ x hx
    exact ⟨hx.1, Nat.lt_of_lt_of_le hx.2 (Nat.add_le_add_left (Nat.le_add_right _ 32) _)⟩
  obtain ⟨hread, hbefore, hcontext, hmem, _, hstate⟩ :=
    syscall_transparent F hsmall c₁ H.irq80Handler s (by omega)
  rw [sysInt80_eq hgate]
  generalize Instr.run (irq80Handler F) 0 (c₁.interrupt 8 H.irq80Handler, s) = back
    at hcontext hmem hstate
  have hreg : ∀ r, back.1.reg r = if r = .rax then result.1.reg .rax
      else if r = .rbp ∨ r = .rsp then c.rsp - 8 else c.reg r := by
    intro r
    have hback : back.1.reg = Function.update c₁.reg .rax (result.1.reg .rax) :=
      congrArg Context.reg hcontext
    have hfirst : c₁.reg r = if r = .rax then number
        else if r = .rbp ∨ r = .rsp then c.rsp - 8 else c.reg r :=
      congrFun (congrArg Context.reg hstub.context) r
    rw [hback, Function.update_apply, hfirst]
    by_cases hax : r = .rax
    · rw [if_pos hax, if_pos hax]
    · rw [if_neg hax, if_neg hax, if_neg hax]
  have hrbp : back.1.reg .rbp = c.rsp - 8 := by
    rw [hreg, if_neg (by decide), if_pos (.inl rfl)]
  -- the word of the stub is still there, and the return address over it
  have hkept : ∀ x, c₁.rsp.toNat ≤ x → x < c.rsp.toNat + 8 → back.1.mem x = c₁.mem x := by
    intro x hx hx'
    have hframe : result.1.mem x = arguments.1.mem x := by
      apply hF.mem
      constructor
      · show (entered c₁ H.irq80Handler).rsp.toNat ≤ x
        omega
      · show x < (entered c₁ H.irq80Handler).rsp.toNat + callFrames
        omega
    rw [hmem, hframe]
    exact hbefore x (.inr hx)
  have hword : word back.1.mem (c.rsp - 8).toNat = c.reg .rbp := by
    rw [← hstub.rsp, ← hstub.saved]
    exact word_congr fun x hx hx' => hkept x hx (by omega)
  have hreturn : word back.1.mem c.rsp.toNat = word c.mem c.rsp.toNat := by
    apply word_congr
    intro x hx hx'
    rw [hkept x (by omega) hx']
    exact hstub.outside x (.inr hx)
  obtain ⟨hexit, hexitMem⟩ := stub_exit (σ := σ) back.1
  have hsum : c.rsp - 8 + 8 = c.rsp := UInt64.sub_add_cancel _ _
  rw [hrbp, hsum, hword, hreturn] at hexit
  refine ⟨?_, ?_, fun x hx => ?_, _, rfl, ?_, hexitMem.trans hmem, hstate⟩
  · rw [hread, hstub.context]
    rfl
  · rw [hrsp]
    omega
  · rw [hbefore x (hx.imp_right fun h => by omega)]
    rw [hrsp] at hx
    exact hstub.outside x (by omega)
  · have hrest : back.1.toContext = { c.toContext with reg := back.1.reg, rip := behind } := by
      rw [hcontext, hstub.context]
    rw [hexit, hrest, Context.mk.injEq]
    refine ⟨?_, rfl, rfl, rfl, rfl⟩
    funext r
    dsimp only
    rw [hreg]
    by_cases hbp : r = .rbp
    · rw [if_pos hbp, hbp, if_neg (by decide), if_neg (by decide)]
    rw [if_neg hbp]
    by_cases hsp : r = .rsp
    · rw [if_pos hsp, hsp, if_neg (by decide), if_pos rfl]
    rw [if_neg hsp, if_neg hsp]
    by_cases hax : r = .rax
    · rw [if_pos hax, if_pos hax]
    · rw [if_neg hax, if_neg hax, if_neg (not_or.mpr ⟨hbp, hsp⟩)]

def handlers : Handlers :=
  ⟨0x102000, 0x102100, 0x101000, 0x102200, 0x101100, by decide⟩

/-- The program has called the stub of `sys_getpid` from `0x400080`. -/
def calling : Cpu :=
  { program with mem := putWord (loadIdt handlers program.mem) 0xF01000 0x400080 }

theorem system_call_getpid :
    ∃ after, sysInt80 handlers answers labels 0x80000201 0x40100E (calling, ()) = some after ∧
      after.1.toContext = { program.toContext with
        reg := fun r => if r = .rax then 2 else if r = .rsp then 0xF01008 else 5
        rip := 0x400080 } := by
  have hidt : Loaded handlers calling.mem :=
    ⟨program.mem, fun x _ hx => putWord_outside _ (.inl (Nat.lt_of_lt_of_le hx (by decide))) _⟩
  obtain ⟨_, _, _, after, hcall, hcontext, _⟩ := system_call handlers answers labels
    (abi_answer _ _ _) 0x80000201 0x40100E calling () hidt (by decide)
  have hresult : ∀ m, (answers.syscallDispatcher m).1.reg .rax = 2 :=
    fun m => (m.1.set_reg .rax .rax 2).trans (if_pos rfl)
  have hback : word calling.mem calling.rsp.toNat = 0x400080 := word_putWord _ _ _
  rw [hresult, hback] at hcontext
  refine ⟨after, hcall, hcontext.trans ?_⟩
  rw [Context.mk.injEq]
  refine ⟨?_, rfl, rfl, rfl, rfl⟩
  funext r
  cases r with
  | _ => rfl

end BareKernel.Kernel.Interrupts
