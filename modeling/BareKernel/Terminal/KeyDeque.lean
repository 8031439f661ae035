import BareKernel.Terminal.ScreenBounds
import BareKernel.Lib.RingBuffer
import BareKernel.Lib.Runs

/-!
# The keyboard ring is a deque

Characters are pushed at the back, backspace pops the back, and a read pops the front.
One cell stays free, so the ring holds `BUFFER_SIZE - 1` characters.
-/

namespace BareKernel

open Loops Runs

/-- What an operation does to the characters that are pending. -/
def RingOp.run (pending : List Int8) : RingOp → List Int8
  | .push ascii => pending ++ [ascii]
  | .popBack => pending.dropLast
  | .popFront => pending.tail
  | .reset => []

/-! ## The ring alone -/

/-- The ring, with indices that are in range. -/
structure KeyRing where
  buffer : ℕ → Int8
  toWrite : ℕ
  toRead : ℕ
  write_lt : toWrite < bufferSize
  read_lt : toRead < bufferSize

namespace KeyRing

variable {r : KeyRing}

theorem subMod_lt {a b m : ℕ} (ha : a < m) (hb : b < m) : subMod a b m < m := by
  unfold subMod
  split <;> omega

def step (r : KeyRing) : RingOp → KeyRing
  | .push ascii =>
      { r with
        buffer := Function.update r.buffer r.toWrite ascii
        toWrite := incMod r.toWrite bufferSize
        write_lt := Nat.mod_lt _ (by decide) }
  | .popBack =>
      { r with
        toWrite := subMod r.toWrite 1 bufferSize
        write_lt := subMod_lt r.write_lt (by decide) }
  | .popFront =>
      { r with
        toRead := incMod r.toRead bufferSize
        read_lt := Nat.mod_lt _ (by decide) }
  | .reset => { r with toWrite := 0, toRead := 0, write_lt := by decide, read_lt := by decide }

/-- How many characters are pending. -/
def count (r : KeyRing) : ℕ := subMod r.toWrite r.toRead bufferSize

def pending (r : KeyRing) : List Int8 :=
  RingBuffer.contents r.buffer bufferSize r.toRead r.count

theorem count_lt (r : KeyRing) : r.count < bufferSize := subMod_lt r.write_lt r.read_lt

@[simp] theorem length_pending (r : KeyRing) : r.pending.length = r.count :=
  RingBuffer.length_contents

/-- The next character goes behind the last one. -/
theorem toWrite_eq (r : KeyRing) : r.toWrite = (r.toRead + r.count) % bufferSize := by
  have hwrite := r.write_lt
  have hread := r.read_lt
  unfold count subMod bufferSize at *
  split <;> omega

/-- Where the next character goes, and where the reader is, tell how many there are. -/
theorem count_eq {n : ℕ} (hn : n < bufferSize) (h : r.toWrite = (r.toRead + n) % bufferSize) :
    r.count = n := by
  have hwrite := r.write_lt
  have hread := r.read_lt
  unfold count subMod bufferSize at *
  split <;> omega

theorem count_eq_zero : r.count = 0 ↔ r.toWrite = r.toRead := by
  have hwrite := r.write_lt
  have hread := r.read_lt
  unfold count subMod bufferSize at *
  split <;> omega

theorem count_push (ascii : Int8) : (r.step (.push ascii)).count = (r.count + 1) % bufferSize := by
  apply count_eq (Nat.mod_lt _ (by decide))
  have hwrite := r.toWrite_eq
  simp only [step, incMod]
  rw [hwrite, RingBuffer.next_store, Nat.add_mod_mod]

/-- **A push with room appends.** -/
theorem pending_push (ascii : Int8) (h : r.count + 1 < bufferSize) :
    (r.step (.push ascii)).pending = r.pending ++ [ascii] := by
  rw [pending, count_push, Nat.mod_eq_of_lt h]
  have hstore : RingBuffer.contents (Function.update r.buffer ((r.toRead + r.count) % bufferSize)
      ascii) bufferSize r.toRead (r.count + 1) = r.pending ++ [ascii] :=
    RingBuffer.contents_store ascii r.count_lt
  rw [← r.toWrite_eq] at hstore
  exact hstore

theorem popBack_spec (h : 0 < r.count) : (r.step .popBack).count = r.count - 1 ∧
    (r.step .popBack).pending = r.pending.dropLast := by
  have hlt := r.count_lt
  have hcount : (r.step .popBack).count = r.count - 1 := by
    apply count_eq (by omega)
    have hwrite := r.toWrite_eq
    have hread := r.read_lt
    simp only [step]
    unfold subMod bufferSize at *
    split <;> omega
  refine ⟨hcount, ?_⟩
  rw [pending, hcount, RingBuffer.contents_dropLast, Nat.sub_add_cancel h]
  rfl

theorem popFront_spec (h : 0 < r.count) : (r.step .popFront).count = r.count - 1 ∧
    r.pending = r.buffer r.toRead :: (r.step .popFront).pending := by
  have hlt := r.count_lt
  obtain ⟨n, hn⟩ : ∃ n, r.count = n + 1 := ⟨r.count - 1, by omega⟩
  have hcount : (r.step .popFront).count = n := by
    apply count_eq (by omega)
    have hwrite := r.toWrite_eq
    rw [hn, RingBuffer.next_read] at hwrite
    exact hwrite
  refine ⟨by omega, ?_⟩
  rw [pending, pending, hcount, hn, RingBuffer.contents_read r.read_lt]
  rfl

theorem reset_spec : (r.step .reset).pending = [] := by
  rw [pending, count_eq_zero.mpr rfl]
  rfl

/-- **Characters that are pushed one after the other are all there exactly if they fit.** -/
theorem pending_pushes : ∀ {cs : List Int8} {r : KeyRing},
    ((cs.map RingOp.push).foldl step r).pending = r.pending ++ cs ↔
      r.count + cs.length < bufferSize := by
  intro cs
  induction cs with
  | nil => intro r; simp [r.count_lt]
  | cons c cs ih =>
      intro r
      rw [List.map_cons, List.foldl_cons]
      constructor
      · intro h
        have hlen := congrArg List.length h
        have hlt := (((cs.map RingOp.push).foldl step (r.step (.push c)))).count_lt
        rw [length_pending, List.length_append, length_pending] at hlen
        omega
      · intro h
        rw [List.length_cons] at h
        have hroom : r.count + 1 < bufferSize := by omega
        have hpush : (r.step (.push c)).count = r.count + 1 := by
          rw [count_push, Nat.mod_eq_of_lt hroom]
        rw [ih.mpr (by omega), pending_push c hroom]
        simp

theorem run_pushes (cs : List Int8) (l : List Int8) :
    (cs.map RingOp.push).foldl RingOp.run l = l ++ cs := by
  induction cs generalizing l with
  | nil => simp
  | cons c cs ih =>
      rw [List.map_cons, List.foldl_cons, ih]
      simp [RingOp.run]

/-- As many characters as there are can be taken off the back. -/
theorem pending_pops : ∀ {n : ℕ} {r : KeyRing}, n ≤ r.count →
    ((List.replicate n RingOp.popBack).foldl step r).pending =
      (List.replicate n RingOp.popBack).foldl RingOp.run r.pending := by
  intro n
  induction n with
  | zero => exact fun _ => rfl
  | succ n ih =>
      intro r hn
      obtain ⟨hcount, hpending⟩ := popBack_spec (r := r) (by omega)
      rw [List.replicate_succ, List.foldl_cons, List.foldl_cons, ih (by omega), hpending]
      rfl

end KeyRing

/-! ## The operations of the driver on the ring -/

namespace Terminal

variable {V : VideoMode} {fuel : ℕ} {t u v : Terminal} {r : KeyRing} {ops ops' : List RingOp}

/-- The characters pending between the indices. -/
def pending (t : Terminal) : List Int8 :=
  RingBuffer.contents t.buffer bufferSize t.toRead (subMod t.toWrite t.toRead bufferSize)

/-- The terminal has this ring. -/
structure Shows (t : Terminal) (r : KeyRing) : Prop where
  buffer : t.buffer = r.buffer
  toWrite : t.toWrite = r.toWrite
  toRead : t.toRead = r.toRead

def ringOp : Critical × Bool → Option RingOp
  | (.ring op, _) => some op
  | _ => none

/-- The operations on the ring between two states, in their order. -/
def ringOps (t u : Terminal) : List RingOp :=
  ((u.critical.take (u.critical.length - t.critical.length)).filterMap ringOp).reverse

/-- From one state to another with these operations, and no others, on the ring. -/
structure Acts (t : Terminal) (ops : List RingOp) (u : Terminal) : Prop where
  ring : ∀ r, t.Shows r → u.Shows (ops.foldl KeyRing.step r)
  logged : ∃ new, u.critical = new ++ t.critical ∧ (new.filterMap ringOp).reverse = ops

theorem Shows.pending_eq (h : t.Shows r) : t.pending = r.pending := by
  rw [pending, KeyRing.pending, KeyRing.count, h.buffer, h.toWrite, h.toRead]

theorem Acts.ringOps_eq (h : Acts t ops u) : t.ringOps u = ops := by
  obtain ⟨new, hnew, hops⟩ := h.logged
  rw [ringOps, hnew, List.length_append, Nat.add_sub_cancel, List.take_left]
  exact hops

theorem Acts.refl (t : Terminal) : Acts t [] t := ⟨fun _ h => h, [], rfl, rfl⟩

theorem Acts.trans (h : Acts t ops u) (h' : Acts u ops' v) : Acts t (ops ++ ops') v := by
  obtain ⟨new, hnew, hops⟩ := h.logged
  obtain ⟨new', hnew', hops'⟩ := h'.logged
  refine ⟨fun r hr => ?_, new' ++ new, ?_, ?_⟩
  · rw [List.foldl_append]
    exact h'.ring _ (h.ring r hr)
  · rw [hnew', hnew, List.append_assoc]
  · rw [List.filterMap_append, List.reverse_append, hops, hops']

/-- What leaves the ring and its log alone. -/
theorem Acts.of_eq (hbuffer : u.buffer = t.buffer) (hwrite : u.toWrite = t.toWrite)
    (hread : u.toRead = t.toRead) (hlog : u.critical = t.critical) : Acts t [] u :=
  ⟨fun _ h => ⟨hbuffer.trans h.buffer, hwrite.trans h.toWrite, hread.trans h.toRead⟩, [], hlog,
    rfl⟩

theorem acts_putChar (ascii : Int8) : Acts t [] (t.putChar V fuel ascii).state := by
  rw [putChar, Outcome.state_map]
  exact .of_eq rfl rfl rfl rfl

theorem acts_semPost (t : Terminal) : Acts t [] t.semPost :=
  ⟨fun _ h => ⟨h.buffer, h.toWrite, h.toRead⟩, [(.semPost, t.console.interrupts)], rfl, rfl⟩

theorem acts_kill (t : Terminal) (pid : ℤ) : Acts t [] (t.log (.kill pid)) :=
  ⟨fun _ h => ⟨h.buffer, h.toWrite, h.toRead⟩, [(.kill pid, t.console.interrupts)], rfl, rfl⟩

theorem acts_setModifiers (scancode : UInt8) : Acts t [] (t.setModifiers scancode) := by
  unfold setModifiers
  split
  · exact .of_eq rfl rfl rfl rfl
  · split
    · exact .of_eq rfl rfl rfl rfl
    · split
      · exact .of_eq rfl rfl rfl rfl
      · exact .refl t

theorem acts_callKeyFn (scancode : UInt8) : Acts t [] (t.callKeyFn scancode) := by
  unfold callKeyFn
  split
  · exact .of_eq rfl rfl rfl rfl
  · exact .refl t

theorem callKeyFn_critical (scancode : UInt8) : (t.callKeyFn scancode).critical = t.critical := by
  unfold callKeyFn
  split <;> rfl

theorem acts_pushChar (V : VideoMode) (fuel : ℕ) (t : Terminal) (ascii : Int8)
    (showOutput : Bool) :
    Acts t [.push ascii] (t.pushChar V fuel ascii showOutput).state := by
  have hpush : Acts t [.push ascii] { t.log (.ring (.push ascii)) with
      buffer := Function.update t.buffer t.toWrite ascii
      toWrite := incMod t.toWrite bufferSize } := by
    refine ⟨fun r h => ⟨?_, ?_, h.toRead⟩, [(.ring (.push ascii), t.console.interrupts)], rfl, rfl⟩
    · simp only [List.foldl_cons, List.foldl_nil, KeyRing.step, h.buffer, h.toWrite]
    · simp only [List.foldl_cons, List.foldl_nil, KeyRing.step, h.toWrite]
  unfold pushChar
  dsimp only
  split
  · exact hpush.trans (acts_putChar ascii)
  · exact hpush

theorem acts_dropLast (t : Terminal) : Acts t [.popBack] (t.dropLast V) := by
  refine ⟨fun r h => ⟨h.buffer, ?_, h.toRead⟩, [(.ring .popBack, t.console.interrupts)], rfl, rfl⟩
  simp only [dropLast, List.foldl_cons, List.foldl_nil, KeyRing.step, h.toWrite]

theorem acts_takeChar (t : Terminal) : Acts t [.popFront] t.takeChar.2 := by
  refine ⟨fun r h => ⟨h.buffer, h.toWrite, ?_⟩, [(.ring .popFront, t.console.interrupts)], rfl, rfl⟩
  simp only [takeChar, List.foldl_cons, List.foldl_nil, KeyRing.step, h.toRead]

/-- **What `BUFFER_IS_FULL` says**: with the remainder of C, a full ring is seen only
where the reader is at the first cell. -/
theorem bufferIsFull_iff (h : t.Shows r) :
    t.bufferIsFull = true ↔ r.count + 1 = bufferSize ∧ r.toRead = 0 := by
  have hwrite := r.write_lt
  have hread := r.read_lt
  have hmod : Int.tmod ((r.toWrite : ℤ) - r.toRead) (bufferSize : ℕ) =
    (r.toWrite : ℤ) - r.toRead := by
    rcases le_total r.toRead r.toWrite with hle | hle
    · exact Int.tmod_eq_of_lt (by omega) (by omega)
    · have hneg : (r.toWrite : ℤ) - r.toRead = -((r.toRead : ℤ) - r.toWrite) := by omega
      rw [hneg, Int.neg_tmod, Int.tmod_eq_of_lt (by omega) (by omega)]
  rw [bufferIsFull, decide_eq_true_eq, h.toWrite, h.toRead, hmod]
  unfold KeyRing.count subMod bufferSize at *
  split <;> omega

/-! ## A tabulator -/

/-- A blank goes into the ring. -/
def pushBlank (V : VideoMode) (showOutput : Bool) (t : Terminal) : Terminal :=
  { t.log (.ring (.push blankChar)) with
    buffer := Function.update t.buffer t.toWrite blankChar
    toWrite := incMod t.toWrite bufferSize
    console := if showOutput then t.console.putGlyph V blankChar else t.console }

theorem pushChar_blank (showOutput : Bool) :
    t.pushChar V fuel blankChar showOutput = .done (pushBlank V showOutput t) := by
  cases showOutput <;> rfl

/-- The console after some blanks. -/
def blanks (V : VideoMode) (showOutput : Bool) (k : ℕ) (s : Console) : Console :=
  if showOutput then (fun s => s.putGlyph V blankChar)^[k] s else s

theorem iterate_pushBlank (showOutput : Bool) (k : ℕ) :
    Acts t (List.replicate k (.push blankChar)) ((pushBlank V showOutput)^[k] t) ∧
      ((pushBlank V showOutput)^[k] t).console = blanks V showOutput k t.console ∧
        ((pushBlank V showOutput)^[k] t).toRead = t.toRead := by
  induction k with
  | zero =>
      refine ⟨.refl t, ?_, rfl⟩
      unfold blanks
      split <;> rfl
  | succ k ih =>
      obtain ⟨hacts, hconsole, hread⟩ := ih
      rw [Function.iterate_succ_apply']
      have hone : Acts ((pushBlank V showOutput)^[k] t) [.push blankChar]
          (pushBlank V showOutput ((pushBlank V showOutput)^[k] t)) := by
        have hpush := acts_pushChar V 0 ((pushBlank V showOutput)^[k] t) blankChar showOutput
        rw [pushChar_blank] at hpush
        exact hpush
      refine ⟨?_, ?_, hread⟩
      · rw [List.replicate_succ']
        exact hacts.trans hone
      · simp only [pushBlank, hconsole, blanks]
        split
        · rw [Function.iterate_succ_apply']
        · rfl

/-- The loop goes on: the ring is not reported full, and the column is between stops. -/
def goesOn (t : Terminal) : Bool := !t.bufferIsFull && t.console.betweenStops

theorem tab_loop (showOutput : Bool) : t.addCharToBuffer V fuel tabulatorChar showOutput =
    whileDo goesOn (fun t => .done (pushBlank V showOutput t)) fuel (pushBlank V showOutput t) := by
  unfold addCharToBuffer
  rw [if_neg (by simp)]
  have hbody : (fun t : Terminal => t.pushChar V fuel blankChar showOutput) =
      fun t => .done (pushBlank V showOutput t) := by
    funext t
    exact pushChar_blank showOutput
  rw [doWhile, hbody, pushChar_blank, Outcome.andThen_done]
  rfl

/-- **The expansion of a tabulator** ends after the first blank at which the loop stops. -/
theorem tab_done {showOutput : Bool} :
    t.addCharToBuffer V fuel tabulatorChar showOutput = .done u ↔
      ∃ m < fuel, u = (pushBlank V showOutput)^[m + 1] t ∧
        (∀ j < m, goesOn ((pushBlank V showOutput)^[j + 1] t)) ∧
          goesOn ((pushBlank V showOutput)^[m + 1] t) = false := by
  rw [tab_loop]
  exact whileDo_function (pushBlank V showOutput)

theorem tab_ends {showOutput : Bool} {k : ℕ}
    (h : goesOn ((pushBlank V showOutput)^[k + 1] t) = false) :
    ∃ u, t.addCharToBuffer V (k + 1) tabulatorChar showOutput = .done u := by
  rw [tab_loop]
  exact whileDo_function_ends (pushBlank V showOutput) h

/-! ## What an event does -/

/-- A key, the system call that empties the input, or a read. -/
inductive DriverEvent : Type where
  | key (fg : Option Foreground) (scancode : UInt8)
  | clearBuffer
  | read

/-- A read happens when its loop has ended. -/
def DriverStep (V : VideoMode) (t : Terminal) (e : DriverEvent) (u : Terminal) : Prop :=
  match e with
  | .key fg scancode => ∃ fuel, t.keyboardHandler V fuel fg scancode = .done u
  | .clearBuffer => u = (t.clearBuffer V).2
  | .read => t.mustWait = false ∧ u = t.takeChar.2

def pressesCtrl (t : Terminal) (key scancode : UInt8) : Bool :=
  t.controlKeyPressed && isPressed scancode && makeCode scancode == key

/-- The key reaches a reader. -/
def reachesReader (t : Terminal) (scancode : UInt8) : Bool :=
  !t.pressesCtrl cKey scancode && !t.pressesCtrl dKey scancode && isPressed scancode &&
    isKeycode scancode && t.keyboardOptions &&& modifyBuffer != 0

/-- The character that a key types: a second newline in a row is dropped. -/
def typedChar (t : Terminal) (scancode : UInt8) : Option Int8 :=
  if t.reachesReader scancode && isPrintable t.shiftKeyPressed scancode then
    if t.keyed scancode = returnKey.toInt8 then
      if t.toWrite ≠ t.toRead ∧ t.lastChar = newLineChar then none else some newLineChar
    else if t.keyed scancode = tabulatorKey.toInt8 then some tabulatorChar
    else some (t.keyed scancode)
  else none

/-- The key takes the last character off. -/
def erases (t : Terminal) (scancode : UInt8) : Bool :=
  t.reachesReader scancode && !isPrintable t.shiftKeyPressed scancode &&
    t.keyed scancode == backspaceKey.toInt8 && t.toWrite != t.toRead

/-- **What an event does to the deque.** A tabulator is a number of blanks. -/
def driverOps (t : Terminal) (n : ℕ) : DriverEvent → List RingOp
  | .key fg scancode =>
      if t.bufferIsFull then [.reset]
      else
        let t := t.setModifiers scancode
        if t.pressesCtrl cKey scancode then
          if fg.any (fun p => !p.running) then List.replicate t.pending.length .popBack else []
        else if t.pressesCtrl dKey scancode then
          if t.pending = [] then [.push endOfFile] else [.push newLineChar, .push endOfFile]
        else
          match t.typedChar scancode with
          | some ascii =>
              if ascii = tabulatorChar then List.replicate n (.push blankChar) else [.push ascii]
          | none => if t.erases scancode then [.popBack] else []
  | .clearBuffer => if t.pending = [] then [] else [.popBack]
  | .read => [.popFront]

theorem pressesCtrl_iff {key scancode : UInt8} : t.pressesCtrl key scancode = true ↔
    t.controlKeyPressed = true ∧ isPressed scancode = true ∧ makeCode scancode = key := by
  simp [pressesCtrl, and_assoc]

/-- A key that reaches a reader types a character, or takes one off, or does nothing. -/
theorem recordKey_cases {scancode : UInt8} (hreader : u.reachesReader scancode = true) :
    (∃ ascii, u.typedChar scancode = some ascii ∧
      u.recordKey V fuel scancode =
        (u.addCharToBuffer V fuel ascii (u.keyboardOptions &&& showBufferWhileTyping != 0)).andThen
          fun v => .done (v.semPost.callKeyFn scancode)) ∨
    (u.typedChar scancode = none ∧ ∃ v, u.recordKey V fuel scancode = .done v ∧
      Acts u (if u.erases scancode then [.popBack] else []) v ∧
        v.critical = (if u.erases scancode then [(.ring .popBack, u.console.interrupts)] else []) ++
          u.critical) := by
  unfold recordKey typedChar erases
  simp only [hreader, Bool.true_and]
  by_cases hprint : isPrintable u.shiftKeyPressed scancode = true
  · rw [if_pos hprint, if_pos hprint]
    by_cases hreturn : u.keyed scancode = returnKey.toInt8
    · rw [if_pos hreturn]
      by_cases hlast : u.toWrite ≠ u.toRead ∧ u.lastChar = newLineChar
      · right
        rw [if_pos hlast, if_pos ⟨hreturn, hlast⟩, hprint]
        exact ⟨rfl, u, rfl, .refl u, rfl⟩
      · left
        rw [if_neg hlast, if_neg fun h => hlast h.2, if_pos hreturn]
        exact ⟨_, rfl, rfl⟩
    · left
      have hboth : ¬(u.keyed scancode = returnKey.toInt8 ∧ u.toWrite ≠ u.toRead ∧
          u.lastChar = newLineChar) := fun h => hreturn h.1
      simp only [if_neg hreturn, if_neg hboth]
      by_cases htab : u.keyed scancode = tabulatorKey.toInt8
      · exact ⟨_, if_pos htab, by rw [if_pos htab]⟩
      · exact ⟨_, if_neg htab, by rw [if_neg htab]⟩
  · right
    rw [if_neg hprint, if_neg hprint]
    rw [Bool.not_eq_true] at hprint
    refine ⟨rfl, ?_⟩
    by_cases herase : u.keyed scancode = backspaceKey.toInt8 ∧ u.toWrite ≠ u.toRead
    · have herases : (!isPrintable u.shiftKeyPressed scancode && u.keyed scancode ==
          backspaceKey.toInt8 && u.toWrite != u.toRead) = true := by
        simp [hprint, herase.1, herase.2]
      rw [if_pos herase, if_pos herases, if_pos herases]
      exact ⟨_, rfl, (acts_dropLast u).trans (acts_callKeyFn scancode), callKeyFn_critical scancode⟩
    · have herases : ¬(!isPrintable u.shiftKeyPressed scancode && u.keyed scancode ==
          backspaceKey.toInt8 && u.toWrite != u.toRead) = true := by
        simpa [hprint] using herase
      rw [if_neg herase, if_neg herases, if_neg herases]
      exact ⟨_, rfl, acts_callKeyFn scancode, callKeyFn_critical scancode⟩

/-- **The branches of the handler**, when the ring is not reported full. -/
theorem handler_cases (V : VideoMode) (fuel : ℕ) (fg : Option Foreground) (scancode : UInt8)
    (hfull : t.bufferIsFull = false)
    (hw : t.setModifiers scancode = u) :
    (u.pressesCtrl cKey scancode = true ∧
      t.keyboardHandler V fuel fg scancode = u.handleCtrlC V fuel fg) ∨
    (u.pressesCtrl cKey scancode = false ∧ u.pressesCtrl dKey scancode = true ∧
      t.keyboardHandler V fuel fg scancode = u.handleCtrlD V fuel) ∨
    (u.pressesCtrl cKey scancode = false ∧ u.pressesCtrl dKey scancode = false ∧
      ((∃ ascii, u.typedChar scancode = some ascii ∧
        t.keyboardHandler V fuel fg scancode =
          (u.addCharToBuffer V fuel ascii
            (u.keyboardOptions &&& showBufferWhileTyping != 0)).andThen
            fun v => .done (v.semPost.callKeyFn scancode)) ∨
      (u.typedChar scancode = none ∧ ∃ v, t.keyboardHandler V fuel fg scancode = .done v ∧
        Acts u (if u.erases scancode then [.popBack] else []) v ∧
          v.critical =
            (if u.erases scancode then [(.ring .popBack, u.console.interrupts)] else []) ++
            u.critical))) := by
  unfold keyboardHandler
  rw [if_neg (by simp [hfull])]
  simp only [hw]
  by_cases hc : u.pressesCtrl cKey scancode = true
  · exact .inl ⟨hc, if_pos (pressesCtrl_iff.mp hc)⟩
  rw [if_neg fun h => hc (pressesCtrl_iff.mpr h)]
  rw [Bool.not_eq_true] at hc
  by_cases hd : u.pressesCtrl dKey scancode = true
  · exact .inr (.inl ⟨hc, hd, if_pos (pressesCtrl_iff.mp hd)⟩)
  rw [if_neg fun h => hd (pressesCtrl_iff.mpr h)]
  rw [Bool.not_eq_true] at hd
  refine .inr (.inr ⟨hc, hd, ?_⟩)
  have hreaches : u.reachesReader scancode = (isPressed scancode && isKeycode scancode &&
      u.keyboardOptions &&& modifyBuffer != 0) := by
    simp [reachesReader, hc, hd, Bool.and_assoc]
  by_cases hkey : isPressed scancode = true ∧ isKeycode scancode = true
  · rw [if_neg (not_not.mpr hkey)]
    rw [hkey.1, hkey.2] at hreaches
    by_cases hopt : u.keyboardOptions &&& modifyBuffer ≠ 0
    · rw [if_pos hopt]
      have hreader : u.reachesReader scancode = true := by simpa [hreaches] using hopt
      exact recordKey_cases hreader
    · rw [if_neg hopt]
      have hreader : u.reachesReader scancode = false := by simpa [hreaches] using hopt
      right
      refine ⟨by simp [typedChar, hreader], _, rfl, ?_⟩
      rw [if_neg (by simp [erases, hreader]), if_neg (by simp [erases, hreader])]
      exact ⟨acts_callKeyFn scancode, callKeyFn_critical scancode⟩
  · rw [if_pos hkey]
    have hreader : u.reachesReader scancode = false := by
      rw [hreaches]
      rw [not_and_or, Bool.not_eq_true, Bool.not_eq_true] at hkey
      rcases hkey with hno | hno <;> simp [hno]
    right
    refine ⟨by simp [typedChar, hreader], _, rfl, ?_⟩
    rw [if_neg (by simp [erases, hreader]), if_neg (by simp [erases, hreader])]
    exact ⟨.refl u, rfl⟩

/-! ## Typed characters and the two control keys -/

theorem putChar_ends {ascii : Int8} (t : Terminal) (hcr : ascii ≠ carriageReturnChar)
    (htab : ascii ≠ tabulatorChar) : ∃ u, t.putChar V fuel ascii = .done u := by
  unfold putChar Console.putChar
  rw [if_neg hcr, if_neg htab]
  split
  · exact ⟨_, rfl⟩
  · exact ⟨_, rfl⟩

theorem addChar_plain {ascii : Int8} (V : VideoMode) (fuel : ℕ) (t : Terminal) (showOutput : Bool)
    (htab : ascii ≠ tabulatorChar) (hcr : ascii ≠ carriageReturnChar) :
    ∃ u, t.addCharToBuffer V fuel ascii showOutput = .done u ∧ Acts t [.push ascii] u := by
  have hends : ∃ u, t.pushChar V fuel ascii showOutput = .done u := by
    unfold pushChar
    dsimp only
    split
    · exact putChar_ends _ hcr htab
    · exact ⟨_, rfl⟩
  obtain ⟨u, hu⟩ := hends
  have hacts := acts_pushChar V fuel t ascii showOutput
  rw [hu] at hacts
  rw [addCharToBuffer, if_pos htab]
  exact ⟨u, hu, hacts⟩

theorem keyed_ne_return (t : Terminal) (scancode : UInt8) :
    t.keyed scancode ≠ carriageReturnChar := by
  have hrows : ((0, 0) :: scancodeMap).all (fun row => decide
      ((row.1.toInt8 ≠ carriageReturnChar ∧ toUpper row.1.toInt8 ≠ carriageReturnChar) ∧
        row.2.toInt8 ≠ carriageReturnChar ∧ toUpper row.2.toInt8 ≠ carriageReturnChar)) = true := by
    decide
  have hrow : scancodeMap.getD scancode.toNat (0, 0) ∈ (0, 0) :: scancodeMap := by
    rw [List.getD_eq_getElem?_getD]
    cases hget : scancodeMap[scancode.toNat]? with
    | none => exact List.mem_cons_self
    | some row => exact List.mem_cons_of_mem _ (List.mem_of_getElem? hget)
  obtain ⟨hlow, hhigh⟩ := of_decide_eq_true (List.all_eq_true.mp hrows _ hrow)
  unfold keyed keyChar
  dsimp only
  split
  · split
    · exact hhigh.2
    · exact hlow.2
  · split
    · exact hhigh.1
    · exact hlow.1

theorem typedChar_ne_return {scancode : UInt8} {ascii : Int8}
    (h : t.typedChar scancode = some ascii) : ascii ≠ carriageReturnChar := by
  unfold typedChar at h
  split at h
  · split at h
    · split at h
      · cases h
      · cases h
        decide
    · split at h
      · cases h
        decide
      · cases h
        exact t.keyed_ne_return scancode
  · cases h

/-- Ctrl+D ends the line that is pending, and then the input. -/
theorem handleCtrlD_spec (V : VideoMode) (fuel : ℕ) (t : Terminal) :
    ∃ u, t.handleCtrlD V fuel = .done u ∧
      Acts t (if t.toWrite = t.toRead then [.push endOfFile]
        else [.push newLineChar, .push endOfFile]) u := by
  unfold handleCtrlD
  split
  · obtain ⟨u, hu, hacts⟩ := addChar_plain V fuel t false
      (by decide : endOfFile ≠ tabulatorChar) (by decide)
    rw [hu]
    exact ⟨_, rfl, hacts.trans (acts_semPost u)⟩
  · obtain ⟨u, hu, hacts⟩ := addChar_plain V fuel t true
      (by decide : newLineChar ≠ tabulatorChar) (by decide)
    obtain ⟨v, hv, hacts'⟩ := addChar_plain V fuel u false
      (by decide : endOfFile ≠ tabulatorChar) (by decide)
    rw [hu, Outcome.andThen_done, hv]
    exact ⟨_, rfl, ((hacts.trans hacts').trans (acts_semPost v)).trans (acts_semPost _)⟩

/-- Printing to the screen leaves the ring alone. -/
theorem print_spec : ∀ (string : List Int8) (t : Terminal),
    (∀ ascii ∈ string, ascii ≠ carriageReturnChar ∧ ascii ≠ tabulatorChar) →
      ∃ u, forEach (printChar V fuel false) string t = .done u ∧ Acts t [] u := by
  intro string
  induction string with
  | nil => exact fun t _ => ⟨t, rfl, .refl t⟩
  | cons ascii string ih =>
      intro t hall
      obtain ⟨hcr, htab⟩ := hall ascii List.mem_cons_self
      obtain ⟨u, hu⟩ := putChar_ends t hcr htab
      obtain ⟨v, hv, hacts⟩ := ih u fun c hc => hall c (List.mem_cons_of_mem _ hc)
      have hput : Acts t [] (t.putChar V fuel ascii).state := acts_putChar ascii
      rw [hu] at hput
      have hfirst : printChar V fuel false ascii t = .done u := hu
      rw [forEach, hfirst]
      exact ⟨v, hv, hput.trans hacts⟩

theorem clearBuffer_spec (h : t.Shows r) : (t.clearBuffer V).1 = r.count ∧
    Acts t (if r.count = 0 then [] else [.popBack]) (t.clearBuffer V).2 := by
  have hcount : subMod t.toWrite t.toRead bufferSize = r.count := by
    rw [h.toWrite, h.toRead]
    rfl
  unfold clearBuffer
  simp only [hcount]
  split
  · rename_i hzero
    exact ⟨hzero.symm, .refl t⟩
  · exact ⟨rfl, acts_dropLast t⟩

/-- **Emptying the input** takes off every character that is pending, and ends. -/
theorem clearInput_spec : ∀ {n : ℕ} {t : Terminal} {r : KeyRing}, t.Shows r → r.count = n →
    (∀ {p : ℕ × Terminal}, whileDo (fun p : ℕ × Terminal => decide (p.1 ≠ 0))
      (fun p => .done (p.2.clearBuffer V)) fuel (t.clearBuffer V) = .done p →
        Acts t (List.replicate n .popBack) p.2) ∧
    (n < fuel → ∃ p, whileDo (fun p : ℕ × Terminal => decide (p.1 ≠ 0))
      (fun p => .done (p.2.clearBuffer V)) fuel (t.clearBuffer V) = .done p) := by
  induction fuel with
  | zero =>
      intro n t r h hn
      exact ⟨fun hdone => (nomatch hdone), fun hlt => absurd hlt (by omega)⟩
  | succ fuel ih =>
      intro n t r h hn
      obtain ⟨hfirst, hacts⟩ := clearBuffer_spec (V := V) h
      rw [hn] at hfirst hacts
      cases n with
      | zero =>
          rw [whileDo, if_neg (by simp [hfirst])]
          refine ⟨fun hdone => ?_, fun _ => ⟨_, rfl⟩⟩
          cases hdone
          exact hacts
      | succ n =>
          rw [whileDo, if_pos (by simp [hfirst]), Outcome.andThen_done]
          rw [if_neg (by omega)] at hacts
          have hrest : (r.step .popBack).count = n := by
            rw [(KeyRing.popBack_spec (by omega)).1]
            omega
          obtain ⟨hdone, hends⟩ := ih (hacts.ring r h) hrest
          exact ⟨fun h => hacts.trans (hdone h), fun hlt => hends (by omega)⟩

/-- Ctrl+C empties the input, unless the process that it ends is the one that runs. -/
theorem handleCtrlC_spec (V : VideoMode) (fuel : ℕ) (fg : Option Foreground) (h : t.Shows r) :
    (∀ {u : Terminal}, t.handleCtrlC V fuel fg = .done u → Acts t
      (if fg.any (fun p => !p.running) then List.replicate r.count .popBack else []) u) ∧
    (r.count < fuel → ∃ u, t.handleCtrlC V fuel fg = .done u) := by
  cases fg with
  | none =>
      refine ⟨fun hdone => ?_, fun _ => ⟨t, rfl⟩⟩
      cases hdone
      exact .refl t
  | some p =>
      have hprint : ∃ v, t.printToFd V fuel 1 [94, 67, newLineChar] = .done v ∧ Acts t [] v := by
        unfold printToFd
        rw [show decide ((1 : ℤ) ≠ t.console.fileDescriptor ∧ (1 : ℤ) = 0) = false by simp]
        have hplain : ∀ ascii ∈ [94, 67, newLineChar],
            ascii ≠ carriageReturnChar ∧ ascii ≠ tabulatorChar := by
          simp only [List.forall_mem_cons]
          exact ⟨by decide, by decide, by decide, List.forall_mem_nil _⟩
        obtain ⟨v, hv, hacts⟩ := print_spec (V := V) [94, 67, newLineChar]
          { t with console := t.console.selectFd 1 } hplain
        have hcolour : Acts t [] { t with console := t.console.selectFd 1 } :=
          .of_eq rfl rfl rfl rfl
        exact ⟨v, hv, hcolour.trans hacts⟩
      obtain ⟨v, hv, hacts⟩ := hprint
      have hkill := hacts.trans (acts_kill v p.pid)
      obtain ⟨hdone, hends⟩ := clearInput_spec (V := V) (hkill.ring r h) rfl
      unfold handleCtrlC
      dsimp only
      rw [hv, Outcome.andThen_done]
      cases hrunning : p.running with
      | true =>
          refine ⟨fun hu => ?_, fun _ => ⟨_, rfl⟩⟩
          cases hu
          simpa [hrunning] using hkill
      | false =>
          simp only [Bool.false_eq_true, if_false, Option.any_some, hrunning, Bool.not_false,
            if_true]
          refine ⟨fun hu => ?_, fun hlt => ?_⟩
          · unfold clearInput doWhile at hu
            rw [Outcome.andThen_done] at hu
            obtain ⟨p, hp, rfl⟩ := Outcome.map_eq_done.mp hu
            exact hkill.trans (hdone hp)
          · obtain ⟨p, hp⟩ := hends hlt
            unfold clearInput doWhile
            rw [Outcome.andThen_done, hp]
            exact ⟨_, rfl⟩

/-! ## The refinement -/

/-- **The event is that of a deque**: the full ring is seen, the event does to the deque
what the key, the call or the read stands for, and nothing is lost. -/
structure Faithful (V : VideoMode) (t : Terminal) (e : DriverEvent) (u : Terminal) : Prop where
  full : t.bufferIsFull = true ↔ t.pending.length = bufferSize - 1
  ops : t.ringOps u = t.driverOps (t.ringOps u).length e
  acts : Acts t (t.ringOps u) u
  deque : u.pending = (t.ringOps u).foldl RingOp.run t.pending
  cleared : e = .clearBuffer → (t.clearBuffer V).1 = t.pending.length
  delivered : e = .read → t.pending = t.takeChar.1 :: u.pending

/-- The event ends, and however it ends it was that of a deque. -/
structure Keeps (V : VideoMode) (t : Terminal) (e : DriverEvent) : Prop where
  ends : ∃ u, DriverStep V t e u
  faithful : ∀ u, DriverStep V t e u → Faithful V t e u

/-- **When the ring has room**: a full ring is one whose reader is at the first cell, and
what is pushed without a look at the ring fits. -/
def HasRoom (V : VideoMode) (t : Terminal) (e : DriverEvent) : Prop :=
  (t.pending.length = bufferSize - 1 → t.toRead = 0) ∧
    match e with
    | .key _ scancode => t.pending.length ≠ bufferSize - 1 →
        let u := t.setModifiers scancode
        (u.pressesCtrl cKey scancode = false → u.pressesCtrl dKey scancode = true →
          t.pending.length ≠ bufferSize - 2) ∧
        (u.typedChar scancode = some tabulatorChar → t.toRead ≠ 0 →
          ∃ k, 1 ≤ k ∧ t.pending.length + k < bufferSize ∧
            (blanks V (u.keyboardOptions &&& showBufferWhileTyping != 0) k
              t.console).betweenStops = false)
    | _ => True

/-- A read is one whose loop has ended. -/
def Admitted (t : Terminal) (e : DriverEvent) : Prop := e = .read → t.mustWait = false

variable {e : DriverEvent}

/-- An event with these operations is faithful exactly if the deque follows them. -/
theorem faithful_iff (h : t.Shows r) (hright : r.count + 1 = bufferSize → r.toRead = 0)
    (hacts : Acts t ops u) (hops : ops = t.driverOps ops.length e)
    (hcleared : e = .clearBuffer → (t.clearBuffer V).1 = r.count)
    (hdelivered : e = .read → r.pending = t.takeChar.1 :: (r.step .popFront).pending) :
    Faithful V t e u ↔ (ops.foldl KeyRing.step r).pending = ops.foldl RingOp.run r.pending := by
  have hpending := (hacts.ring r h).pending_eq
  constructor
  · intro hf
    have hdeque := hf.deque
    rwa [hacts.ringOps_eq, hpending, h.pending_eq] at hdeque
  · intro hdeque
    refine ⟨?_, ?_, ?_, ?_, ?_, ?_⟩
    · rw [bufferIsFull_iff h, h.pending_eq, KeyRing.length_pending]
      constructor
      · rintro ⟨hcount, -⟩
        omega
      · intro hcount
        have hfull : r.count + 1 = bufferSize := by
          rw [hcount]
          rfl
        exact ⟨hfull, hright hfull⟩
    · rw [hacts.ringOps_eq]
      exact hops
    · rw [hacts.ringOps_eq]
      exact hacts
    · rw [hacts.ringOps_eq, hpending, h.pending_eq]
      exact hdeque
    · rw [h.pending_eq, KeyRing.length_pending]
      exact hcleared
    · intro he
      have hpop : ops = [.popFront] := by
        rw [hops, he]
        rfl
      rw [h.pending_eq, hpending, hpop]
      exact hdelivered he

/-- The modifiers are no part of the ring. -/
theorem setModifiers_same (scancode : UInt8) :
    (t.setModifiers scancode).toRead = t.toRead ∧
      (t.setModifiers scancode).console = t.console := by
  unfold setModifiers
  split
  · exact ⟨rfl, rfl⟩
  · split
    · exact ⟨rfl, rfl⟩
    · split <;> exact ⟨rfl, rfl⟩

/-- With a Ctrl key nothing is typed. -/
theorem typedChar_pressed {scancode key : UInt8} (hkey : key = cKey ∨ key = dKey)
    (h : t.pressesCtrl key scancode = true) : t.typedChar scancode = none := by
  have hreader : t.reachesReader scancode = false := by
    unfold reachesReader
    rcases hkey with rfl | rfl <;> simp [h]
  simp [typedChar, hreader]

/-- A ring that is not full, and not reported full. -/
structure Ready (t : Terminal) (r : KeyRing) : Prop where
  shows : t.Shows r
  room : r.count + 1 < bufferSize
  notFull : t.bufferIsFull = false

section Key

variable {fg : Option Foreground} {scancode : UInt8}

theorem Ready.modifiers (h : Ready t r) (scancode : UInt8) : (t.setModifiers scancode).Shows r :=
  (acts_setModifiers scancode).ring r h.shows

theorem Ready.hasRoom (h : Ready t r) : HasRoom V t (.key fg scancode) ↔
    ((t.setModifiers scancode).pressesCtrl cKey scancode = false →
      (t.setModifiers scancode).pressesCtrl dKey scancode = true → r.count + 2 ≠ bufferSize) ∧
    ((t.setModifiers scancode).typedChar scancode = some tabulatorChar → t.toRead ≠ 0 →
      ∃ k, 1 ≤ k ∧ r.count + k < bufferSize ∧ (blanks V
        ((t.setModifiers scancode).keyboardOptions &&& showBufferWhileTyping != 0) k
          t.console).betweenStops = false) := by
  have hlength : t.pending.length = r.count := by
    rw [h.shows.pending_eq, KeyRing.length_pending]
  have hroom := h.room
  have htwo : r.count ≠ bufferSize - 2 ↔ r.count + 2 ≠ bufferSize := by
    unfold bufferSize
    omega
  simp only [HasRoom, hlength, htwo]
  constructor
  · rintro ⟨-, hkey⟩
    exact hkey (by omega)
  · intro hkey
    exact ⟨fun hfull => absurd hfull (by omega), fun _ => hkey⟩

/-- What the event does to the ring that is ready for it. -/
theorem Ready.driverOps_key (h : Ready t r) (n : ℕ) :
    t.driverOps n (.key fg scancode) =
      if (t.setModifiers scancode).pressesCtrl cKey scancode then
        if fg.any (fun p => !p.running) then List.replicate r.count .popBack else []
      else if (t.setModifiers scancode).pressesCtrl dKey scancode then
        if r.count = 0 then [.push endOfFile] else [.push newLineChar, .push endOfFile]
      else
        match (t.setModifiers scancode).typedChar scancode with
        | some ascii =>
            if ascii = tabulatorChar then List.replicate n (.push blankChar) else [.push ascii]
        | none => if (t.setModifiers scancode).erases scancode then [.popBack] else [] := by
  have hpending := (h.modifiers scancode).pending_eq
  have hempty : (t.setModifiers scancode).pending = [] ↔ r.count = 0 := by
    rw [hpending, ← List.length_eq_zero_iff, KeyRing.length_pending]
  simp only [driverOps, h.notFull, Bool.false_eq_true, if_false, hempty]
  rw [hpending, KeyRing.length_pending]

/-- Events whose operations are pushes are faithful exactly if these fit. -/
theorem Ready.pushes (h : Ready t r) {cs : List Int8}
    (hacts : Acts t (cs.map .push) u)
    (hops : cs.map .push = t.driverOps cs.length (.key fg scancode)) :
    Faithful V t (.key fg scancode) u ↔ r.count + cs.length < bufferSize := by
  have hroom := h.room
  rw [faithful_iff h.shows (fun hfull => absurd hfull (by omega)) hacts
    (by rw [List.length_map]; exact hops) (fun he => by cases he) (fun he => by cases he),
    KeyRing.run_pushes, KeyRing.pending_pushes]

theorem Ready.keeps_ctrlC (h : Ready t r)
    (hc : (t.setModifiers scancode).pressesCtrl cKey scancode = true) :
    Keeps V t (.key fg scancode) ∧ HasRoom V t (.key fg scancode) := by
  have hroom := h.room
  have heq : ∀ fuel, t.keyboardHandler V fuel fg scancode =
      (t.setModifiers scancode).handleCtrlC V fuel fg := by
    intro fuel
    rcases handler_cases V fuel fg scancode h.notFull rfl with
      ⟨-, heq⟩ | ⟨hno, -⟩ | ⟨hno, -⟩
    · exact heq
    · exact absurd (hc.symm.trans hno) (by simp)
    · exact absurd (hc.symm.trans hno) (by simp)
  refine ⟨⟨?_, ?_⟩, h.hasRoom.mpr ⟨fun hno => absurd (hc.symm.trans hno) (by simp), fun htab => ?_⟩⟩
  · obtain ⟨u, hu⟩ := (handleCtrlC_spec V (r.count + 1) fg (h.modifiers scancode)).2 (by omega)
    exact ⟨u, _, (heq _).trans hu⟩
  · rintro u ⟨fuel, hdone⟩
    rw [heq] at hdone
    have hacts := (acts_setModifiers scancode).trans
      ((handleCtrlC_spec V fuel fg (h.modifiers scancode)).1 hdone)
    rw [List.nil_append] at hacts
    refine (faithful_iff h.shows (fun hfull => absurd hfull (by omega)) hacts ?_
      (fun he => by cases he) (fun he => by cases he)).mpr ?_
    · rw [h.driverOps_key, if_pos hc]
    · split
      · exact KeyRing.pending_pops (le_refl _)
      · rfl
  · rw [typedChar_pressed (.inl rfl) hc] at htab
    cases htab

theorem Ready.keeps_ctrlD (h : Ready t r)
    (hc : (t.setModifiers scancode).pressesCtrl cKey scancode = false)
    (hd : (t.setModifiers scancode).pressesCtrl dKey scancode = true) :
    Keeps V t (.key fg scancode) ↔ HasRoom V t (.key fg scancode) := by
  have hroom := h.room
  have heq : ∀ fuel, t.keyboardHandler V fuel fg scancode =
      (t.setModifiers scancode).handleCtrlD V fuel := by
    intro fuel
    rcases handler_cases V fuel fg scancode h.notFull rfl with ⟨hno, -⟩ | ⟨-, -, heq⟩ | ⟨-, hno, -⟩
    · exact absurd (hno.symm.trans hc) (by simp)
    · exact heq
    · exact absurd (hd.symm.trans hno) (by simp)
  -- one push on an empty ring, two on another
  obtain ⟨cs, hcs, hlength⟩ : ∃ cs : List Int8,
      cs.map RingOp.push =
        (if r.count = 0 then [.push endOfFile] else [.push newLineChar, .push endOfFile]) ∧
      (r.count + cs.length < bufferSize ↔ r.count + 2 ≠ bufferSize) := by
    by_cases hzero : r.count = 0
    · refine ⟨[endOfFile], by simp [hzero], ?_⟩
      rw [hzero]
      decide
    · refine ⟨[newLineChar, endOfFile], by simp [hzero], ?_⟩
      simp only [List.length_cons, List.length_nil]
      omega
  have hfaithful : ∀ u, DriverStep V t (.key fg scancode) u →
      (Faithful V t (.key fg scancode) u ↔ r.count + 2 ≠ bufferSize) := by
    rintro u ⟨fuel, hdone⟩
    obtain ⟨v, hv, hacts⟩ := handleCtrlD_spec V fuel (t.setModifiers scancode)
    rw [heq, hv] at hdone
    obtain rfl : v = u := by simpa using hdone
    have hempty : (t.setModifiers scancode).toWrite = (t.setModifiers scancode).toRead ↔
        r.count = 0 := by
      rw [(h.modifiers scancode).toWrite, (h.modifiers scancode).toRead, KeyRing.count_eq_zero]
    have hall := (acts_setModifiers scancode).trans hacts
    simp only [List.nil_append, hempty, ← hcs] at hall
    rw [h.pushes hall (by rw [h.driverOps_key, if_neg (by simp [hc]), if_pos hd, hcs]), hlength]
  obtain ⟨v, hv, -⟩ := handleCtrlD_spec V 0 (t.setModifiers scancode)
  have hends : DriverStep V t (.key fg scancode) v := ⟨0, (heq 0).trans hv⟩
  rw [h.hasRoom]
  constructor
  · intro hkeeps
    refine ⟨fun _ _ => (hfaithful v hends).mp (hkeeps.faithful v hends), fun htab => ?_⟩
    rw [typedChar_pressed (.inr rfl) hd] at htab
    cases htab
  · rintro ⟨htwo, -⟩
    exact ⟨⟨v, hends⟩, fun u hu => (hfaithful u hu).mpr (htwo hc hd)⟩

theorem Ready.keeps_none (h : Ready t r)
    (hc : (t.setModifiers scancode).pressesCtrl cKey scancode = false)
    (hd : (t.setModifiers scancode).pressesCtrl dKey scancode = false)
    (htyped : (t.setModifiers scancode).typedChar scancode = none) :
    Keeps V t (.key fg scancode) ∧ HasRoom V t (.key fg scancode) := by
  have hroom := h.room
  have heq : ∀ fuel, ∃ v, t.keyboardHandler V fuel fg scancode = .done v ∧
      Acts (t.setModifiers scancode)
        (if (t.setModifiers scancode).erases scancode then [.popBack] else []) v := by
    intro fuel
    rcases handler_cases V fuel fg scancode h.notFull rfl with
      ⟨hno, -⟩ | ⟨-, hno, -⟩ | ⟨-, -, ⟨_, hsome, -⟩ | ⟨-, v, hv, hacts, -⟩⟩
    · exact absurd (hno.symm.trans hc) (by simp)
    · exact absurd (hno.symm.trans hd) (by simp)
    · exact absurd (hsome.symm.trans htyped) (by simp)
    · exact ⟨v, hv, hacts⟩
  obtain ⟨v, hv, -⟩ := heq 0
  refine ⟨⟨⟨v, 0, hv⟩, ?_⟩, h.hasRoom.mpr ⟨fun _ hyes => absurd (hyes.symm.trans hd) (by simp),
    fun htab => absurd (htab.symm.trans htyped) (by simp)⟩⟩
  rintro u ⟨fuel, hdone⟩
  obtain ⟨w, hw, hacts⟩ := heq fuel
  obtain rfl : w = u := by simpa [hw] using hdone
  have hall := (acts_setModifiers scancode).trans hacts
  rw [List.nil_append] at hall
  refine (faithful_iff h.shows (fun hfull => absurd hfull (by omega)) hall ?_
    (fun he => by cases he) (fun he => by cases he)).mpr ?_
  · simp only [h.driverOps_key, hc, hd, htyped, Bool.false_eq_true, if_false]
  · split
    · rename_i herases
      have hpos : 0 < r.count := by
        rw [Nat.pos_iff_ne_zero, Ne, KeyRing.count_eq_zero, ← (h.modifiers scancode).toWrite,
          ← (h.modifiers scancode).toRead]
        simp only [erases, Bool.and_eq_true, bne_iff_ne] at herases
        exact herases.2
      exact (KeyRing.popBack_spec hpos).2
    · rfl

/-- A tabulator is as many blanks as its loop has rounds. -/
theorem Ready.keeps_tab (h : Ready t r) (hc : u.pressesCtrl cKey scancode = false)
    (hd : u.pressesCtrl dKey scancode = false)
    (htyped : u.typedChar scancode = some tabulatorChar) (hw : t.setModifiers scancode = u)
    (heq : ∀ fuel, t.keyboardHandler V fuel fg scancode =
      (u.addCharToBuffer V fuel tabulatorChar
        (u.keyboardOptions &&& showBufferWhileTyping != 0)).andThen
          fun v => .done (v.semPost.callKeyFn scancode)) :
    Keeps V t (.key fg scancode) ↔ HasRoom V t (.key fg scancode) := by
  have hroom := h.room
  obtain ⟨hread, hconsole⟩ := t.setModifiers_same scancode
  rw [hw] at hread hconsole
  obtain ⟨showOutput, hshow⟩ : ∃ b, b = (u.keyboardOptions &&& showBufferWhileTyping != 0) :=
    ⟨_, rfl⟩
  rw [← hshow] at heq
  have hu : u.Shows r := hw ▸ h.modifiers scancode
  have hall : ∀ k, Acts t ((List.replicate k blankChar).map .push)
      ((pushBlank V showOutput)^[k] u) := by
    intro k
    have hacts := (hw ▸ acts_setModifiers scancode : Acts t [] u).trans
      (iterate_pushBlank (V := V) (t := u) showOutput k).1
    rwa [List.map_replicate]
  -- the rounds of an expansion that ends
  have hdone : ∀ fuel v, t.keyboardHandler V fuel fg scancode = .done v → ∃ m,
      v = (((pushBlank V showOutput)^[m + 1] u).semPost.callKeyFn scancode) ∧
        (∀ j < m, goesOn ((pushBlank V showOutput)^[j + 1] u)) ∧
          goesOn ((pushBlank V showOutput)^[m + 1] u) = false := by
    intro fuel v hv
    rw [heq] at hv
    obtain ⟨w, htab, hw'⟩ := Outcome.andThen_eq_done.mp hv
    obtain ⟨m, -, rfl, hgoes, hstop⟩ := tab_done.mp htab
    exact ⟨m, (by simpa using hw'.symm), hgoes, hstop⟩
  have hfaithful : ∀ m, Faithful V t (.key fg scancode)
      (((pushBlank V showOutput)^[m + 1] u).semPost.callKeyFn scancode) ↔
        r.count + (m + 1) < bufferSize := by
    intro m
    have hacts := ((hall (m + 1)).trans (acts_semPost _)).trans (acts_callKeyFn scancode)
    simp only [List.append_nil] at hacts
    rw [h.pushes hacts, List.length_replicate]
    simp only [h.driverOps_key, hw, hc, hd, htyped, Bool.false_eq_true, if_false, if_true,
      List.map_replicate, List.length_replicate]
  -- the loop stops at the end of the ring if the reader is at the first cell
  have hstop : ∀ k, r.count + k < bufferSize → (goesOn ((pushBlank V showOutput)^[k] u) = false ↔
      (r.count + k + 1 = bufferSize ∧ t.toRead = 0) ∨
        (blanks V showOutput k t.console).betweenStops = false) := by
    intro k hk
    obtain ⟨-, hcon, hrd⟩ := iterate_pushBlank (V := V) (t := u) showOutput k
    have hshows := (hall k).ring r h.shows
    have hcount : (((List.replicate k blankChar).map RingOp.push).foldl KeyRing.step r).count =
        r.count + k := by
      have hfits := KeyRing.pending_pushes.mpr
        (show r.count + (List.replicate k blankChar).length < bufferSize by simpa using hk)
      have hlen := congrArg List.length hfits
      simpa using hlen
    unfold goesOn
    rw [hcon, hconsole, Bool.and_eq_false_iff, Bool.not_eq_false', bufferIsFull_iff hshows, hcount,
      ← hshows.toRead, hrd, hread]
  rw [h.hasRoom, hw, ← hshow]
  constructor
  · intro hkeeps
    obtain ⟨v, fuel, hv⟩ := hkeeps.ends
    obtain ⟨m, rfl, -, hend⟩ := hdone fuel v hv
    have hfits := (hfaithful m).mp (hkeeps.faithful _ ⟨fuel, hv⟩)
    refine ⟨fun _ hyes => absurd (hyes.symm.trans hd) (by simp), fun _ hne => ?_⟩
    rcases (hstop _ hfits).mp hend with ⟨-, hzero⟩ | hcolumn
    · exact absurd hzero hne
    · exact ⟨m + 1, by omega, hfits, hcolumn⟩
  · rintro ⟨-, htab⟩
    obtain ⟨k, hpos, hfits, hend⟩ : ∃ k, 1 ≤ k ∧ r.count + k < bufferSize ∧
        goesOn ((pushBlank V showOutput)^[k] u) = false := by
      by_cases hzero : t.toRead = 0
      · have hlast : r.count + (bufferSize - 1 - r.count) + 1 = bufferSize := by omega
        exact ⟨bufferSize - 1 - r.count, by omega, by omega,
          (hstop _ (by omega)).mpr (.inl ⟨hlast, hzero⟩)⟩
      · obtain ⟨k, hpos, hfits, hcolumn⟩ := htab htyped hzero
        exact ⟨k, hpos, hfits, (hstop k hfits).mpr (.inr hcolumn)⟩
    constructor
    · obtain ⟨v, hv⟩ := tab_ends (V := V) (t := u) (k := k - 1)
        (by rwa [Nat.sub_add_cancel hpos])
      exact ⟨_, _, by rw [heq, hv]; rfl⟩
    · rintro v ⟨fuel, hv⟩
      obtain ⟨m, rfl, hgoes, -⟩ := hdone fuel v hv
      have hle : m + 1 ≤ k := by
        by_contra hlt
        have hgo := hgoes (k - 1) (by omega)
        rw [Nat.sub_add_cancel hpos, hend] at hgo
        exact absurd hgo (by simp)
      exact (hfaithful m).mpr (by omega)

theorem Ready.keeps_typed (h : Ready t r) {ascii : Int8}
    (hc : (t.setModifiers scancode).pressesCtrl cKey scancode = false)
    (hd : (t.setModifiers scancode).pressesCtrl dKey scancode = false)
    (htyped : (t.setModifiers scancode).typedChar scancode = some ascii) :
    Keeps V t (.key fg scancode) ↔ HasRoom V t (.key fg scancode) := by
  have hroom := h.room
  obtain ⟨w, hw⟩ : ∃ w, t.setModifiers scancode = w := ⟨_, rfl⟩
  rw [hw] at hc hd htyped
  have heq : ∀ fuel, t.keyboardHandler V fuel fg scancode =
      (w.addCharToBuffer V fuel ascii (w.keyboardOptions &&& showBufferWhileTyping != 0)).andThen
        fun v => .done (v.semPost.callKeyFn scancode) := by
    intro fuel
    rcases handler_cases V fuel fg scancode h.notFull hw with
      ⟨hno, -⟩ | ⟨-, hno, -⟩ | ⟨-, -, ⟨_, hsome, heq⟩ | ⟨hnone, -⟩⟩
    · exact absurd (hno.symm.trans hc) (by simp)
    · exact absurd (hno.symm.trans hd) (by simp)
    · obtain rfl : _ = ascii := Option.some.inj (hsome.symm.trans htyped)
      exact heq
    · exact absurd (htyped.symm.trans hnone) (by simp)
  have hafter : ∀ v : Terminal, Acts v [] (v.semPost.callKeyFn scancode) := fun v =>
    (acts_semPost v).trans (acts_callKeyFn scancode)
  have hmodifiers : Acts t [] w := hw ▸ acts_setModifiers scancode
  by_cases htab : ascii = tabulatorChar
  · subst htab
    exact h.keeps_tab hc hd htyped hw heq
  · -- one character, and the ring is not full
    obtain ⟨v, hv, -⟩ := addChar_plain V 0 w
      (w.keyboardOptions &&& showBufferWhileTyping != 0) htab (typedChar_ne_return htyped)
    refine iff_of_true ⟨⟨v.semPost.callKeyFn scancode, 0, by rw [heq, hv]; rfl⟩, ?_⟩
      (h.hasRoom.mpr ⟨fun _ hyes => ?_, fun hsome => ?_⟩)
    · rintro u ⟨fuel, hdone⟩
      obtain ⟨v, hv, hacts⟩ := addChar_plain V fuel w
        (w.keyboardOptions &&& showBufferWhileTyping != 0) htab (typedChar_ne_return htyped)
      rw [heq, hv, Outcome.andThen_done] at hdone
      obtain rfl : v.semPost.callKeyFn scancode = u := by simpa using hdone
      have hall : Acts t ([ascii].map .push) (v.semPost.callKeyFn scancode) :=
        (hmodifiers.trans hacts).trans (hafter v)
      have hops : [ascii].map .push = t.driverOps 1 (.key fg scancode) := by
        simp only [h.driverOps_key, hw, hc, hd, htyped, Bool.false_eq_true, if_false, if_neg htab]
        rfl
      exact (h.pushes hall hops).mpr (by simpa using hroom)
    · rw [hw] at hyes
      exact absurd (hyes.symm.trans hd) (by simp)
    · rw [hw, htyped] at hsome
      exact absurd (Option.some.inj hsome) htab

/-- **A key is handled as by a deque exactly where the ring has room.** -/
theorem key_keeps (h : t.Shows r) :
    Keeps V t (.key fg scancode) ↔ HasRoom V t (.key fg scancode) := by
  have hlength : t.pending.length = r.count := by rw [h.pending_eq, KeyRing.length_pending]
  have hlt := r.count_lt
  have hread := h.toRead
  by_cases hfull : t.bufferIsFull = true
  · obtain ⟨hcount, hzero⟩ := (bufferIsFull_iff h).mp hfull
    have hacts : Acts t [.reset] { t.log (.ring .reset) with toRead := 0, toWrite := 0 } :=
      ⟨fun r hr => ⟨hr.buffer, rfl, rfl⟩, [(.ring .reset, t.console.interrupts)], rfl, rfl⟩
    have heq : ∀ fuel, t.keyboardHandler V fuel fg scancode =
        .done { t.log (.ring .reset) with toRead := 0, toWrite := 0 } := by
      intro fuel
      rw [keyboardHandler, if_pos hfull]
    refine iff_of_true ⟨⟨_, 0, heq 0⟩, ?_⟩ ⟨fun _ => hread.trans hzero, fun hne => ?_⟩
    · rintro u ⟨fuel, hdone⟩
      rw [heq] at hdone
      cases hdone
      refine (faithful_iff h (fun _ => hzero) hacts ?_ (fun he => by cases he)
        (fun he => by cases he)).mpr KeyRing.reset_spec
      simp [driverOps, hfull]
    · rw [hlength] at hne
      omega
  · by_cases hroom : r.count + 1 < bufferSize
    · have hready : Ready t r := ⟨h, hroom, by simpa using hfull⟩
      by_cases hc : (t.setModifiers scancode).pressesCtrl cKey scancode = true
      · have hboth : Keeps V t (.key fg scancode) ∧ HasRoom V t (.key fg scancode) :=
          hready.keeps_ctrlC hc
        exact iff_of_true hboth.1 hboth.2
      rw [Bool.not_eq_true] at hc
      by_cases hd : (t.setModifiers scancode).pressesCtrl dKey scancode = true
      · exact hready.keeps_ctrlD hc hd
      rw [Bool.not_eq_true] at hd
      cases htyped : (t.setModifiers scancode).typedChar scancode with
      | none =>
          have hboth : Keeps V t (.key fg scancode) ∧ HasRoom V t (.key fg scancode) :=
            hready.keeps_none hc hd htyped
          exact iff_of_true hboth.1 hboth.2
      | some ascii => exact hready.keeps_typed hc hd htyped
    · -- a full ring that is not reported
      have hlast : t.pending.length = bufferSize - 1 := by omega
      refine iff_of_false (fun hkeeps => ?_) fun hhas => ?_
      · obtain ⟨u, hu⟩ := hkeeps.ends
        exact hfull ((hkeeps.faithful u hu).full.mpr hlast)
      · exact hfull ((bufferIsFull_iff h).mpr ⟨by omega, hread.symm.trans (hhas.1 hlast)⟩)

end Key

/-- An event that pushes nothing is faithful where a full ring is seen. -/
theorem keeps_of_acts (h : t.Shows r) (hends : ∃ u, DriverStep V t e u)
    (hroom : HasRoom V t e ↔ (r.count + 1 = bufferSize → r.toRead = 0))
    (hall : ∀ u, DriverStep V t e u → (r.count + 1 = bufferSize → r.toRead = 0) →
      Faithful V t e u) : Keeps V t e ↔ HasRoom V t e := by
  rw [hroom]
  constructor
  · intro hkeeps hfull
    obtain ⟨u, hu⟩ := hends
    have hlast : t.pending.length = bufferSize - 1 := by
      rw [h.pending_eq, KeyRing.length_pending]
      omega
    exact ((bufferIsFull_iff h).mp ((hkeeps.faithful u hu).full.mpr hlast)).2
  · exact fun hright => ⟨hends, fun u hu => hall u hu hright⟩

theorem hasRoom_else (h : t.Shows r) (he : ∀ fg scancode, e ≠ .key fg scancode) :
    HasRoom V t e ↔ (r.count + 1 = bufferSize → r.toRead = 0) := by
  have hlength : t.pending.length = r.count := by rw [h.pending_eq, KeyRing.length_pending]
  have hcount : r.count = bufferSize - 1 ↔ r.count + 1 = bufferSize := by
    unfold bufferSize
    omega
  cases e with
  | key fg scancode => exact absurd rfl (he fg scancode)
  | clearBuffer => simp only [HasRoom, hlength, hcount, h.toRead, and_true]
  | read => simp only [HasRoom, hlength, hcount, h.toRead, and_true]

/-- The system call that empties the input takes one character off. -/
theorem clearBuffer_keeps (h : t.Shows r) :
    Keeps V t .clearBuffer ↔ HasRoom V t .clearBuffer := by
  obtain ⟨hcleared, hacts⟩ := clearBuffer_spec (V := V) h
  have hempty : t.pending = [] ↔ r.count = 0 := by
    rw [h.pending_eq, ← List.length_eq_zero_iff, KeyRing.length_pending]
  refine keeps_of_acts h ⟨_, rfl⟩ (hasRoom_else h (by simp)) ?_
  rintro u rfl hright
  refine (faithful_iff h hright hacts ?_ (fun _ => hcleared) (fun he => by cases he)).mpr ?_
  · simp only [driverOps, hempty]
  · split
    · rfl
    · exact (KeyRing.popBack_spec (by omega)).2

theorem read_keeps (h : t.Shows r) (hread : t.mustWait = false) :
    Keeps V t .read ↔ HasRoom V t .read := by
  have hpos : 0 < r.count := by
    rw [Nat.pos_iff_ne_zero, Ne, KeyRing.count_eq_zero, ← h.toWrite, ← h.toRead]
    intro heq
    simp [mustWait, heq] at hread
  obtain ⟨-, hfirst⟩ := KeyRing.popFront_spec hpos
  refine keeps_of_acts h ⟨_, hread, rfl⟩ (hasRoom_else h (by simp)) ?_
  rintro u ⟨-, rfl⟩ hright
  refine (faithful_iff h hright (acts_takeChar t) rfl (fun he => by cases he) fun _ => ?_).mpr ?_
  · rw [hfirst, takeChar, h.buffer, h.toRead]
  · simp only [List.foldl_cons, List.foldl_nil, RingOp.run, hfirst, List.tail_cons]

/-- **The keyboard ring is a deque** of `BUFFER_SIZE - 1` characters, for every position of
its indices: an event is that of a deque exactly where the ring has room, and so is every
run of such events. -/
theorem keyboard_deque (V : VideoMode) (t : Terminal) (hwrite : t.toWrite < bufferSize)
    (hread : t.toRead < bufferSize) :
    (∀ e, Admitted t e → (Keeps V t e ↔ HasRoom V t e)) ∧
      ∀ u, Reaches (DriverStep V) (HasRoom V) t u →
        (u.toWrite < bufferSize ∧ u.toRead < bufferSize) ∧
          u.pending = (t.ringOps u).foldl RingOp.run t.pending := by
  have hkeeps : ∀ {t : Terminal} {r : KeyRing} {e}, t.Shows r → Admitted t e →
      (Keeps V t e ↔ HasRoom V t e) := by
    intro t r e h hadm
    cases e with
    | key fg scancode => exact key_keeps h
    | clearBuffer => exact clearBuffer_keeps h
    | read => exact read_keeps h (hadm rfl)
  have h : t.Shows ⟨t.buffer, t.toWrite, t.toRead, hwrite, hread⟩ := ⟨rfl, rfl, rfl⟩
  refine ⟨fun e hadm => hkeeps h hadm, fun u hrun => ?_⟩
  have hinv : ∃ ops, Acts t ops u ∧ u.pending = ops.foldl RingOp.run t.pending := by
    refine hrun.invariant
      (I := fun u => ∃ ops, Acts t ops u ∧ u.pending = ops.foldl RingOp.run t.pending)
      ⟨[], .refl t, rfl⟩ ?_
    rintro u e v ⟨ops, hacts, hpending⟩ hroom hstep
    have hadm : Admitted u e := by
      rintro rfl
      exact hstep.1
    have hfaithful := ((hkeeps (hacts.ring _ h) hadm).mpr hroom).faithful v hstep
    refine ⟨ops ++ u.ringOps v, hacts.trans hfaithful.acts, ?_⟩
    rw [hfaithful.deque, hpending, List.foldl_append]
  obtain ⟨ops, hacts, hpending⟩ := hinv
  have hshows := hacts.ring _ h
  refine ⟨⟨?_, ?_⟩, ?_⟩
  · rw [hshows.toWrite]
    exact KeyRing.write_lt _
  · rw [hshows.toRead]
    exact KeyRing.read_lt _
  · rw [hacts.ringOps_eq]
    exact hpending

/-- A letter that is typed for a reader, from the empty ring. -/
theorem keyboard_deque_letter :
    Keeps smallWindow (initial.startReading 0) (.key none 0x1E) ∧
      ∃ u, Reaches (DriverStep smallWindow) (HasRoom smallWindow) (initial.startReading 0) u ∧
        u.pending = [97] := by
  have hroom : HasRoom smallWindow (initial.startReading 0) (.key none 0x1E) := by
    refine ⟨fun _ => rfl, fun _ => ⟨fun _ hd => ?_, fun htab => ?_⟩⟩
    · exact absurd hd (by decide)
    · exact absurd htab (by decide)
  obtain ⟨hkeeps, hrun⟩ :=
    keyboard_deque smallWindow (initial.startReading 0) (by decide) (by decide)
  refine ⟨(hkeeps (.key none 0x1E) fun he => by cases he).mpr hroom, _, (Reaches.refl _).tail hroom
    ⟨0, rfl⟩, ?_⟩
  rw [(hrun _ ((Reaches.refl _).tail hroom ⟨0, rfl⟩)).2]
  decide

/-- **A full ring that is not seen**: with the reader at the second cell a letter that is
typed makes the driver forget all the characters that are pending. -/
theorem full_ring_forgotten : ∃ t : Terminal,
    (t.toWrite < bufferSize ∧ t.toRead < bufferSize) ∧ t.pending.length = bufferSize - 1 ∧
      t.bufferIsFull = false ∧
      ∃ u, DriverStep smallWindow t (.key none 0x1E) u ∧ t.ringOps u = [.push 97] ∧
        u.pending = [] := by
  refine ⟨{ initial.startReading 0 with toRead := 1 }, by decide, ?_, by decide, _, ⟨0, rfl⟩,
    by decide, by decide⟩
  rw [pending, RingBuffer.length_contents]
  rfl

end Terminal

end BareKernel
