import BareKernel.Terminal.Readers
import BareKernel.Terminal.KeyDeque

/-!
# Reads in the background

A process in the background that reads from `STDIN` is refused, but the message of the
refusal is printed to the descriptor it read from, and that is the ring of the keyboard.
-/

namespace BareKernel

open Loops Runs

/-! ## The descriptor of the output -/

namespace Console

variable {V : VideoMode} {s : Console}

@[simp] theorem scroll_fd : (scrollBufferPositionIfNeeded V s).fileDescriptor =
    s.fileDescriptor := by
  unfold scrollBufferPositionIfNeeded
  split <;> rfl

@[simp] theorem newLine_fd : (newLine V s).fileDescriptor = s.fileDescriptor := scroll_fd

@[simp] theorem renderAscii_fd (ascii : Int8) :
    (s.renderAscii ascii).fileDescriptor = s.fileDescriptor := by
  unfold renderAscii
  split <;> rfl

@[simp] theorem putGlyph_fd (ascii : Int8) :
    (s.putGlyph V ascii).fileDescriptor = s.fileDescriptor := by
  rcases le_or_gt (s.xBufferPosition + s.glyphWidth) V.width with hroom | hend
  · rw [putGlyph_room hroom]
    exact renderAscii_fd ascii
  · rw [putGlyph_wrap hend]
    exact (renderAscii_fd ascii).trans newLine_fd

@[simp] theorem retractPosition_fd : (s.retractPosition V).fileDescriptor = s.fileDescriptor := by
  unfold retractPosition
  split
  · split <;> rfl
  · rfl

@[simp] theorem hideCursor_fd : (s.hideCursor V).fileDescriptor = s.fileDescriptor := by
  rw [hideCursor, retractPosition_fd, putGlyph_fd]

@[simp] theorem showCursor_fd : (s.showCursor V).fileDescriptor = s.fileDescriptor := by
  rw [showCursor, retractPosition_fd, putGlyph_fd]

@[simp] theorem clearPreviousCharacter_fd :
    (s.clearPreviousCharacter V).fileDescriptor = s.fileDescriptor := by
  rw [clearPreviousCharacter, showCursor_fd, retractPosition_fd, hideCursor_fd]

@[simp] theorem putChar_fd (fuel : ℕ) (ascii : Int8) :
    (s.putChar V fuel ascii).state.fileDescriptor = s.fileDescriptor := by
  unfold putChar
  split
  · exact newLine_fd.trans hideCursor_fd
  · split
    · refine whileDo_keeps (I := fun u : Console => u.fileDescriptor = s.fileDescriptor) ?_ fuel _
        hideCursor_fd
      intro u hu _
      exact retractPosition_fd.trans hu
    · split
      · refine doWhile_keeps (I := fun u : Console => u.fileDescriptor = s.fileDescriptor)
          ?_ fuel rfl
        intro u hu
        exact (putGlyph_fd _).trans hu
      · exact putGlyph_fd ascii

/-- Only the descriptors of the output are ever selected. -/
theorem selectFd_fd (fd : ℤ) (h : s.fileDescriptor ≠ 0) : (s.selectFd fd).fileDescriptor ≠ 0 := by
  unfold selectFd
  split
  · exact h
  · split
    · rename_i hone
      show fd ≠ 0
      omega
    · split
      · rename_i htwo
        show fd ≠ 0
        omega
      · exact h

end Console

/-! ## What holds of every terminal -/

namespace Terminal

/-- The indices are in range, and the output goes to the screen. -/
structure Sane (t : Terminal) : Prop where
  write : t.toWrite < bufferSize
  read : t.toRead < bufferSize
  output : t.console.fileDescriptor ≠ 0

variable {V : VideoMode} {fuel : ℕ} {t u v : Terminal}

theorem initial_sane : initial.Sane := ⟨by decide, by decide, by decide⟩

/-- The ring of a terminal whose indices are in range. -/
def Sane.ring (h : t.Sane) : KeyRing := ⟨t.buffer, t.toWrite, t.toRead, h.write, h.read⟩

theorem Sane.shows (h : t.Sane) : t.Shows h.ring := ⟨rfl, rfl, rfl⟩

theorem Shows.count_eq {r r' : KeyRing} (h : t.Shows r) (h' : t.Shows r') : r.count = r'.count := by
  rw [KeyRing.count, KeyRing.count, ← h.toWrite, ← h.toRead, h'.toWrite, h'.toRead]

theorem Sane.of_acts {ops : List RingOp} (h : t.Sane) (hacts : Acts t ops u)
    (hfd : u.console.fileDescriptor ≠ 0) : u.Sane := by
  have hshows := hacts.ring _ h.shows
  constructor
  · rw [hshows.toWrite]
    exact KeyRing.write_lt _
  · rw [hshows.toRead]
    exact KeyRing.read_lt _
  · exact hfd

theorem Sane.putChar (h : t.Sane) (fuel : ℕ) (ascii : Int8) :
    (t.putChar V fuel ascii).state.Sane := by
  rw [Terminal.putChar, Outcome.state_map]
  refine ⟨h.write, h.read, ?_⟩
  dsimp only
  rw [Console.putChar_fd]
  exact h.output

theorem Sane.pushChar (h : t.Sane) (fuel : ℕ) (ascii : Int8) (showOutput : Bool) :
    (t.pushChar V fuel ascii showOutput).state.Sane := by
  have hpush : Sane { t.log (.ring (.push ascii)) with
      buffer := Function.update t.buffer t.toWrite ascii
      toWrite := incMod t.toWrite bufferSize } :=
    ⟨Nat.mod_lt _ (by decide), h.read, h.output⟩
  unfold Terminal.pushChar
  dsimp only
  split
  · exact hpush.putChar fuel ascii
  · exact hpush

theorem Sane.addCharToBuffer (h : t.Sane) (fuel : ℕ) (ascii : Int8) (showOutput : Bool) :
    (t.addCharToBuffer V fuel ascii showOutput).state.Sane := by
  unfold Terminal.addCharToBuffer
  split
  · exact h.pushChar fuel ascii showOutput
  · refine doWhile_keeps (fun u hu => ?_) fuel h
    exact hu.pushChar fuel blankChar showOutput

theorem Sane.printToFd (h : t.Sane) (fuel : ℕ) (fd : ℤ) (string : List Int8) :
    (t.printToFd V fuel fd string).state.Sane := by
  have hselected : Sane { t with console := t.console.selectFd fd } :=
    ⟨h.write, h.read, Console.selectFd_fd fd h.output⟩
  refine forEach_keeps (P := fun _ _ => True) (fun ascii u hu _ => ?_) string _
    (along_of_forall (fun _ _ => trivial) string _) hselected
  unfold printChar
  split
  · exact hu.addCharToBuffer fuel ascii true
  · exact hu.putChar fuel ascii

theorem Sane.clearBuffer (h : t.Sane) : (t.clearBuffer V).2.Sane := by
  unfold Terminal.clearBuffer
  dsimp only
  split
  · exact h
  · refine h.of_acts (acts_dropLast t) ?_
    simp only [dropLast, Console.clearPreviousCharacter_fd]
    exact h.output

theorem Sane.clearInput (h : t.Sane) (fuel : ℕ) : (t.clearInput V fuel).state.Sane := by
  unfold Terminal.clearInput
  rw [Outcome.state_map]
  refine doWhile_keeps (I := fun p : ℕ × Terminal => p.2.Sane) (fun p hp => ?_) fuel h
  exact Sane.clearBuffer hp

theorem Sane.same (h : t.Sane) (hwrite : u.toWrite = t.toWrite) (hread : u.toRead = t.toRead)
    (hfd : u.console.fileDescriptor = t.console.fileDescriptor) : u.Sane :=
  ⟨hwrite ▸ h.write, hread ▸ h.read, hfd ▸ h.output⟩

theorem Sane.setModifiers (h : t.Sane) (scancode : UInt8) : (t.setModifiers scancode).Sane := by
  obtain ⟨-, hconsole⟩ := t.setModifiers_same scancode
  exact h.of_acts (acts_setModifiers scancode) (by rw [hconsole]; exact h.output)

theorem Sane.callKeyFn (h : t.Sane) (scancode : UInt8) : (t.callKeyFn scancode).Sane := by
  unfold Terminal.callKeyFn
  split
  · exact h.same rfl rfl rfl
  · exact h

theorem Sane.handleCtrlC (h : t.Sane) (fuel : ℕ) (fg : Option Foreground) :
    (t.handleCtrlC V fuel fg).state.Sane := by
  unfold Terminal.handleCtrlC
  split
  · exact h
  · refine Outcome.andThen_keeps (h.printToFd fuel 1 _) fun u _ hu => ?_
    have hkilled : ∀ pid, (u.log (.kill pid)).Sane := fun pid => hu.same rfl rfl rfl
    split
    · exact hkilled _
    · exact (hkilled _).clearInput fuel

theorem Sane.handleCtrlD (h : t.Sane) (fuel : ℕ) : (t.handleCtrlD V fuel).state.Sane := by
  unfold Terminal.handleCtrlD
  split
  · refine Outcome.andThen_keeps (h.addCharToBuffer fuel _ _) fun u _ hu => ?_
    exact hu.same rfl rfl rfl
  · refine Outcome.andThen_keeps (h.addCharToBuffer fuel _ _) fun u _ hu => ?_
    refine Outcome.andThen_keeps (hu.addCharToBuffer fuel _ _) fun v _ hv => ?_
    exact hv.same rfl rfl rfl

theorem Sane.recordKey (h : t.Sane) (fuel : ℕ) (scancode : UInt8) :
    (t.recordKey V fuel scancode).state.Sane := by
  unfold Terminal.recordKey
  dsimp only
  split
  · split
    · exact h
    · refine Outcome.andThen_keeps (h.addCharToBuffer fuel _ _) fun u _ hu => ?_
      have hposted : u.semPost.Sane := hu.same rfl rfl rfl
      exact hposted.callKeyFn scancode
  · split
    · refine Sane.callKeyFn ?_ scancode
      refine h.of_acts (acts_dropLast t) ?_
      simp only [dropLast, Console.clearPreviousCharacter_fd]
      exact h.output
    · exact h.callKeyFn scancode

theorem Sane.keyboardHandler (h : t.Sane) (fuel : ℕ) (fg : Option Foreground) (scancode : UInt8) :
    (t.keyboardHandler V fuel fg scancode).state.Sane := by
  have hset := h.setModifiers scancode
  unfold Terminal.keyboardHandler
  dsimp only
  split
  · have hzero : 0 < bufferSize := by decide
    exact ⟨hzero, hzero, h.output⟩
  · split
    · exact hset.handleCtrlC fuel fg
    · split
      · exact hset.handleCtrlD fuel
      · split
        · exact hset
        · split
          · exact hset.recordKey fuel scancode
          · exact hset.callKeyFn scancode

theorem Sane.handled {fg : Option Foreground} {scancode : UInt8} (h : t.Sane)
    (hu : t.keyboardHandler V fuel fg scancode = .done u) : u.Sane := by
  have hsane := h.keyboardHandler (V := V) fuel fg scancode
  rw [hu] at hsane
  exact hsane

theorem Sane.screenCall (h : t.Sane) (fuel : ℕ) (c : ScreenCall) :
    (t.screenCall V fuel c).state.Sane := by
  cases c with
  | putChar ascii => exact h.putChar fuel ascii
  | printToFd fd string => exact h.printToFd fuel fd string
  | newLine => exact h.same rfl rfl Console.newLine_fd
  | clear => exact h.same rfl rfl rfl
  | clearPreviousCharacter => exact h.same rfl rfl Console.clearPreviousCharacter_fd
  | showCursor => exact h.same rfl rfl Console.showCursor_fd
  | hideCursor => exact h.same rfl rfl Console.hideCursor_fd
  | increaseFontSize => exact h.same rfl rfl Console.scroll_fd
  | decreaseFontSize => exact h.same rfl rfl rfl
  | setFontSize size => exact h.same rfl rfl rfl

theorem Sane.semWait (h : t.Sane) : t.semWait.state.Sane := by
  unfold Terminal.semWait
  split <;> exact h.same rfl rfl rfl

theorem Sane.awaitKey (h : t.Sane) : t.awaitKey.state.Sane :=
  whileDo_keeps (I := Sane) (fun _ hu _ => hu.semWait) _ t h

theorem Sane.takeChar (h : t.Sane) : t.takeChar.2.Sane :=
  ⟨h.write, Nat.mod_lt _ (by decide), h.output⟩

/-! ## The message of a refusal -/

/-- Printing to the ring pushes the characters. -/
theorem pushes_spec (V : VideoMode) (fuel : ℕ) : ∀ (string : List Int8) (t : Terminal),
    (∀ ascii ∈ string, ascii ≠ carriageReturnChar ∧ ascii ≠ tabulatorChar) →
      ∃ u, forEach (printChar V fuel true) string t = .done u ∧ Acts t (string.map .push) u := by
  intro string
  induction string with
  | nil => exact fun t _ => ⟨t, rfl, .refl t⟩
  | cons ascii string ih =>
      intro t hall
      obtain ⟨hcr, htab⟩ := hall ascii List.mem_cons_self
      obtain ⟨u, hu, hfirst⟩ := addChar_plain V fuel t true htab hcr
      obtain ⟨v, hv, hacts⟩ := ih u fun c hc => hall c (List.mem_cons_of_mem _ hc)
      have hchar : printChar V fuel true ascii t = .done u := hu
      rw [forEach, hchar]
      exact ⟨v, hv, hfirst.trans hacts⟩

theorem refusal_plain : ∀ ascii ∈ refusal, ascii ≠ carriageReturnChar ∧ ascii ≠ tabulatorChar := by
  have hall :
      refusal.all (fun ascii => decide (ascii ≠ carriageReturnChar ∧ ascii ≠ tabulatorChar)) =
      true := by decide
  intro ascii hmem
  exact of_decide_eq_true (List.all_eq_true.mp hall ascii hmem)

/-- **A refusal pushes its message into the ring**, since no output goes to `STDIN`. -/
theorem readInBackground_spec (fuel : ℕ) (h : t.Sane) :
    ∃ u, t.readInBackground V fuel = .done u ∧ Acts t (refusal.map .push) u ∧ u.Sane := by
  have hring : decide ((0 : ℤ) ≠ t.console.fileDescriptor ∧ (0 : ℤ) = 0) = true := by
    simpa using h.output.symm
  have hconsole : t.console.selectFd 0 = t.console := by
    unfold Console.selectFd
    rw [if_neg h.output.symm, if_neg (by decide), if_neg (by decide)]
  obtain ⟨u, hu, hacts⟩ := pushes_spec V fuel refusal t refusal_plain
  have heq : t.readInBackground V fuel = .done u := by
    unfold readInBackground Terminal.printToFd
    rw [hring, hconsole]
    exact hu
  have hsane := h.printToFd (V := V) fuel 0 refusal
  unfold readInBackground at heq
  rw [heq] at hsane
  exact ⟨u, heq, hacts, hsane⟩

theorem count_pushes (cs : List Int8) (r : KeyRing) :
    ((cs.map RingOp.push).foldl KeyRing.step r).count = (r.count + cs.length) % bufferSize := by
  induction cs generalizing r with
  | nil => exact (Nat.mod_eq_of_lt r.count_lt).symm
  | cons c cs ih =>
      rw [List.map_cons, List.foldl_cons, ih, KeyRing.count_push, Nat.mod_add_mod, List.length_cons,
        Nat.add_assoc, Nat.add_comm 1]

/-! ## Waiting for a character -/

theorem awaitKey_done (h : t.mustWait = false) : t.awaitKey = .done t := by
  rw [awaitKey, whileDo, h]
  rfl

theorem acts_semWait (t : Terminal) : Acts t [] t.semWait.state := by
  unfold semWait
  split
  · exact ⟨fun _ h => ⟨h.buffer, h.toWrite, h.toRead⟩, [(.semWait, t.console.interrupts)], rfl, rfl⟩
  · exact ⟨fun _ h => ⟨h.buffer, h.toWrite, h.toRead⟩, [(.semWait, t.console.interrupts)], rfl, rfl⟩

/-- A process that must wait takes every token there is, and sleeps. -/
theorem awaitKey_cut (h : t.mustWait = true) :
    ∃ u, t.awaitKey = .cut u ∧ Acts t [] u ∧ u.keyboardSemaphore = 0 := by
  have hloop : ∀ n (t : Terminal), t.mustWait = true → t.keyboardSemaphore = n →
      ∃ u, whileDo mustWait semWait (n + 1) t = .cut u ∧ Acts t [] u ∧ u.keyboardSemaphore = 0 := by
    intro n
    induction n with
    | zero =>
        intro t h hzero
        have hacts := acts_semWait t
        rw [semWait, if_pos hzero] at hacts
        rw [whileDo, h, semWait, if_pos hzero]
        exact ⟨_, rfl, hacts, hzero⟩
    | succ n ih =>
        intro t h hsucc
        have hne : t.keyboardSemaphore ≠ 0 := by omega
        have hacts := acts_semWait t
        rw [semWait, if_neg hne] at hacts
        obtain ⟨u, hu, hacts', hzero⟩ := ih
          { t.log .semWait with keyboardSemaphore := t.keyboardSemaphore - 1 } h
          (by show t.keyboardSemaphore - 1 = n; omega)
        rw [whileDo, h, semWait, if_neg hne]
        exact ⟨u, hu, hacts.trans hacts', hzero⟩
  exact hloop _ t h rfl

theorem mustWait_startReading : (t.startReading 0).mustWait = decide (t.toWrite = t.toRead) := by
  have hreturn : modifyBuffer &&& awaitReturnKey = 0 := by decide
  simp [mustWait, startReading, hreturn]

/-! ## Ctrl+D wakes a reader -/

theorem Acts.full (h : t.Sane) (hacts : Acts t [] u) : u.bufferIsFull = t.bufferIsFull := by
  have hshows := hacts.ring _ h.shows
  unfold bufferIsFull
  rw [hshows.toWrite, hshows.toRead]
  rfl

/-- The control key, in a ring that is not reported full. -/
theorem control_pressed (V : VideoMode) (hfull : t.bufferIsFull = false) :
    ∃ u, t.keyboardHandler V 0 none controlKeyL = .done u ∧ u.controlKeyPressed = true ∧
      Acts t [] u := by
  have hset : t.setModifiers controlKeyL = { t with controlKeyPressed := true } := by
    unfold setModifiers
    rw [if_neg (by decide), if_pos (by decide)]
    rfl
  have hcall : ∀ w : Terminal, (w.callKeyFn controlKeyL).controlKeyPressed =
    w.controlKeyPressed := by
    intro w
    unfold callKeyFn
    split <;> rfl
  have hacts : Acts t [] (Terminal.callKeyFn { t with controlKeyPressed := true } controlKeyL) :=
    (hset ▸ acts_setModifiers controlKeyL : Acts t [] _).trans (acts_callKeyFn controlKeyL)
  refine ⟨_, ?_, hcall _, hacts⟩
  unfold keyboardHandler
  rw [if_neg (by simp [hfull])]
  dsimp only
  have hc : makeCode controlKeyL ≠ cKey := by decide
  have hd : makeCode controlKeyL ≠ dKey := by decide
  rw [hset, if_neg fun h => hc h.2.2, if_neg fun h => hd h.2.2, if_neg (by decide)]
  split
  · -- the key neither types a character nor erases one
    have hprint : ∀ shift, isPrintable shift controlKeyL = false := by decide
    have hkeyed : ∀ shift caps : Bool, (if caps then toUpper (keyChar shift controlKeyL)
        else keyChar shift controlKeyL) ≠ backspaceKey.toInt8 := by decide
    unfold recordKey
    dsimp only
    rw [if_neg (by rw [hprint]; decide), if_neg fun h => hkeyed _ _ h.1]
  · rfl

theorem pushChar_same (V : VideoMode) (fuel : ℕ) (t : Terminal) (ascii : Int8) (showOutput : Bool) :
    (t.pushChar V fuel ascii showOutput).state.controlKeyPressed = t.controlKeyPressed := by
  unfold pushChar
  dsimp only
  split
  · rw [putChar, Outcome.state_map]
    rfl
  · rfl

/-- Ctrl+D posts, whoever reads. -/
theorem control_d (V : VideoMode) (hfull : t.bufferIsFull = false)
    (hcontrol : t.controlKeyPressed = true) :
    ∃ u, t.keyboardHandler V 0 none dKey = .done u ∧ u.controlKeyPressed = true ∧
      0 < u.keyboardSemaphore ∧ Acts t (if t.toWrite = t.toRead then [.push endOfFile]
        else [.push newLineChar, .push endOfFile]) u := by
  have hset : t.setModifiers dKey = t := by
    unfold setModifiers
    rw [if_neg (by decide), if_neg (by decide), if_neg (by decide)]
  have hhandler : t.keyboardHandler V 0 none dKey = t.handleCtrlD V 0 := by
    unfold keyboardHandler
    rw [if_neg (by simp [hfull])]
    dsimp only
    have hpressed : isPressed dKey = true := by decide
    have hmake : makeCode dKey = dKey := by decide
    have hother : makeCode dKey ≠ cKey := by decide
    rw [hset, if_neg fun h => hother h.2.2, if_pos ⟨hcontrol, hpressed, hmake⟩]
  obtain ⟨u, hu, hacts⟩ := handleCtrlD_spec V 0 t
  have hplain : ∀ {w v : Terminal} {ascii : Int8} {showOutput : Bool}, ascii ≠ tabulatorChar →
      w.addCharToBuffer V 0 ascii showOutput = .done v →
        v.controlKeyPressed = w.controlKeyPressed := by
    intro w v ascii showOutput htab hv
    have hsame := pushChar_same V 0 w ascii showOutput
    rw [addCharToBuffer, if_pos htab] at hv
    rw [hv] at hsame
    exact hsame
  have hposted : u.controlKeyPressed = true ∧ 0 < u.keyboardSemaphore := by
    unfold handleCtrlD at hu
    split at hu
    · obtain ⟨v, hv, hdone⟩ := Outcome.andThen_eq_done.mp hu
      cases hdone
      exact ⟨(hplain (by decide) hv).trans hcontrol, Nat.succ_pos _⟩
    · obtain ⟨v, hv, hdone⟩ := Outcome.andThen_eq_done.mp hu
      obtain ⟨w, hw, hdone⟩ := Outcome.andThen_eq_done.mp hdone
      cases hdone
      exact ⟨((hplain (by decide) hw).trans (hplain (by decide) hv)).trans hcontrol,
        Nat.succ_pos _⟩
  exact ⟨u, hhandler.trans hu, hposted.1, hposted.2, hacts⟩

/-- The character that was pushed last is the last one. -/
theorem lastChar_pushed {ops : List RingOp} {ascii : Int8} (h : t.Sane)
    (hacts : Acts t (ops ++ [.push ascii]) u) : u.lastChar = ascii := by
  have hshows := hacts.ring _ h.shows
  rw [List.foldl_append] at hshows
  generalize hr : ops.foldl KeyRing.step h.ring = r at hshows
  have hback : subMod (incMod r.toWrite bufferSize) 1 bufferSize = r.toWrite := by
    have hwrite := r.write_lt
    unfold subMod incMod bufferSize at *
    split <;> omega
  rw [lastChar, hshows.buffer, hshows.toWrite]
  simp only [List.foldl_cons, List.foldl_nil, KeyRing.step]
  rw [hback, Function.update_self]

end Terminal

/-! ## Runs of the system -/

open Terminal

/-- A step that comes to its end. -/
def InputStep (V : VideoMode) (S : InputState) (e : InputEvent) (S' : InputState) : Prop :=
  ∃ fuel, S.step V fuel e = some S'

def InputEvent.isBackground : InputEvent → Bool
  | .background => true
  | _ => false

/-- A key, a read in the background, or a call of one of these readers. -/
def InputEvent.Concerns (readers : Set ℕ) : InputEvent → Prop
  | .key _ _ => True
  | .runs pid _ => pid ∈ readers
  | .background => True
  | _ => False

/-- **The foreground is not disturbed** by `n` reads in the background: without them the
same events deliver the same characters. -/
def Undisturbed (V : VideoMode) (S : InputState) (readers : Set ℕ) (n : ℕ) : Prop :=
  ∀ fuel events s u, (∀ e ∈ events, e.Concerns readers) →
    events.countP InputEvent.isBackground = n →
      exec (InputState.step V fuel) S events = some s →
        exec (InputState.step V fuel) S (events.filter fun e => !e.isBackground) = some u →
          s.delivered = u.delivered

namespace InputState

variable {V : VideoMode} {fuel : ℕ} {S S' : InputState} {pid : ℕ}

theorem reads_sane {o : Outcome Terminal} (h : o.state.Sane) : (S.reads pid o).terminal.Sane := by
  cases o with
  | done t => exact Sane.takeChar h
  | cut t => exact h

/-- **The step**: the indices of the ring stay in range. -/
theorem step_sane {e : InputEvent} (h : S.terminal.Sane) (hstep : S.step V fuel e = some S') :
    S'.terminal.Sane := by
  have hresult : ∀ {o : Outcome Terminal}, o.state.Sane →
      o.result.map (fun t => { S with terminal := t }) = some S' → S'.terminal.Sane := by
    intro o ho hmap
    obtain ⟨t, ht, rfl⟩ := Option.map_eq_some_iff.mp hmap
    rw [Outcome.result_eq_some.mp ht] at ho
    exact ho
  cases e with
  | key fg scancode => exact hresult (h.keyboardHandler fuel fg scancode) hstep
  | runs pid ops =>
      obtain rfl := Option.some.inj hstep
      apply reads_sane
      split
      · exact Outcome.andThen_keeps h.semWait fun _ _ hu => hu.awaitKey
      · exact Sane.awaitKey (h.same rfl rfl rfl)
  | background => exact hresult (h.printToFd fuel 0 refusal) hstep
  | clearInput => exact hresult (h.clearInput fuel) hstep
  | screen c => exact hresult (h.screenCall fuel c) hstep
  | ends pid =>
      obtain rfl := Option.some.inj hstep
      exact h

theorem reaches_sane (hreach : Reaches (InputStep V) always initial S) : S.terminal.Sane := by
  refine hreach.invariant (I := fun S => S.terminal.Sane) initial_sane ?_
  rintro S e S' h - ⟨fuel, hstep⟩
  exact step_sane h hstep

/-- So many characters are pending, and the reader does not sleep before they are read. -/
structure Holds (S : InputState) (pid n : ℕ) : Prop where
  sane : S.terminal.Sane
  count : ∀ r, S.terminal.Shows r → r.count = n
  awake : S.asleep pid = true → n = 0 ∧ S.terminal.keyboardSemaphore = 0

theorem holds_of_awake (h : S.terminal.Sane) (hawake : S.asleep pid = false) :
    S.Holds pid h.ring.count := by
  refine ⟨h, fun r hr => hr.count_eq h.shows, fun hasleep => ?_⟩
  rw [hawake] at hasleep
  cases hasleep

/-- A turn of the reader takes one character, if there is one. -/
theorem Holds.turn {n : ℕ} (h : S.Holds pid n) (V : VideoMode) (fuel : ℕ) :
    ∃ S', S.step V fuel (.runs pid 0) = some S' ∧
    S'.Holds pid (n - 1) ∧ S'.delivered.length = S.delivered.length + min n 1 := by
  have hcount := h.count _ h.sane.shows
  refine ⟨_, rfl, ?_⟩
  by_cases hasleep : S.asleep pid = true
  · obtain ⟨rfl, hzero⟩ := h.awake hasleep
    have hacts := acts_semWait S.terminal
    have hsane := h.sane.semWait
    rw [if_pos hasleep, wakeUp]
    unfold Terminal.semWait at hacts hsane ⊢
    rw [if_pos hzero] at hacts hsane ⊢
    refine ⟨⟨hsane, fun r hr => h.count r ⟨hr.buffer, hr.toWrite, hr.toRead⟩, ?_⟩, rfl⟩
    exact fun _ => ⟨rfl, hzero⟩
  · rw [if_neg hasleep, Terminal.getKeyboardCharacter]
    have hstart : (S.terminal.startReading 0).Sane := h.sane.same rfl rfl rfl
    by_cases hempty : S.terminal.toWrite = S.terminal.toRead
    · -- nothing is pending, and the reader falls asleep
      have hn : n = 0 := hcount ▸ KeyRing.count_eq_zero.mpr hempty
      subst hn
      obtain ⟨u, hu, hacts, hzero⟩ := awaitKey_cut
        (mustWait_startReading.trans (decide_eq_true hempty))
      have hsane := hstart.awaitKey
      rw [hu] at hsane ⊢
      refine ⟨⟨hsane, fun r hr => ?_, fun _ => ⟨rfl, hzero⟩⟩, rfl⟩
      have hshows := hacts.ring _ hstart.shows
      rw [KeyRing.count_eq_zero, ← hr.toWrite, ← hr.toRead]
      exact (hshows.toWrite.trans hempty).trans hshows.toRead.symm
    · have hpos : 0 < n := by
        rw [Nat.pos_iff_ne_zero, ← hcount, Ne, KeyRing.count_eq_zero]
        exact hempty
      rw [awaitKey_done (mustWait_startReading.trans (decide_eq_false hempty))]
      refine ⟨⟨hstart.takeChar, fun r hr => ?_, fun hasleep => ?_⟩, ?_⟩
      · have hshows := (acts_takeChar (S.terminal.startReading 0)).ring _ hstart.shows
        have hfront := (KeyRing.popFront_spec (r := hstart.ring) (hcount ▸ hpos)).1
        rw [show hstart.ring.count = n from hcount] at hfront
        exact (hr.count_eq hshows).trans hfront
      · simp [reads] at hasleep
      · have hmin : min n 1 = 1 := by omega
        rw [hmin]
        simp [reads]

/-- **The reader takes all there is**, if it has as many turns. -/
theorem Holds.turns : ∀ {k n : ℕ} {S : InputState}, S.Holds pid n → n ≤ k → ∃ S',
    exec (step V fuel) S (List.replicate k (.runs pid 0)) = some S' ∧ S'.terminal.Sane ∧
      S'.delivered.length = S.delivered.length + n := by
  intro k
  induction k with
  | zero =>
      intro n S h hn
      obtain rfl : n = 0 := by omega
      exact ⟨S, rfl, h.sane, rfl⟩
  | succ k ih =>
      intro n S h hn
      obtain ⟨S', hstep, hholds, hone⟩ := h.turn V fuel
      obtain ⟨S'', hrest, hsane, hall⟩ := ih hholds (by omega)
      refine ⟨S'', ?_, hsane, by omega⟩
      rw [List.replicate_succ, exec, hstep]
      exact hrest

/-- A refusal delivers nothing itself. -/
theorem refused (V : VideoMode) (fuel : ℕ) (h : S.terminal.Sane) :
    ∃ S', S.step V fuel .background = some S' ∧ Acts S.terminal (refusal.map .push) S'.terminal ∧
      S'.terminal.Sane ∧ S'.asleep = S.asleep ∧ S'.delivered = S.delivered := by
  obtain ⟨u, hu, hacts, hsane⟩ := readInBackground_spec (V := V) fuel h
  refine ⟨{ S with terminal := u }, ?_, hacts, hsane, rfl, rfl⟩
  rw [step, hu]
  rfl

theorem refusals (V : VideoMode) (fuel : ℕ) : ∀ (k : ℕ) {S : InputState}, S.terminal.Sane → ∃ S',
    exec (step V fuel) S (List.replicate k .background) = some S' ∧ S'.delivered = S.delivered := by
  intro k
  induction k with
  | zero => exact fun {S} _ => ⟨S, rfl, rfl⟩
  | succ k ih =>
      intro S h
      obtain ⟨S', hstep, -, hsane, -, hsame⟩ := refused V fuel h
      obtain ⟨S'', hrest, hall⟩ := ih hsane
      refine ⟨S'', ?_, hall.trans hsame⟩
      rw [List.replicate_succ, exec, hstep]
      exact hrest

/-! ## A reader that sleeps can be woken -/

/-- Keys and turns of the readers lead from one state to the other. -/
def Quietly (V : VideoMode) (readers : Set ℕ) (S S' : InputState) : Prop :=
  ∃ events, (∀ e ∈ events, e.Concerns readers ∧ e.isBackground = false) ∧
    exec (step V 0) S events = some S'

variable {readers : Set ℕ} {t u : Terminal}

theorem Quietly.refl (S : InputState) : Quietly V readers S S := ⟨[], by simp, rfl⟩

theorem Quietly.trans {S'' : InputState} (h : Quietly V readers S S')
    (h' : Quietly V readers S' S'') :
    Quietly V readers S S'' := by
  obtain ⟨events, hall, hexec⟩ := h
  obtain ⟨events', hall', hexec'⟩ := h'
  refine ⟨events ++ events', ?_, ?_⟩
  · intro e he
    rcases List.mem_append.mp he with he | he
    · exact hall e he
    · exact hall' e he
  · rw [exec_append, hexec]
    exact hexec'

theorem Quietly.step {e : InputEvent} (hconcerns : e.Concerns readers)
    (hquiet : e.isBackground = false) (hstep : S.step V 0 e = some S') :
    Quietly V readers S S' := by
  refine ⟨[e], ?_, ?_⟩
  · intro e' he
    rw [List.mem_singleton.mp he]
    exact ⟨hconcerns, hquiet⟩
  · rw [exec, hstep]
    rfl

theorem Quietly.key {scancode : UInt8}
    (h : S.terminal.keyboardHandler V 0 none scancode = .done u) :
    Quietly V readers S { S with terminal := u } := by
  refine Quietly.step (e := .key none scancode) trivial rfl ?_
  rw [InputState.step, h]
  rfl

/-- The control key can be held down in a ring that is not reported full. -/
theorem control_held (V : VideoMode) (readers : Set ℕ) (h : S.terminal.Sane) :
    ∃ u, Quietly V readers S { S with terminal := u } ∧ u.Sane ∧ u.controlKeyPressed = true ∧
      u.bufferIsFull = false := by
  have hpress : ∀ {S : InputState}, S.terminal.Sane → S.terminal.bufferIsFull = false →
      ∃ u, Quietly V readers S { S with terminal := u } ∧ u.Sane ∧ u.controlKeyPressed = true ∧
        u.bufferIsFull = false := by
    intro S h hfull
    obtain ⟨u, hu, hcontrol, hacts⟩ := control_pressed V hfull
    exact ⟨u, .key hu, h.handled hu, hcontrol, (Acts.full h hacts).trans hfull⟩
  cases hfull : S.terminal.bufferIsFull with
  | false => exact hpress h hfull
  | true =>
      -- the first key empties the ring, and is looked at no further
      have hreset : S.terminal.keyboardHandler V 0 none controlKeyL =
          .done { S.terminal.log (.ring .reset) with toRead := 0, toWrite := 0 } := by
        rw [keyboardHandler, if_pos hfull]
      have hzero : 0 < bufferSize := by decide
      have hsane : Sane { S.terminal.log (.ring .reset) with toRead := 0, toWrite := 0 } :=
        ⟨hzero, hzero, h.output⟩
      obtain ⟨u, hquiet, hu⟩ := hpress (S := { S with terminal := _ }) hsane rfl
      exact ⟨u, (Quietly.key hreset).trans hquiet, hu⟩

/-- **Ctrl+D ends the call of a reader that sleeps**, unless its two characters fill the
ring up. -/
theorem woken (h : S.terminal.Sane) (hpid : pid ∈ readers) (hasleep : S.asleep pid = true)
    (hcontrol : S.terminal.controlKeyPressed = true) (hfull : S.terminal.bufferIsFull = false)
    (hcount : h.ring.count ≠ bufferSize - 2) :
    ∃ S', Quietly V readers S S' ∧ S'.terminal.Sane ∧ S'.asleep pid = false := by
  obtain ⟨u, hu, -, htoken, hacts⟩ := control_d V hfull hcontrol
  have hsane : u.Sane := h.handled hu
  have hkey : Quietly V readers S { S with terminal := u } := .key hu
  obtain ⟨cs, hcs, hlength⟩ : ∃ cs : List Int8, Acts S.terminal ((cs ++ [endOfFile]).map .push) u ∧
      (h.ring.count + (cs.length + 1)) % bufferSize ≠ 0 := by
    have hlt := h.ring.count_lt
    by_cases hempty : S.terminal.toWrite = S.terminal.toRead
    · have hzero : h.ring.count = 0 := KeyRing.count_eq_zero.mpr hempty
      rw [if_pos hempty] at hacts
      refine ⟨[], hacts, ?_⟩
      rw [hzero]
      decide
    · have hne : h.ring.count ≠ 0 := fun hzero => hempty (KeyRing.count_eq_zero.mp hzero)
      rw [if_neg hempty] at hacts
      refine ⟨[newLineChar], hacts, ?_⟩
      simp only [List.length_singleton, bufferSize] at hcount hlt ⊢
      omega
  have hshows := hcs.ring _ h.shows
  have hpending : u.toWrite ≠ u.toRead := by
    rw [hshows.toWrite, hshows.toRead, Ne, ← KeyRing.count_eq_zero, count_pushes,
      List.length_append]
    exact hlength
  have hlast : u.lastChar = endOfFile := by
    rw [List.map_append] at hcs
    exact lastChar_pushed h hcs
  -- the token is taken, and there is a line to read
  have hwait : Terminal.mustWait
      { u.log .semWait with keyboardSemaphore := u.keyboardSemaphore - 1 } = false := by
    have heof : (u.lastChar == newLineChar || u.lastChar == endOfFile) = true := by
      rw [hlast]
      decide
    show (decide (u.toWrite = u.toRead) || (u.keyboardOptions &&& awaitReturnKey != 0 &&
      !(u.lastChar == newLineChar || u.lastChar == endOfFile))) = false
    rw [decide_eq_false hpending, heof, Bool.not_true, Bool.and_false, Bool.or_false]
  have hturn : InputState.step V 0 { S with terminal := u } (.runs pid 0) =
      some ({ S with terminal := u }.reads pid
        (.done { u.log .semWait with keyboardSemaphore := u.keyboardSemaphore - 1 })) := by
    rw [InputState.step]
    dsimp only
    rw [if_pos hasleep, wakeUp, Terminal.semWait, if_neg (by omega), Outcome.andThen_done,
      awaitKey_done hwait]
  refine ⟨_, hkey.trans (.step (e := .runs pid 0) hpid rfl hturn), ?_, ?_⟩
  · exact Sane.takeChar (hsane.same rfl rfl rfl)
  · simp [reads]

theorem exists_awake (h : S.terminal.Sane) (hpid : pid ∈ readers) :
    ∃ S', Quietly V readers S S' ∧ S'.terminal.Sane ∧ S'.asleep pid = false := by
  cases hasleep : S.asleep pid with
  | false => exact ⟨S, .refl S, h, hasleep⟩
  | true =>
      obtain ⟨u, hheld, hu, hcontrol, hfull⟩ := control_held V readers h
      by_cases hcount : hu.ring.count = bufferSize - 2
      · -- the ring runs over and is empty, and the second Ctrl+D finds it so
        obtain ⟨v, hv, hcontrol', -, hacts⟩ := control_d V hfull hcontrol
        have hsane : v.Sane := hu.handled hv
        have hne : u.toWrite ≠ u.toRead := by
          intro hempty
          rw [KeyRing.count_eq_zero.mpr hempty] at hcount
          exact absurd hcount (by decide)
        rw [if_neg hne] at hacts
        have hzero : hsane.ring.count = 0 := by
          have hshows := hacts.ring _ hu.shows
          have hboth := count_pushes [newLineChar, endOfFile] hu.ring
          rw [hcount] at hboth
          exact (Shows.count_eq hsane.shows hshows).trans hboth
        have hfull' : v.bufferIsFull = false := by
          rw [Bool.eq_false_iff, Ne, bufferIsFull_iff hsane.shows, hzero]
          exact fun hboth => absurd hboth.1 (by decide)
        obtain ⟨S', hquiet, hS'⟩ :=
          woken (V := V) (S := { S with terminal := v }) hsane hpid hasleep
          hcontrol' hfull' (by rw [hzero]; decide)
        exact ⟨S', (hheld.trans (.key hv)).trans hquiet, hS'⟩
      · obtain ⟨S', hquiet, hS'⟩ := woken (V := V) (S := { S with terminal := u }) hu hpid hasleep
          hcontrol hfull hcount
        exact ⟨S', hheld.trans hquiet, hS'⟩

end InputState

open InputState

/-- **A read in the background always disturbs the foreground**: in every state that is
reached, for all readers, the characters that are delivered stay the same only as long as
there is no such read. -/
theorem background_reads (V : VideoMode) (S : InputState) (readers : Set ℕ)
    (hreaders : readers.Nonempty)
    (hreach : Reaches (InputStep V) always InputState.initial S) (n : ℕ) :
    Undisturbed V S readers n ↔ n = 0 := by
  constructor
  · intro hsame
    by_contra hn
    obtain ⟨pid, hpid⟩ := hreaders
    obtain ⟨T, ⟨before, hall, hbefore⟩, hsane, hawake⟩ :=
      exists_awake (V := V) (reaches_sane hreach) hpid
    obtain ⟨k, hk⟩ : ∃ k, bufferSize ≤ k := ⟨_, le_refl _⟩
    -- with the refusal there are 53 characters more to read
    obtain ⟨R, hrefused, hacts, hsaneR, hasleepR, hdeliveredR⟩ := refused V 0 hsane
    have hcountR : hsaneR.ring.count = (hsane.ring.count + refusal.length) % bufferSize := by
      rw [← count_pushes]
      exact Shows.count_eq hsaneR.shows (hacts.ring _ hsane.shows)
    obtain ⟨s, hs, hsaneS, hlengthS⟩ :=
      (holds_of_awake hsaneR (by rw [hasleepR]; exact hawake)).turns (V := V)
        (hsaneR.ring.count_lt.le.trans hk)
    obtain ⟨s', hs', hdelivered⟩ := refusals V 0 (n - 1) hsaneS
    obtain ⟨u, hu, -, hlengthU⟩ :=
      (holds_of_awake hsane hawake).turns (V := V) (hsane.ring.count_lt.le.trans hk)
    have hquietBefore : before.filter (fun e => !e.isBackground) = before := by
      rw [List.filter_eq_self]
      intro e he
      rw [(hall e he).2]
      rfl
    have hrefusals : ∀ k m, (InputEvent.background :: (List.replicate k (.runs pid 0) ++
        List.replicate m .background)).filter (fun e => !e.isBackground) =
          List.replicate k (.runs pid 0) := by
      intro k m
      simp [InputEvent.isBackground]
    have hcounts : ∀ k m, (InputEvent.background :: (List.replicate k (.runs pid 0) ++
        List.replicate m .background)).countP InputEvent.isBackground = m + 1 := by
      intro k m
      rw [List.countP_cons, List.countP_append, List.countP_replicate, List.countP_replicate]
      simp [InputEvent.isBackground]
    have hwith : exec (step V 0) S (before ++ (InputEvent.background ::
        (List.replicate k (.runs pid 0) ++ List.replicate (n - 1) .background))) =
          some s' := by
      rw [exec_append, hbefore, Option.bind_some, exec, hrefused, Option.bind_some, exec_append, hs]
      exact hs'
    have hwithout : exec (step V 0) S ((before ++ (InputEvent.background ::
        (List.replicate k (.runs pid 0) ++ List.replicate (n - 1) .background))).filter
          fun e => !e.isBackground) = some u := by
      rw [List.filter_append, hquietBefore, hrefusals, exec_append, hbefore]
      exact hu
    have heq := hsame 0 _ s' u ?_ ?_ hwith hwithout
    · have hlengths := congrArg List.length heq
      rw [hdelivered, hlengthS, hlengthU, hdeliveredR, hcountR] at hlengths
      have hlt := hsane.ring.count_lt
      have hmessage : refusal.length = 53 := rfl
      rw [hmessage] at hlengths
      unfold bufferSize at hlengths hlt
      omega
    · intro e he
      rcases List.mem_append.mp he with he | he
      · exact (hall e he).1
      · rcases List.mem_cons.mp he with rfl | he
        · trivial
        · rcases List.mem_append.mp he with he | he
          · rw [List.eq_of_mem_replicate he]
            exact hpid
          · rw [List.eq_of_mem_replicate he]
            trivial
    · have hzero : before.countP InputEvent.isBackground = 0 := by
        rw [List.countP_eq_zero]
        intro e he
        rw [(hall e he).2]
        decide
      rw [List.countP_append, hzero, hcounts]
      omega
  · rintro rfl fuel events s u - hcount hwith hwithout
    have hquiet : events.filter (fun e => !e.isBackground) = events := by
      rw [List.filter_eq_self]
      intro e he
      have hno := List.countP_eq_zero.mp hcount e he
      simpa using hno
    rw [hquiet, hwith] at hwithout
    rw [Option.some.inj hwithout]

theorem background_reads_initial : ¬Undisturbed smallWindow InputState.initial {0} 1 ∧
    Undisturbed smallWindow InputState.initial {0} 0 := by
  have hreaders : ({0} : Set ℕ).Nonempty := ⟨0, rfl⟩
  constructor
  · intro hsame
    exact absurd ((background_reads smallWindow _ {0} hreaders (Reaches.refl _) 1).mp hsame)
      (by decide)
  · exact (background_reads smallWindow _ {0} hreaders (Reaches.refl _) 0).mpr rfl

/-- **The first letter of the refusal is read** by a process in the foreground, which
without it would wait for a key. -/
theorem refusal_is_read :
    ((exec (InputState.step smallWindow 0) InputState.initial [.background, .runs 0 0]).map
      fun S => S.delivered) = some [(0, 69)] ∧
    ((exec (InputState.step smallWindow 0) InputState.initial [.runs 0 0]).map
      fun S => S.delivered) = some [] := by
  constructor <;> decide +kernel

end BareKernel
