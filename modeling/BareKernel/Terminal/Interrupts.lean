import BareKernel.Terminal.BackgroundReads
import BareKernel.Kernel.SchedulerFacts

/-!
# Critical sections and the interrupt flag

A gate of the kernel turns interrupts off. Scrolling the screen turns them on again, and
they stay on until the entry ends. What must not be interrupted is kept in a list with
the flag it found, so an entry is atomic if every flag in its list is down.
-/

namespace BareKernel

open Loops Runs Kernel ProcessState

/-! ## What the context switch does -/

namespace Kernel.Sched

def scheduleOps (s : Sched) (pid : ℤ) : List Critical :=
  if checkPriority (s.processes pid).priority then [.queue] else []

/-- `park`. -/
def parkOps (s : Sched) (c : ℤ) : List Critical :=
  let p := s.processes c
  match p.state with
  | RUNNING =>
      (s.setProcess c { p with state := READY, priority := p.originalPriority }).scheduleOps c
  | _ => []

/-- Every element goes into the temporary queue and out of it again. -/
def ageQueueOps (s : Sched) (i : ℤ) : List Critical :=
  if s.priorityQueues i = [] then []
  else if ¬s.blocks 0 then [.allocMemory]
  else
    let tempQueue := (fillTemp (s.priorityQueues i) (s.dropBlock.setQueue i []) []).2
    .allocMemory :: ((s.priorityQueues i).flatMap (fun _ => [.dequeue, .queue]) ++
      tempQueue.flatMap (fun _ => [.dequeue, .queue]) ++ [.freeMemory])

def agingOps : List ℤ → Sched → List Critical
  | [], _ => []
  | i :: is, s => s.ageQueueOps i ++ agingOps is (s.ageQueue i)

def nextProcessOps : ℕ → Sched → List Critical
  | 0, _ => []
  | fuel + 1, s =>
      match s.unschedule with
      | none => []
      | some (pid, s) =>
          .dequeue :: if (s.processes pid).state = BLOCKED ∨ (s.processes pid).state = EXITED then
            nextProcessOps fuel s
          else []

/-- **The critical operations of `switchContext`**, in their order. Those inside of
`queue` and `dequeue` are not listed again. -/
def switchOps (s : Sched) : List Critical :=
  match s.currentProcess with
  | none => if s.unschedule.isSome then [.dequeue] else []
  | some c =>
      if (s.processes c).state = RUNNING ∧ s.quantumsLeft > 0 ∧ ¬s.isYield then []
      else
        let aged := (s.park c).applyAging
        s.parkOps c ++ agingOps [0, 1, 2, 3, 4] (s.park c) ++
          nextProcessOps (aged.queuedCount + 1) aged

/-- The context switch has a queue to work on. -/
def UsesQueues (s : Sched) : Prop :=
  match s.currentProcess with
  | none => ∃ i ∈ [4, 3, 2, 1, 0], s.priorityQueues i ≠ []
  | some c =>
      ¬((s.processes c).state = RUNNING ∧ s.quantumsLeft > 0 ∧ ¬s.isYield) ∧
        (((s.processes c).state = RUNNING ∧ checkPriority (s.processes c).originalPriority) ∨
          ∃ i ∈ [4, 3, 2, 1, 0], s.priorityQueues i ≠ [])

variable {s : Sched} {c : ℤ}

theorem ageQueueOps_eq_nil {i : ℤ} : s.ageQueueOps i = [] ↔ s.priorityQueues i = [] := by
  unfold ageQueueOps
  split
  · rename_i hempty
    exact ⟨fun _ => hempty, fun _ => rfl⟩
  · rename_i hne
    constructor
    · intro h
      split at h <;> cases h
    · exact fun h => absurd h hne

theorem ageQueue_empty {i : ℤ} (h : s.priorityQueues i = []) : s.ageQueue i = s := by
  unfold ageQueue
  rw [if_pos h]

/-- Aging has nothing to do exactly if the queues are empty, and leaves them so. -/
theorem agingOps_eq_nil : ∀ {is : List ℤ} {s : Sched}, agingOps is s = [] ↔
    ∀ i ∈ is, s.priorityQueues i = [] := by
  intro is
  induction is with
  | nil => intro s; simp [agingOps]
  | cons i is ih =>
      intro s
      rw [agingOps, List.append_eq_nil_iff, ageQueueOps_eq_nil, List.forall_mem_cons]
      constructor
      · rintro ⟨hi, his⟩
        rw [ageQueue_empty hi] at his
        exact ⟨hi, ih.mp his⟩
      · rintro ⟨hi, his⟩
        rw [ageQueue_empty hi]
        exact ⟨hi, ih.mpr his⟩

theorem foldl_ageQueue_empty : ∀ {is : List ℤ} {s : Sched}, (∀ i ∈ is, s.priorityQueues i = []) →
    is.foldl ageQueue s = s := by
  intro is
  induction is with
  | nil => exact fun _ => rfl
  | cons i is ih =>
      intro s h
      rw [List.foldl_cons, ageQueue_empty (h i List.mem_cons_self)]
      exact ih fun j hj => h j (List.mem_cons_of_mem _ hj)

/-- A process that is not put back leaves the queues as they are. -/
theorem parkOps_eq_nil : s.parkOps c = [] ↔
    ¬((s.processes c).state = RUNNING ∧ checkPriority (s.processes c).originalPriority) := by
  unfold parkOps scheduleOps
  cases hstate : (s.processes c).state <;> simp [hstate, setProcess]

theorem park_queues (h : s.parkOps c = []) : (s.park c).priorityQueues = s.priorityQueues := by
  rw [parkOps_eq_nil] at h
  unfold park
  cases hstate : (s.processes c).state with
  | RUNNING =>
      have hpriority : ¬checkPriority (s.processes c).originalPriority := fun hp => h ⟨hstate, hp⟩
      simp [schedule, setProcess, hpriority]
  | READY => rfl
  | BLOCKED => rfl
  | EXITED => rfl

/-- **The context switch does something critical exactly if it uses a queue.** -/
theorem switchOps_eq_nil : s.switchOps = [] ↔ ¬s.UsesQueues := by
  unfold switchOps UsesQueues
  cases hcurrent : s.currentProcess with
  | none =>
      dsimp only
      have hnone : s.unschedule.isSome = false ↔
        ∀ i ∈ [4, 3, 2, 1, 0], s.priorityQueues i = [] := by
        rw [Option.isSome_eq_false_iff, Option.isNone_iff_eq_none]
        exact unscheduleFrom_none
      cases hsome : s.unschedule.isSome with
      | true =>
          rw [hsome] at hnone
          simpa using hnone
      | false =>
          rw [hsome] at hnone
          simpa using hnone
  | some c =>
      dsimp only
      split
      · rename_i hgoes
        exact ⟨fun _ h => h.1 hgoes, fun _ => rfl⟩
      · rename_i hstops
        rw [List.append_eq_nil_iff, List.append_eq_nil_iff, agingOps_eq_nil]
        have horder : (∀ i ∈ [0, 1, 2, 3, 4], s.priorityQueues i = []) ↔
            ¬∃ i ∈ [4, 3, 2, 1, 0], s.priorityQueues i ≠ [] := by
          simp
          tauto
        constructor
        · rintro ⟨⟨hpark, haging⟩, -⟩ ⟨-, hrunning | hqueue⟩
          · exact parkOps_eq_nil.mp hpark hrunning
          · rw [park_queues hpark] at haging
            exact horder.mp haging hqueue
        · intro h
          have hpark : s.parkOps c = [] := parkOps_eq_nil.mpr fun hr => h ⟨hstops, .inl hr⟩
          have hempty := horder.mpr fun hq => h ⟨hstops, .inr hq⟩
          rw [← park_queues hpark] at hempty
          refine ⟨⟨hpark, hempty⟩, ?_⟩
          rw [show (s.park c).applyAging = s.park c from foldl_ageQueue_empty hempty,
            nextProcessOps]
          have hnone : (s.park c).unschedule = none := by
            apply unscheduleFrom_none.mpr
            simpa [and_comm, and_assoc, and_left_comm] using hempty
          rw [hnone]

end Kernel.Sched

/-! ## When the screen scrolls -/

namespace Console

/-- A new line finds no room for a glyph below. -/
def LineScrolls (V : VideoMode) (s : Console) : Prop :=
  s.yBufferPosition + s.maxGlyphSizeYOnLine + s.glyphHeight > V.height

/-- A glyph needs a new line, and that line does. -/
def GlyphScrolls (V : VideoMode) (s : Console) : Prop :=
  s.xBufferPosition + s.glyphWidth > V.width ∧ s.LineScrolls V

/-- A blank is put over the cursor, and ends the line if the character does. -/
def CharScrolls (V : VideoMode) (ascii : Int8) (s : Console) : Prop :=
  s.GlyphScrolls V ∨ (ascii = newLineChar ∧ (s.hideCursor V).LineScrolls V)

/-- The old cursor is taken off, and the new one put. -/
def EraseScrolls (V : VideoMode) (s : Console) : Prop :=
  s.GlyphScrolls V ∨ ((s.hideCursor V).retractPosition V).GlyphScrolls V

/-- The console after a character that is neither a tabulator nor a carriage return. -/
def typed (V : VideoMode) (s : Console) (ascii : Int8) : Console :=
  if ascii = newLineChar then newLine V (s.hideCursor V) else s.putGlyph V ascii

/-- One of the characters scrolls. -/
def Scrolls (V : VideoMode) : List Int8 → Console → Prop
  | [], _ => False
  | ascii :: string, s => s.CharScrolls V ascii ∨ Scrolls V string (s.typed V ascii)

/-- One of so many characters that are taken off scrolls. -/
def ErasingScrolls (V : VideoMode) : ℕ → Console → Prop
  | 0, _ => False
  | n + 1, s => s.EraseScrolls V ∨ ErasingScrolls V n (s.clearPreviousCharacter V)

variable {V : VideoMode} {s : Console} {ascii : Int8}

theorem newLine_off : (newLine V s).interrupts = false ↔
    s.interrupts = false ∧ ¬s.LineScrolls V := by
  unfold newLine scrollBufferPositionIfNeeded LineScrolls
  split
  · rename_i hscrolls
    constructor
    · intro h
      cases h
    · exact fun h => absurd hscrolls h.2
  · rename_i hroom
    exact ⟨fun h => ⟨h, hroom⟩, fun h => h.1⟩

@[simp] theorem renderAscii_interrupts : (s.renderAscii ascii).interrupts = s.interrupts := by
  unfold renderAscii
  split <;> rfl

theorem putGlyph_off : (s.putGlyph V ascii).interrupts = false ↔
    s.interrupts = false ∧ ¬s.GlyphScrolls V := by
  rcases le_or_gt (s.xBufferPosition + s.glyphWidth) V.width with hroom | hend
  · rw [putGlyph_room hroom]
    show ({ s with dirtyLine := true }.renderAscii ascii).interrupts = false ↔ _
    rw [renderAscii_interrupts]
    exact ⟨fun h => ⟨h, fun hscrolls => absurd hscrolls.1 (not_lt.mpr hroom)⟩, fun h => h.1⟩
  · rw [putGlyph_wrap hend]
    show ((newLine V { s with dirtyLine := true }).renderAscii ascii).interrupts = false ↔ _
    rw [renderAscii_interrupts, newLine_off]
    exact ⟨fun h => ⟨h.1, fun hscrolls => h.2 hscrolls.2⟩,
      fun h => ⟨h.1, fun hline => h.2 ⟨hend, hline⟩⟩⟩

@[simp] theorem retractPosition_interrupts : (s.retractPosition V).interrupts = s.interrupts := by
  unfold retractPosition
  split
  · split <;> rfl
  · rfl

theorem hideCursor_off : (s.hideCursor V).interrupts = false ↔
    s.interrupts = false ∧ ¬s.GlyphScrolls V := by
  rw [hideCursor, retractPosition_interrupts, putGlyph_off]

theorem showCursor_off : (s.showCursor V).interrupts = false ↔
    s.interrupts = false ∧ ¬s.GlyphScrolls V := by
  rw [showCursor, retractPosition_interrupts, putGlyph_off]

theorem clearPreviousCharacter_off : (s.clearPreviousCharacter V).interrupts = false ↔
    s.interrupts = false ∧ ¬s.EraseScrolls V := by
  rw [clearPreviousCharacter, showCursor_off, retractPosition_interrupts, hideCursor_off,
    EraseScrolls]
  tauto

theorem typed_off : (s.typed V ascii).interrupts = false ↔
    s.interrupts = false ∧ ¬s.CharScrolls V ascii := by
  unfold typed CharScrolls
  split
  · rename_i hline
    rw [newLine_off, hideCursor_off]
    tauto
  · rename_i hother
    rw [putGlyph_off]
    tauto

/-- What is typed ends, and how it ends does not depend on the rounds of the loops. -/
theorem putChar_typed (fuel : ℕ) (hcr : ascii ≠ carriageReturnChar) (htab : ascii ≠ tabulatorChar) :
    s.putChar V fuel ascii = .done (s.typed V ascii) := by
  unfold putChar typed
  by_cases hline : ascii = newLineChar
  · rw [if_pos hline, if_pos hline]
    rfl
  · rw [if_neg hline, if_neg hcr, if_neg htab, if_neg hline]

end Console

/-! ## Entries -/

open Console

/-- The cursor of `cursor.c` and the clock of `time.c`. -/
structure Clock where
  ticks : UInt64
  isShowing : Bool

/-- `toggleSpeed() % 2`, on the `int` that `ticks_elapsed` makes of the ticks. -/
def Clock.toggle (c : Clock) : Int32 := c.ticks.toUInt32.toInt32 / 9 % 2

/-- The cursor is drawn, and taken off, only while a reader shows what is typed. -/
def Terminal.toggles (t : Terminal) (c : Clock) : Bool :=
  t.keyboardOptions ≠ 0 && t.keyboardOptions ≠ modifyBuffer &&
    ((c.toggle = 1 && !c.isShowing) || (c.toggle = 0 && c.isShowing))

/-- Ways into the kernel. A system call that draws nothing is told by the operations it makes,
and any list of them will do: none of them touches the flag. -/
inductive Entry : Type where
  /-- The interrupt of the keyboard. -/
  | keyboard (fg : Option Foreground) (scancode : UInt8)
  /-- The interrupt of the timer, which `forceSwitchContext` raises as well. -/
  | timer (c : Clock) (s : Sched)
  | read (ops : UInt8)
  | wakeUp
  | readInBackground
  | write (toStderr : Bool) (string : List Int8)
  | clearInput
  | clear
  | increaseFontSize
  | decreaseFontSize
  | setFontSize (size : Int8)
  | call (ops : List Critical)

namespace Terminal

variable (V : VideoMode) (fuel : ℕ) (t : Terminal)

/-- Through a gate, with nothing done so far. -/
def enter : Terminal :=
  { t with console := { t.console with interrupts := false }, critical := [] }

def logAll (ops : List Critical) : Terminal := ops.foldl log t

def toggleCursor (c : Clock) : Terminal :=
  if t.keyboardOptions = 0 ∨ t.keyboardOptions = modifyBuffer then t
  else if c.toggle = 1 ∧ c.isShowing = false then { t with console := t.console.showCursor V }
  else if c.toggle = 0 ∧ c.isShowing = true then { t with console := t.console.hideCursor V }
  else t

/-- `writeToFD` prints character by character. -/
def writeToFd (fd : ℤ) (string : List Int8) : Outcome Terminal :=
  forEach (fun ascii t => printToFd V fuel t fd [ascii]) string t

/-- An entry up to where it leaves the kernel, or the process sleeps. -/
def run : Entry → Outcome Terminal
  | .keyboard fg scancode => t.keyboardHandler V fuel fg scancode
  | .timer c s => .done ((t.toggleCursor V { c with ticks := c.ticks + 1 }).logAll s.switchOps)
  | .read ops => (t.getKeyboardCharacter ops).andThen fun t => .done t.takeChar.2
  | .wakeUp => t.wakeUp.andThen fun t => .done t.takeChar.2
  | .readInBackground => t.readInBackground V fuel
  | .write toStderr string => t.writeToFd V fuel (if toStderr then 2 else 1) string
  | .clearInput => t.clearInput V fuel
  | .clear => .done { t with console := t.console.clear }
  | .increaseFontSize => .done { t with console := t.console.increaseFontSize V }
  | .decreaseFontSize => .done { t with console := t.console.decreaseFontSize }
  | .setFontSize size => .done { t with console := t.console.setFontSize size }
  | .call ops => .done (t.logAll ops)

end Terminal

namespace Terminal

variable {V : VideoMode} {fuel : ℕ} {t u w : Terminal}

/-- **An entry is atomic** if nothing critical on its way found interrupts on, wherever
it is looked at. -/
def Atomic (V : VideoMode) (t : Terminal) (e : Entry) : Prop :=
  ∀ fuel, ∀ p ∈ (t.enter.run V fuel e).state.critical, p.2 = false

/-- **When an entry is calm**, for the terminal behind the gate: what it draws before it is
done with its critical operations does not scroll. -/
def Calm (V : VideoMode) (t : Terminal) : Entry → Prop
  | .keyboard fg scancode => t.bufferIsFull = false →
      let u := t.setModifiers scancode
      if u.pressesCtrl cKey scancode then ∀ p, fg = some p →
        let s := t.console.selectFd 1
        let string := [94, 67, newLineChar]
        ¬s.Scrolls V string ∧ (p.running = false →
          ¬(string.foldl (typed V) s).ErasingScrolls V (t.pending.length - 1))
      else if u.pressesCtrl dKey scancode then
        t.pending ≠ [] → ¬t.console.CharScrolls V newLineChar
      else u.keyboardOptions &&& showBufferWhileTyping ≠ 0 → ∀ ascii,
        u.typedChar scancode = some ascii →
          if ascii = tabulatorChar then
            -- every blank up to the end of the expansion
            ∀ k, (∀ j < k, goesOn ((pushBlank V true)^[j + 1] u)) →
              ¬((fun s => s.putGlyph V blankChar)^[k] t.console).GlyphScrolls V
          else ¬t.console.CharScrolls V ascii
  | .timer c s =>
      t.toggles { c with ticks := c.ticks + 1 } → s.UsesQueues → ¬t.console.GlyphScrolls V
  | .readInBackground =>
      t.console.fileDescriptor ≠ 0 → ¬t.console.Scrolls V refusal.dropLast
  | .clearInput => ¬t.console.ErasingScrolls V (t.pending.length - 1)
  | _ => True

/-! ## What is in the list -/

/-- Everything critical so far found interrupts off. -/
def Off (t : Terminal) : Prop := ∀ p ∈ t.critical, p.2 = false

theorem enter_off (t : Terminal) : t.enter.Off ∧ t.enter.console.interrupts = false :=
  ⟨fun p hp => by simp [enter] at hp, rfl⟩

theorem off_of_eq (h : u.critical = t.critical) : u.Off ↔ t.Off := by
  unfold Off
  rw [h]

/-- **One operation more** is off if interrupts are. -/
theorem off_log (op : Critical) (h : u.critical = (op, t.console.interrupts) :: t.critical) :
    u.Off ↔ t.Off ∧ t.console.interrupts = false := by
  unfold Off
  rw [h, List.forall_mem_cons]
  tauto

theorem off_semPost : t.semPost.Off ↔ t.Off ∧ t.console.interrupts = false := off_log .semPost rfl

theorem off_callKeyFn (scancode : UInt8) : (t.callKeyFn scancode).Off ↔ t.Off :=
  off_of_eq (callKeyFn_critical scancode)

theorem off_logAll (ops : List Critical) : ∀ t : Terminal, (t.logAll ops).Off ↔
    t.Off ∧ (ops ≠ [] → t.console.interrupts = false) := by
  induction ops with
  | nil => simp [logAll]
  | cons op ops ih =>
      intro t
      have hrest : t.logAll (op :: ops) = (t.log op).logAll ops := rfl
      have hone : (t.log op).Off ↔ t.Off ∧ t.console.interrupts = false := off_log op rfl
      have hconsole : (t.log op).console = t.console := rfl
      rw [hrest, ih, hone, hconsole]
      simp only [ne_eq, reduceCtorEq, not_false_eq_true, true_imp_iff]
      tauto

/-- Operations that are each followed by something that draws. -/
theorem off_iterate {f : Terminal → Terminal}
    (hlog : ∀ u, (f u).Off ↔ u.Off ∧ u.console.interrupts = false)
    (hdraw : ∀ u, (f u).console.interrupts = false → u.console.interrupts = false) (k : ℕ) :
    (f^[k + 1] t).Off ↔ t.Off ∧ (f^[k] t).console.interrupts = false := by
  induction k with
  | zero => exact hlog t
  | succ k ih =>
      have hback : (f^[k + 1] t).console.interrupts = false →
          (f^[k] t).console.interrupts = false := by
        rw [Function.iterate_succ_apply']
        exact hdraw _
      rw [Function.iterate_succ_apply', hlog, ih]
      tauto

/-! ## Characters that are typed or printed -/

/-- A character that is neither a tabulator nor a carriage return. -/
def Plain (ascii : Int8) : Prop := ascii ≠ carriageReturnChar ∧ ascii ≠ tabulatorChar

instance (ascii : Int8) : Decidable (Plain ascii) := inferInstanceAs (Decidable (_ ∧ _))

/-- `addCharToBuffer` of such a character. -/
def pushTyped (V : VideoMode) (showOutput : Bool) (ascii : Int8) (t : Terminal) : Terminal :=
  { t.log (.ring (.push ascii)) with
    buffer := Function.update t.buffer t.toWrite ascii
    toWrite := incMod t.toWrite bufferSize
    console := if showOutput then t.console.typed V ascii else t.console }

theorem addChar_typed {ascii : Int8} (h : Plain ascii) (V : VideoMode) (fuel : ℕ) (t : Terminal)
    (showOutput : Bool) :
    t.addCharToBuffer V fuel ascii showOutput = .done (pushTyped V showOutput ascii t) := by
  rw [addCharToBuffer, if_pos h.2]
  cases showOutput with
  | false => rfl
  | true =>
      unfold pushChar
      dsimp only
      rw [if_pos rfl, putChar, putChar_typed fuel h.1 h.2]
      rfl

theorem off_pushTyped (showOutput : Bool) (ascii : Int8) :
    (pushTyped V showOutput ascii t).Off ↔ t.Off ∧ t.console.interrupts = false :=
  off_log (.ring (.push ascii)) rfl

theorem pushTyped_off (showOutput : Bool) (ascii : Int8) :
    (pushTyped V showOutput ascii t).console.interrupts = false ↔
      t.console.interrupts = false ∧ (showOutput = true → ¬t.console.CharScrolls V ascii) := by
  unfold pushTyped
  cases showOutput with
  | false => simp
  | true => simp [typed_off]

/-- Characters that are printed to the screen. -/
theorem print_typed {string : List Int8} (V : VideoMode) (fuel : ℕ) :
    ∀ t : Terminal, (∀ ascii ∈ string, Plain ascii) →
      forEach (printChar V fuel false) string t =
        .done { t with console := string.foldl (typed V) t.console } := by
  induction string with
  | nil => exact fun _ _ => rfl
  | cons ascii string ih =>
      intro t hall
      have hplain := hall ascii List.mem_cons_self
      have hfirst : printChar V fuel false ascii t =
          .done { t with console := t.console.typed V ascii } := by
        show t.putChar V fuel ascii = _
        rw [putChar, putChar_typed fuel hplain.1 hplain.2]
        rfl
      rw [forEach, hfirst, Outcome.andThen_done, ih _
        fun c hc => hall c (List.mem_cons_of_mem _ hc)]
      rfl

theorem foldl_typed_off {string : List Int8} : ∀ {s : Console},
    (string.foldl (typed V) s).interrupts = false ↔ s.interrupts = false ∧ ¬s.Scrolls V string := by
  induction string with
  | nil => intro s; simp [Scrolls]
  | cons ascii string ih =>
      intro s
      rw [List.foldl_cons, ih, typed_off, Scrolls]
      tauto

/-- **Characters that are printed into the ring** are pushed with interrupts off if none
but the last of them scrolls. -/
theorem off_pushes {string : List Int8} : ∀ {t : Terminal},
    (string.foldl (fun t ascii => pushTyped V true ascii t) t).Off ↔
      t.Off ∧
        (string ≠ [] → t.console.interrupts = false ∧ ¬t.console.Scrolls V string.dropLast) := by
  induction string with
  | nil => simp
  | cons ascii string ih =>
      intro t
      rw [List.foldl_cons, ih, off_pushTyped, pushTyped_off]
      cases string with
      | nil => simp [Scrolls]
      | cons c string =>
          have hconsole : (pushTyped V true ascii t).console = t.console.typed V ascii := rfl
          rw [hconsole, List.dropLast_cons_cons, Scrolls]
          simp only [ne_eq, reduceCtorEq, not_false_eq_true, true_imp_iff]
          tauto

/-! ## Characters that are taken off -/

theorem off_dropLast : (t.dropLast V).Off ↔ t.Off ∧ t.console.interrupts = false :=
  off_log (.ring .popBack) rfl

theorem dropLast_off : (t.dropLast V).console.interrupts = false ↔
    t.console.interrupts = false ∧ ¬t.console.EraseScrolls V := clearPreviousCharacter_off

theorem drops_off : ∀ {k : ℕ} {t : Terminal}, ((dropLast V)^[k] t).console.interrupts = false ↔
    t.console.interrupts = false ∧ ¬t.console.ErasingScrolls V k := by
  intro k
  induction k with
  | zero => intro t; simp [ErasingScrolls]
  | succ k ih =>
      intro t
      have hconsole : (t.dropLast V).console = t.console.clearPreviousCharacter V := rfl
      rw [Function.iterate_succ_apply, ih, dropLast_off, hconsole, ErasingScrolls]
      tauto

theorem erasingScrolls_mono : ∀ {k n : ℕ} {s : Console}, k ≤ n → s.ErasingScrolls V k →
    s.ErasingScrolls V n := by
  intro k
  induction k with
  | zero => exact fun _ h => h.elim
  | succ k ih =>
      intro n s hn h
      cases n with
      | zero => exact absurd hn (by omega)
      | succ n =>
          rcases h with hfirst | hrest
          · exact .inl hfirst
          · exact .inr (ih (by omega) hrest)

/-- The loop takes off as many characters as there are, or as it has rounds. -/
theorem clearInput_state {r : KeyRing} (h : t.Shows r) (fuel : ℕ) :
    (t.clearInput V fuel).state = (dropLast V)^[min r.count (fuel + 1)] t := by
  have hcleared : ∀ {t : Terminal} {r : KeyRing}, t.Shows r →
      t.clearBuffer V = (r.count, (dropLast V)^[min r.count 1] t) := by
    intro t r h
    have hcount : subMod t.toWrite t.toRead bufferSize = r.count := by
      rw [h.toWrite, h.toRead]
      rfl
    unfold clearBuffer
    simp only [hcount]
    split
    · rename_i hzero
      rw [hzero]
      rfl
    · have hone : min r.count 1 = 1 := by omega
      rw [hone]
      rfl
  have hloop : ∀ fuel {t : Terminal} {r : KeyRing}, t.Shows r →
      (whileDo (fun p : ℕ × Terminal => decide (p.1 ≠ 0)) (fun p => .done (p.2.clearBuffer V)) fuel
        (t.clearBuffer V)).state.2 = (dropLast V)^[min r.count (fuel + 1)] t := by
    intro fuel
    induction fuel with
    | zero =>
        intro t r h
        rw [hcleared h]
        rfl
    | succ fuel ih =>
        intro t r h
        rw [whileDo, hcleared h]
        by_cases hzero : r.count = 0
        · rw [if_neg (by simp [hzero]), hzero]
          rfl
        · have hone : min r.count 1 = 1 := by omega
          obtain ⟨hcount, -⟩ := KeyRing.popBack_spec (r := r) (by omega)
          have hnext := ih ((acts_dropLast (V := V) t).ring r h)
          have hmin : min r.count (fuel + 1 + 1) = min (r.count - 1) (fuel + 1) + 1 := by omega
          rw [if_pos (by simp [hzero]), hone, hmin, Function.iterate_succ_apply, ← hcount]
          exact hnext
  unfold clearInput doWhile
  rw [Outcome.state_map, Outcome.andThen_done]
  exact hloop fuel h

/-- **Emptying the input** is atomic if no character but the last one scrolls. -/
theorem clearInput_atomic {r : KeyRing} (h : t.Shows r) :
    (∀ fuel, (t.clearInput V fuel).state.Off) ↔ t.Off ∧ (r.count ≠ 0 →
      t.console.interrupts = false ∧ ¬t.console.ErasingScrolls V (r.count - 1)) := by
  have hiterate : ∀ k, ((dropLast V)^[k + 1] t).Off ↔
      t.Off ∧ t.console.interrupts = false ∧ ¬t.console.ErasingScrolls V k := by
    intro k
    rw [off_iterate (fun u => off_dropLast) (fun u hu => (dropLast_off.mp hu).1), drops_off]
  simp only [clearInput_state h]
  rcases Nat.eq_zero_or_pos r.count with hzero | hpos
  · simp [hzero]
  · constructor
    · intro hall
      have hlast := hall r.count
      have hmin : min r.count (r.count + 1) = r.count - 1 + 1 := by omega
      rw [hmin, hiterate] at hlast
      exact ⟨hlast.1, fun _ => hlast.2⟩
    · rintro ⟨hoff, hcalm⟩ fuel
      obtain ⟨hinterrupts, herasing⟩ := hcalm (by omega)
      obtain ⟨k, hk⟩ : ∃ k, min r.count (fuel + 1) = k + 1 := ⟨min r.count (fuel + 1) - 1, by omega⟩
      rw [hk, hiterate]
      exact ⟨hoff, hinterrupts, fun h => herasing (erasingScrolls_mono (by omega) h)⟩

/-! ## A tabulator -/

theorem off_pushBlank (showOutput : Bool) (t : Terminal) :
    (pushBlank V showOutput t).Off ↔ t.Off ∧ t.console.interrupts = false :=
  off_log (.ring (.push blankChar)) rfl

theorem blanks_off {showOutput : Bool} {k : ℕ} {s : Console} :
    (blanks V showOutput k s).interrupts = false ↔ s.interrupts = false ∧ (showOutput = true →
      ∀ i < k, ¬((fun s => s.putGlyph V blankChar)^[i] s).GlyphScrolls V) := by
  cases showOutput with
  | false => simp [blanks]
  | true =>
      simp only [blanks, if_true, true_imp_iff]
      induction k with
      | zero => simp
      | succ k ih =>
          rw [Function.iterate_succ_apply', putGlyph_off, ih]
          constructor
          · rintro ⟨⟨hoff, hall⟩, hlast⟩
            refine ⟨hoff, fun i hi => ?_⟩
            rcases Nat.lt_succ_iff_lt_or_eq.mp hi with hi | rfl
            · exact hall i hi
            · exact hlast
          · rintro ⟨hoff, hall⟩
            exact ⟨⟨hoff, fun i hi => hall i (by omega)⟩, hall k (by omega)⟩

/-- The blanks so far were pushed with interrupts off if none but the last scrolled. -/
theorem off_blanks (showOutput : Bool) (k : ℕ) : ((pushBlank V showOutput)^[k + 1] t).Off ↔
    t.Off ∧ (blanks V showOutput k t.console).interrupts = false := by
  rw [off_iterate (off_pushBlank showOutput), (iterate_pushBlank showOutput k).2.1]
  intro u hu
  have hone : (pushBlank V showOutput u).console = blanks V showOutput 1 u.console := by
    cases showOutput <;> rfl
  rw [hone, blanks_off] at hu
  exact hu.1

/-- **A tabulator** is atomic if no blank that it comes to scrolls. -/
theorem tab_atomic (showOutput : Bool) (scancode : UInt8) (hoff : t.Off)
    (hinterrupts : t.console.interrupts = false) :
    (∀ fuel, ((t.addCharToBuffer V fuel tabulatorChar showOutput).andThen
      fun v => .done (v.semPost.callKeyFn scancode)).state.Off) ↔
    (showOutput = true → ∀ k, (∀ j < k, goesOn ((pushBlank V showOutput)^[j + 1] t)) →
      ¬((fun s => s.putGlyph V blankChar)^[k] t.console).GlyphScrolls V) := by
  have hposted : ∀ k, (((pushBlank V showOutput)^[k] t).semPost.callKeyFn scancode).Off ↔
      ((pushBlank V showOutput)^[k] t).Off ∧ (blanks V showOutput k t.console).interrupts =
        false := by
    intro k
    rw [off_callKeyFn, off_semPost, (iterate_pushBlank showOutput k).2.1]
  constructor
  · intro hall hshow k hgoes
    have hblanks : (blanks V showOutput (k + 1) t.console).interrupts = false := by
      have hrun := hall (k + 1)
      cases hlast : goesOn ((pushBlank V showOutput)^[k + 1] t) with
      | false =>
          rw [tab_done.mpr ⟨k, by omega, rfl, hgoes, hlast⟩] at hrun
          exact ((hposted (k + 1)).mp hrun).2
      | true =>
          -- cut off after the next blank was pushed
          have hmore :
              ∀ j < k + 1, goesOn ((pushBlank V showOutput)^[j] (pushBlank V showOutput t)) := by
            intro j hj
            rcases Nat.lt_succ_iff_lt_or_eq.mp hj with hj | rfl
            · exact hgoes j hj
            · exact hlast
          rw [tab_loop, whileDo_function_cut _ hmore] at hrun
          exact ((off_blanks showOutput (k + 1)).mp hrun).2
    exact (blanks_off.mp hblanks).2 hshow k (by omega)
  · intro hcalm fuel
    have hloop : ∃ m, (t.addCharToBuffer V fuel tabulatorChar showOutput).state =
        (pushBlank V showOutput)^[m + 1] t ∧
          ∀ j < m, goesOn ((pushBlank V showOutput)^[j + 1] t) := by
      rw [tab_loop]
      exact whileDo_function_state (pushBlank V showOutput) fuel (pushBlank V showOutput t)
    obtain ⟨m, hstate, hgoes⟩ := hloop
    have hblanks : ∀ k ≤ m + 1, (blanks V showOutput k t.console).interrupts = false := by
      intro k hk
      refine blanks_off.mpr ⟨hinterrupts, fun hshow i hi => hcalm hshow i fun j hj => ?_⟩
      exact hgoes j (by omega)
    have hstop : ((pushBlank V showOutput)^[m + 1] t).Off :=
      (off_blanks showOutput m).mpr ⟨hoff, hblanks m (by omega)⟩
    cases hresult : t.addCharToBuffer V fuel tabulatorChar showOutput with
    | done v =>
        rw [hresult] at hstate
        obtain rfl : v = _ := hstate
        exact (hposted (m + 1)).mpr ⟨hstop, hblanks (m + 1) (le_refl _)⟩
    | cut v =>
        rw [hresult] at hstate
        obtain rfl : v = _ := hstate
        exact hstop

/-! ## The entries that draw -/

theorem setModifiers_critical (scancode : UInt8) :
    (t.setModifiers scancode).critical = t.critical := by
  unfold setModifiers
  split
  · rfl
  · split
    · rfl
    · split <;> rfl

/-- Ctrl+C prints before it kills, and takes the characters off after that. -/
theorem handleCtrlC_atomic {r : KeyRing} (fg : Option Foreground) (h : t.Shows r) (hoff : t.Off)
    (hinterrupts : t.console.interrupts = false) :
    (∀ fuel, (t.handleCtrlC V fuel fg).state.Off) ↔ ∀ p, fg = some p →
      ¬(t.console.selectFd 1).Scrolls V [94, 67, newLineChar] ∧ (p.running = false →
        ¬([94, 67, newLineChar].foldl (typed V) (t.console.selectFd 1)).ErasingScrolls V
          (r.count - 1)) := by
  cases fg with
  | none => exact ⟨fun _ p hp => (by cases hp), fun _ _ => hoff⟩
  | some p =>
      have hplain : ∀ ascii ∈ [94, 67, newLineChar], Plain ascii := by
        simp only [List.forall_mem_cons]
        exact ⟨by decide, by decide, by decide, List.forall_mem_nil _⟩
      obtain ⟨u, hu⟩ : ∃ u : Terminal, u = { t with
          console := [94, 67, newLineChar].foldl (typed V) (t.console.selectFd 1) } := ⟨_, rfl⟩
      have hprint : ∀ fuel, t.printToFd V fuel 1 [94, 67, newLineChar] = .done u := by
        intro fuel
        unfold printToFd
        have hscreen : decide ((1 : ℤ) ≠ t.console.fileDescriptor ∧ (1 : ℤ) = 0) = false := by simp
        rw [hscreen, print_typed V fuel _ hplain, hu]
      have hstart : (t.console.selectFd 1).interrupts = false := by
        unfold selectFd
        split
        · exact hinterrupts
        · exact hinterrupts
      have huOff : u.Off := by rw [hu]; exact hoff
      have hscrolls : u.console.interrupts = false ↔
          ¬(t.console.selectFd 1).Scrolls V [94, 67, newLineChar] := by
        rw [hu, foldl_typed_off]
        exact and_iff_right hstart
      have hkill : (u.log (.kill p.pid)).Off ↔
          ¬(t.console.selectFd 1).Scrolls V [94, 67, newLineChar] := by
        rw [off_log (.kill p.pid) rfl, hscrolls]
        exact and_iff_right huOff
      have hshows : (u.log (.kill p.pid)).Shows r := by
        rw [hu]
        exact ⟨h.buffer, h.toWrite, h.toRead⟩
      have hinput := clearInput_atomic (V := V) hshows
      have hconsole : (u.log (.kill p.pid)).console = u.console := rfl
      have hfold : u.console = [94, 67, newLineChar].foldl (typed V) (t.console.selectFd 1) := by
        rw [hu]
      rw [hkill, hconsole, hscrolls, hfold] at hinput
      have heq : ∀ fuel, t.handleCtrlC V fuel (some p) =
          if p.running then .done (u.log (.kill p.pid))
          else (u.log (.kill p.pid)).clearInput V fuel := by
        intro fuel
        unfold handleCtrlC
        dsimp only
        rw [hprint, Outcome.andThen_done]
      simp only [heq, Option.some.injEq, forall_eq']
      cases hrunning : p.running with
      | true =>
          simp only [if_true, Outcome.state_done, hkill, reduceCtorEq, false_imp_iff, and_true]
          exact ⟨fun h => h 0, fun h _ => h⟩
      | false =>
          simp only [Bool.false_eq_true, if_false, true_imp_iff]
          rw [hinput]
          constructor
          · rintro ⟨hprinted, hrest⟩
            refine ⟨hprinted, fun herasing => ?_⟩
            by_cases hzero : r.count = 0
            · rw [hzero] at herasing
              exact herasing
            · exact (hrest hzero).2 herasing
          · rintro ⟨hprinted, hrest⟩
            exact ⟨hprinted, fun _ => ⟨hprinted, hrest⟩⟩

/-- Ctrl+D ends the line before it posts. -/
theorem handleCtrlD_atomic (hoff : t.Off) (hinterrupts : t.console.interrupts = false) :
    (∀ fuel, (t.handleCtrlD V fuel).state.Off) ↔
      (t.toWrite ≠ t.toRead → ¬t.console.CharScrolls V newLineChar) := by
  have heof : Plain endOfFile := by decide
  have hline : Plain newLineChar := by decide
  unfold handleCtrlD
  by_cases hempty : t.toWrite = t.toRead
  · simp only [if_pos hempty, addChar_typed heof, Outcome.andThen_done, Outcome.state_done]
    refine iff_of_true (fun _ => ?_) fun hne => absurd hempty hne
    rw [off_semPost, off_pushTyped, pushTyped_off]
    exact ⟨⟨hoff, hinterrupts⟩, hinterrupts, by simp⟩
  · simp only [if_neg hempty, addChar_typed heof, addChar_typed hline, Outcome.andThen_done,
      Outcome.state_done]
    have hposted : ∀ u : Terminal, u.semPost.console = u.console := fun _ => rfl
    simp only [off_semPost, off_pushTyped, pushTyped_off, hposted, hoff, hinterrupts, true_and,
      true_imp_iff, Bool.false_eq_true, false_imp_iff, and_true, and_self]
    exact ⟨fun h _ => h 0, fun h _ => h hempty⟩

/-- A key that types is pushed, shown, and posted. -/
theorem typed_atomic {ascii : Int8} (showOutput : Bool) (scancode : UInt8) (hoff : t.Off)
    (hinterrupts : t.console.interrupts = false) (hcr : ascii ≠ carriageReturnChar) :
    (∀ fuel, ((t.addCharToBuffer V fuel ascii showOutput).andThen
      fun v => .done (v.semPost.callKeyFn scancode)).state.Off) ↔ (showOutput = true →
        if ascii = tabulatorChar then ∀ k, (∀ j < k, goesOn ((pushBlank V true)^[j + 1] t)) →
          ¬((fun s => s.putGlyph V blankChar)^[k] t.console).GlyphScrolls V
        else ¬t.console.CharScrolls V ascii) := by
  by_cases htab : ascii = tabulatorChar
  · subst htab
    rw [tab_atomic showOutput scancode hoff hinterrupts, if_pos rfl]
    cases showOutput with
    | false => simp
    | true => rfl
  · have hplain : Plain ascii := ⟨hcr, htab⟩
    rw [if_neg htab]
    simp only [addChar_typed hplain, Outcome.andThen_done, Outcome.state_done, off_callKeyFn,
      off_semPost, off_pushTyped, pushTyped_off, hoff, hinterrupts, true_and]
    exact ⟨fun h => h 0, fun h _ => h⟩

/-- **A key is atomic exactly if it is calm.** -/
theorem keyboard_atomic {r : KeyRing} (fg : Option Foreground) (scancode : UInt8) (h : t.Shows r)
    (hoff : t.Off) (hinterrupts : t.console.interrupts = false) :
    (∀ fuel, (t.keyboardHandler V fuel fg scancode).state.Off) ↔
      Calm V t (.keyboard fg scancode) := by
  cases hfull : t.bufferIsFull with
  | true =>
      refine iff_of_true (fun fuel => ?_) fun hno => absurd (hfull.symm.trans hno) (by simp)
      rw [keyboardHandler, if_pos hfull]
      exact (off_log (.ring .reset) rfl).mpr ⟨hoff, hinterrupts⟩
  | false =>
      obtain ⟨u, hu⟩ : ∃ u, t.setModifiers scancode = u := ⟨_, rfl⟩
      have hmodifiers : Acts t [] u := hu ▸ acts_setModifiers scancode
      have hushows : u.Shows r := hmodifiers.ring r h
      have hconsole : u.console = t.console := hu ▸ (t.setModifiers_same scancode).2
      have huoff : u.Off := (off_of_eq (hu ▸ setModifiers_critical scancode)).mpr hoff
      have huinterrupts : u.console.interrupts = false := by rw [hconsole]; exact hinterrupts
      have hlength : t.pending.length = r.count := by rw [h.pending_eq, KeyRing.length_pending]
      unfold Calm
      simp only [hfull, hu, true_imp_iff, hlength]
      cases hc : u.pressesCtrl cKey scancode with
      | true =>
          have heq : ∀ fuel, t.keyboardHandler V fuel fg scancode = u.handleCtrlC V fuel fg := by
            intro fuel
            rcases handler_cases V fuel fg scancode hfull hu with ⟨-, heq⟩ | ⟨hno, -⟩ | ⟨hno, -⟩
            · exact heq
            · exact absurd (hc.symm.trans hno) (by simp)
            · exact absurd (hc.symm.trans hno) (by simp)
          simp only [heq, if_true]
          rw [handleCtrlC_atomic fg hushows huoff huinterrupts, hconsole]
      | false =>
          simp only [Bool.false_eq_true, if_false]
          cases hd : u.pressesCtrl dKey scancode with
          | true =>
              have heq : ∀ fuel, t.keyboardHandler V fuel fg scancode = u.handleCtrlD V fuel := by
                intro fuel
                rcases handler_cases V fuel fg scancode hfull hu with
                  ⟨hno, -⟩ | ⟨-, -, heq⟩ | ⟨-, hno, -⟩
                · exact absurd (hno.symm.trans hc) (by simp)
                · exact heq
                · exact absurd (hd.symm.trans hno) (by simp)
              have hempty : u.toWrite ≠ u.toRead ↔ t.pending ≠ [] := by
                rw [hushows.toWrite, hushows.toRead, Ne, ← KeyRing.count_eq_zero, ← hlength,
                  List.length_eq_zero_iff]
              simp only [heq, if_true]
              rw [handleCtrlD_atomic huoff huinterrupts, hempty, hconsole]
          | false =>
              simp only [Bool.false_eq_true, if_false]
              cases htyped : u.typedChar scancode with
              | none =>
                  refine iff_of_true (fun fuel => ?_) fun _ ascii hsome => by cases hsome
                  rcases handler_cases V fuel fg scancode hfull hu with
                    ⟨hno, -⟩ | ⟨-, hno, -⟩ | ⟨-, -, ⟨_, hsome, -⟩ | ⟨-, v, hv, -, hlog⟩⟩
                  · exact absurd (hno.symm.trans hc) (by simp)
                  · exact absurd (hno.symm.trans hd) (by simp)
                  · exact absurd (hsome.symm.trans htyped) (by simp)
                  · rw [hv]
                    split at hlog
                    · exact (off_log (.ring .popBack) hlog).mpr ⟨huoff, huinterrupts⟩
                    · exact (off_of_eq hlog).mpr huoff
              | some ascii =>
                  have heq : ∀ fuel, t.keyboardHandler V fuel fg scancode =
                      (u.addCharToBuffer V fuel ascii
                        (u.keyboardOptions &&& showBufferWhileTyping != 0)).andThen
                          fun v => .done (v.semPost.callKeyFn scancode) := by
                    intro fuel
                    rcases handler_cases V fuel fg scancode hfull hu with
                      ⟨hno, -⟩ | ⟨-, hno, -⟩ | ⟨-, -, ⟨_, hsome, heq⟩ | ⟨hnone, -⟩⟩
                    · exact absurd (hno.symm.trans hc) (by simp)
                    · exact absurd (hno.symm.trans hd) (by simp)
                    · obtain rfl : _ = ascii := Option.some.inj (hsome.symm.trans htyped)
                      exact heq
                    · exact absurd (htyped.symm.trans hnone) (by simp)
                  simp only [heq, Option.some.injEq, forall_eq']
                  rw [typed_atomic _ scancode huoff huinterrupts (typedChar_ne_return htyped),
                    hconsole, bne_iff_ne]

theorem toggleCursor_critical (c : Clock) : (t.toggleCursor V c).critical = t.critical := by
  unfold toggleCursor
  split
  · rfl
  · split
    · rfl
    · split <;> rfl

theorem toggleCursor_off (c : Clock) : (t.toggleCursor V c).console.interrupts = false ↔
    t.console.interrupts = false ∧ (t.toggles c = true → ¬t.console.GlyphScrolls V) := by
  unfold toggleCursor toggles
  by_cases hoptions : t.keyboardOptions = 0 ∨ t.keyboardOptions = modifyBuffer
  · rw [if_pos hoptions]
    rcases hoptions with hnone | hmodify
    · simp [hnone]
    · simp [hmodify]
  · rw [not_or] at hoptions
    rw [if_neg (not_or.mpr hoptions)]
    by_cases hshow : c.toggle = 1 ∧ c.isShowing = false
    · rw [if_pos hshow]
      simp [hoptions.1, hoptions.2, hshow.1, hshow.2, showCursor_off]
    · rw [if_neg hshow]
      by_cases hhide : c.toggle = 0 ∧ c.isShowing = true
      · rw [if_pos hhide]
        simp [hoptions.1, hoptions.2, hhide.1, hhide.2, hideCursor_off]
      · rw [if_neg hhide]
        have hno : ¬(c.toggle = 1 ∧ c.isShowing = false ∨ c.toggle = 0 ∧ c.isShowing = true) :=
          fun h => h.elim hshow hhide
        simp [hoptions.1, hoptions.2, hno]

/-- The cursor is drawn before the context switch. -/
theorem timer_atomic (c : Clock) (s : Sched) (hoff : t.Off)
    (hinterrupts : t.console.interrupts = false) :
    ((t.toggleCursor V c).logAll s.switchOps).Off ↔
      (t.toggles c = true → s.UsesQueues → ¬t.console.GlyphScrolls V) := by
  have hcursor : (t.toggleCursor V c).Off := (off_of_eq (toggleCursor_critical c)).mpr hoff
  rw [off_logAll, toggleCursor_off, Ne, Sched.switchOps_eq_nil, not_not]
  simp only [hcursor, hinterrupts, true_and]
  tauto

/-- Every character of the message but the last one is followed by another. -/
theorem readInBackground_atomic (hoff : t.Off) (hinterrupts : t.console.interrupts = false) :
    (∀ fuel, (t.readInBackground V fuel).state.Off) ↔
      (t.console.fileDescriptor ≠ 0 → ¬t.console.Scrolls V refusal.dropLast) := by
  have hplain : ∀ ascii ∈ refusal, Plain ascii := refusal_plain
  have hconsole : t.console.selectFd 0 = t.console := by
    unfold selectFd
    split
    · rfl
    · rw [if_neg (by decide), if_neg (by decide)]
  have hpushes : ∀ (string : List Int8) (fuel : ℕ) (t : Terminal), (∀ ascii ∈ string, Plain ascii) →
      forEach (printChar V fuel true) string t =
        .done (string.foldl (fun t ascii => pushTyped V true ascii t) t) := by
    intro string fuel
    induction string with
    | nil => exact fun _ _ => rfl
    | cons ascii string ih =>
        intro t hall
        have hfirst : printChar V fuel true ascii t = .done (pushTyped V true ascii t) :=
          addChar_typed (hall ascii List.mem_cons_self) V fuel t true
        rw [forEach, hfirst, Outcome.andThen_done, ih _
          fun c hc => hall c (List.mem_cons_of_mem _ hc)]
        rfl
  by_cases hfd : t.console.fileDescriptor = 0
  · have hscreen : decide ((0 : ℤ) ≠ t.console.fileDescriptor ∧ (0 : ℤ) = 0) = false := by
      simp [hfd]
    refine iff_of_true (fun fuel => ?_) fun hne => absurd hfd hne
    unfold readInBackground printToFd
    rw [hconsole, hscreen, print_typed V fuel t hplain]
    generalize refusal.foldl (typed V) t.console = s
    exact hoff
  · have hring : decide ((0 : ℤ) ≠ t.console.fileDescriptor ∧ (0 : ℤ) = 0) = true := by
      simpa using Ne.symm hfd
    have hne : refusal ≠ [] := by decide
    have heq : ∀ fuel, t.readInBackground V fuel =
        .done (refusal.foldl (fun t ascii => pushTyped V true ascii t) t) := by
      intro fuel
      unfold readInBackground printToFd
      rw [hconsole, hring]
      exact hpushes refusal fuel t hplain
    simp only [heq, Outcome.state_done, off_pushes, hoff, hinterrupts, true_and]
    exact ⟨fun h _ => h 0 hne, fun h _ _ => h hfd⟩

/-! ## The entries that draw nothing, or nothing before they are done -/

theorem semWait_quiet (h : t.Off ∧ t.console.interrupts = false) :
    t.semWait.state.Off ∧ t.semWait.state.console.interrupts = false := by
  unfold semWait
  split
  · exact ⟨(off_log .semWait rfl).mpr h, h.2⟩
  · exact ⟨(off_log .semWait rfl).mpr h, h.2⟩

theorem awaitKey_quiet (h : t.Off ∧ t.console.interrupts = false) :
    t.awaitKey.state.Off ∧ t.awaitKey.state.console.interrupts = false :=
  whileDo_keeps (I := fun u : Terminal => u.Off ∧ u.console.interrupts = false)
    (fun _ hu _ => semWait_quiet hu) _ t h

theorem taken_quiet {o : Outcome Terminal}
    (h : o.state.Off ∧ o.state.console.interrupts = false) :
    (o.andThen fun t => .done t.takeChar.2).state.Off := by
  cases o with
  | done u => exact (off_log (.ring .popFront) rfl).mpr h
  | cut u => exact h.1

theorem writeToFd_quiet (fuel : ℕ) {fd : ℤ} (hfd : fd ≠ 0) (string : List Int8) (h : t.Off) :
    (t.writeToFd V fuel fd string).state.Off := by
  refine forEach_keeps (P := fun _ _ => True) (fun ascii u hu _ => ?_) string t
    (along_of_forall (fun _ _ => trivial) string t) h
  unfold printToFd
  have hscreen : decide (fd ≠ u.console.fileDescriptor ∧ fd = 0) = false := by simp [hfd]
  rw [hscreen]
  refine forEach_keeps (P := fun _ _ => True) (fun ascii w hw _ => ?_) [ascii] _
    (along_of_forall (fun _ _ => trivial) [ascii] _) hu
  show (w.putChar V fuel ascii).state.Off
  rw [putChar, Outcome.state_map]
  exact hw

/-- **Critical sections run with interrupts off exactly where nothing scrolls before they
end**, for every entry and every state of the console and the ring. -/
theorem interrupts_off (V : VideoMode) (t : Terminal) (hwrite : t.toWrite < bufferSize)
    (hread : t.toRead < bufferSize) (e : Entry) : Atomic V t e ↔ Calm V t.enter e := by
  obtain ⟨hoff, hinterrupts⟩ := t.enter_off
  have hshows : t.enter.Shows ⟨t.buffer, t.toWrite, t.toRead, hwrite, hread⟩ := ⟨rfl, rfl, rfl⟩
  have hquiet : ∀ {e}, (∀ fuel, (t.enter.run V fuel e).state.Off) → Calm V t.enter e →
      (Atomic V t e ↔ Calm V t.enter e) := fun hrun hcalm => iff_of_true hrun hcalm
  cases e with
  | keyboard fg scancode => exact keyboard_atomic fg scancode hshows hoff hinterrupts
  | timer c s =>
      have htimer := timer_atomic (V := V) { c with ticks := c.ticks + 1 } s hoff hinterrupts
      exact ⟨fun h => htimer.mp (h 0), fun h _ => htimer.mpr h⟩
  | readInBackground => exact readInBackground_atomic hoff hinterrupts
  | clearInput =>
      have hinput := clearInput_atomic (V := V) hshows
      have hlength : t.enter.pending.length = subMod t.toWrite t.toRead bufferSize := by
        rw [hshows.pending_eq, KeyRing.length_pending]
        rfl
      unfold Calm
      rw [hlength]
      refine hinput.trans ⟨fun h herasing => ?_, fun h => ⟨hoff, fun _ => ⟨hinterrupts, h⟩⟩⟩
      by_cases hzero : subMod t.toWrite t.toRead bufferSize = 0
      · rw [hzero] at herasing
        exact herasing
      · exact (h.2 hzero).2 herasing
  | read ops =>
      refine hquiet (fun fuel => ?_) trivial
      exact taken_quiet (awaitKey_quiet (t := t.enter.startReading ops) ⟨hoff, hinterrupts⟩)
  | wakeUp =>
      refine hquiet (fun fuel => ?_) trivial
      exact taken_quiet (Outcome.andThen_keeps
        (I := fun u : Terminal => u.Off ∧ u.console.interrupts = false)
        (semWait_quiet ⟨hoff, hinterrupts⟩) fun u _ hu => awaitKey_quiet hu)
  | write toStderr string =>
      refine hquiet (fun fuel => ?_) trivial
      apply writeToFd_quiet fuel _ string hoff
      split <;> decide
  | clear => exact hquiet (fun _ => hoff) trivial
  | increaseFontSize => exact hquiet (fun _ => hoff) trivial
  | decreaseFontSize => exact hquiet (fun _ => hoff) trivial
  | setFontSize size => exact hquiet (fun _ => hoff) trivial
  | call ops => exact hquiet (fun _ => (off_logAll ops _).mpr ⟨hoff, fun _ => hinterrupts⟩) trivial

/-- A letter that is echoed in the first line. -/
theorem interrupts_off_letter :
    Atomic smallWindow (initial.startReading showBufferWhileTyping) (.keyboard none 0x1E) := by
  refine (interrupts_off smallWindow _ (by decide) (by decide) _).mpr ?_
  intro _ u _ ascii htyped
  obtain rfl : ascii = 97 := by
    have hletter : Terminal.typedChar
        ((initial.startReading showBufferWhileTyping).enter.setModifiers 0x1E) 0x1E = some 97 := by
      decide
    exact Option.some.inj (htyped.symm.trans hletter)
  rw [if_neg (by decide)]
  rintro (⟨hwide, -⟩ | ⟨hline, -⟩)
  · exact absurd hwide (by decide)
  · exact absurd hline (by decide)

/-- **In the last line** a newline that is echoed turns interrupts on before the post, and
Ctrl+C turns them on before it kills. -/
theorem scrolled_interrupts : ∃ t : Terminal, (t.toWrite < bufferSize ∧ t.toRead < bufferSize) ∧
    (.semPost, true) ∈ (t.enter.run smallWindow 0 (.keyboard none returnKey)).state.critical ∧
    (.kill 3, true) ∈
      ({ t with controlKeyPressed := true }.enter.run smallWindow 0
        (.keyboard (some ⟨3, true⟩) cKey)).state.critical := by
  refine ⟨{ initial.startReading showBufferWhileTyping with
    console := { Console.initial with yBufferPosition := 152 } }, ?_⟩
  decide +kernel

end Terminal

end BareKernel
