import BareKernel.Terminal.BackgroundReads

/-!
# Tokens for the readers of the keyboard

A reader that finds nothing to read sleeps on the semaphore of the keyboard, and a key that is
recorded posts a token. Backspace changes the end of the line without a token, and a reader that
returns clears the options that another one has set.
-/

namespace BareKernel

open Loops Runs

namespace Terminal

variable {V : VideoMode} {fuel : ℕ} {t u v : Terminal}

/-! ## The driver posts, and leaves the options alone -/

/-- The options are the same, and no token is taken. -/
structure Posts (t u : Terminal) : Prop where
  options : u.keyboardOptions = t.keyboardOptions
  tokens : t.keyboardSemaphore ≤ u.keyboardSemaphore

theorem Posts.of_eq (hoptions : u.keyboardOptions = t.keyboardOptions)
    (htokens : u.keyboardSemaphore = t.keyboardSemaphore) : Posts t u := ⟨hoptions, htokens.ge⟩

theorem Posts.refl (t : Terminal) : Posts t t := .of_eq rfl rfl

theorem Posts.trans (h : Posts t u) (h' : Posts u v) : Posts t v :=
  ⟨h'.options.trans h.options, h.tokens.trans h'.tokens⟩

theorem posts_semPost (t : Terminal) : Posts t t.semPost := ⟨rfl, Nat.le_succ _⟩

theorem posts_putChar (t : Terminal) (ascii : Int8) : Posts t (t.putChar V fuel ascii).state := by
  rw [putChar, Outcome.state_map]
  exact .of_eq rfl rfl

theorem posts_pushChar (t : Terminal) (ascii : Int8) (showOutput : Bool) :
    Posts t (t.pushChar V fuel ascii showOutput).state := by
  have hpush : Posts t { t.log (.ring (.push ascii)) with
      buffer := Function.update t.buffer t.toWrite ascii
      toWrite := incMod t.toWrite bufferSize } := .of_eq rfl rfl
  unfold pushChar
  dsimp only
  split
  · exact hpush.trans (posts_putChar _ ascii)
  · exact hpush

theorem posts_addCharToBuffer (t : Terminal) (ascii : Int8) (showOutput : Bool) :
    Posts t (t.addCharToBuffer V fuel ascii showOutput).state := by
  unfold addCharToBuffer
  split
  · exact posts_pushChar t ascii showOutput
  · refine doWhile_keeps (fun u hu => ?_) fuel (Posts.refl t)
    exact hu.trans (posts_pushChar u blankChar showOutput)

theorem posts_printToFd (t : Terminal) (fd : ℤ) (string : List Int8) :
    Posts t (t.printToFd V fuel fd string).state := by
  have hselected : Posts t { t with console := t.console.selectFd fd } := .of_eq rfl rfl
  refine forEach_keeps (P := fun _ _ => True) (fun ascii u hu _ => ?_) string _
    (along_of_forall (fun _ _ => trivial) string _) hselected
  unfold printChar
  split
  · exact hu.trans (posts_addCharToBuffer u ascii true)
  · exact hu.trans (posts_putChar u ascii)

theorem posts_clearBuffer (t : Terminal) : Posts t (t.clearBuffer V).2 := by
  unfold clearBuffer
  dsimp only
  split
  · exact .refl t
  · exact .of_eq rfl rfl

theorem posts_clearInput (t : Terminal) : Posts t (t.clearInput V fuel).state := by
  unfold clearInput
  rw [Outcome.state_map]
  refine doWhile_keeps (I := fun p : ℕ × Terminal => Posts t p.2) (fun p hp => ?_) fuel (.refl t)
  exact hp.trans (posts_clearBuffer p.2)

theorem posts_setModifiers (t : Terminal) (scancode : UInt8) :
    Posts t (t.setModifiers scancode) := by
  unfold setModifiers
  split
  · exact .of_eq rfl rfl
  · split
    · exact .of_eq rfl rfl
    · split
      · exact .of_eq rfl rfl
      · exact .refl t

theorem posts_callKeyFn (t : Terminal) (scancode : UInt8) : Posts t (t.callKeyFn scancode) := by
  unfold callKeyFn
  split
  · exact .of_eq rfl rfl
  · exact .refl t

theorem posts_handleCtrlC (t : Terminal) (fg : Option Foreground) :
    Posts t (t.handleCtrlC V fuel fg).state := by
  unfold handleCtrlC
  split
  · exact .refl t
  · refine Outcome.andThen_keeps (posts_printToFd t 1 _) fun u _ hu => ?_
    have hkilled : ∀ pid, Posts t (u.log (.kill pid)) := fun pid => hu.trans (.of_eq rfl rfl)
    split
    · exact hkilled _
    · exact (hkilled _).trans (posts_clearInput _)

/-- A character is recorded, and what follows posts at least once. -/
theorem recorded_posts {o : Outcome Terminal} {f : Terminal → Terminal} (ho : Posts t o.state)
    (hf : ∀ w, Posts w.semPost (f w)) : Posts t (o.andThen fun w => .done (f w)).state ∧
      ∀ u, (o.andThen fun w => .done (f w)) = .done u → 0 < u.keyboardSemaphore := by
  refine ⟨Outcome.andThen_keeps ho fun w _ hw => (hw.trans (posts_semPost w)).trans (hf w), ?_⟩
  intro u hu
  obtain ⟨w, -, hdone⟩ := Outcome.andThen_eq_done.mp hu
  cases hdone
  exact Nat.lt_of_lt_of_le (Nat.succ_pos _) (hf w).tokens

theorem posts_handleCtrlD (t : Terminal) : Posts t (t.handleCtrlD V fuel).state ∧
    ∀ u, t.handleCtrlD V fuel = .done u → 0 < u.keyboardSemaphore := by
  unfold handleCtrlD
  split
  · exact recorded_posts (posts_addCharToBuffer t endOfFile false) fun w => .refl _
  · refine ⟨?_, fun u hu => ?_⟩
    · refine Outcome.andThen_keeps (posts_addCharToBuffer t newLineChar true) fun w _ hw => ?_
      exact (recorded_posts (hw.trans (posts_addCharToBuffer w endOfFile false))
        (f := fun w => w.semPost.semPost) fun w => posts_semPost _).1
    · obtain ⟨w, hw, hrest⟩ := Outcome.andThen_eq_done.mp hu
      exact (recorded_posts (posts_addCharToBuffer w endOfFile false)
        (f := fun w => w.semPost.semPost) fun w => posts_semPost _).2 u hrest

theorem posts_recordKey (t : Terminal) (scancode : UInt8) :
    Posts t (t.recordKey V fuel scancode).state := by
  unfold recordKey
  dsimp only
  split
  · split
    · exact .refl t
    · exact (recorded_posts (posts_addCharToBuffer t _ _) fun w => posts_callKeyFn _ scancode).1
  · split
    · have hdrop : Posts t (t.dropLast V) := .of_eq rfl rfl
      exact hdrop.trans (posts_callKeyFn _ scancode)
    · exact posts_callKeyFn t scancode

theorem posts_keyboardHandler (t : Terminal) (fg : Option Foreground) (scancode : UInt8) :
    Posts t (t.keyboardHandler V fuel fg scancode).state := by
  have hset := posts_setModifiers t scancode
  unfold keyboardHandler
  dsimp only
  split
  · exact .of_eq rfl rfl
  · split
    · exact hset.trans (posts_handleCtrlC _ fg)
    · split
      · exact hset.trans (posts_handleCtrlD _).1
      · split
        · exact hset
        · split
          · exact hset.trans (posts_recordKey _ scancode)
          · exact hset.trans (posts_callKeyFn _ scancode)

theorem posts_screenCall (t : Terminal) (c : ScreenCall) :
    Posts t (t.screenCall V fuel c).state := by
  cases c with
  | putChar ascii => exact posts_putChar t ascii
  | printToFd fd string => exact posts_printToFd t fd string
  | _ => exact .of_eq rfl rfl

/-! ## What a key without a token does to the line -/

/-- The ring is empty when every character is taken off. -/
theorem count_pops (r : KeyRing) :
    ((List.replicate r.count RingOp.popBack).foldl KeyRing.step r).count = 0 := by
  have hlength : ∀ (n : ℕ) (l : List Int8),
      ((List.replicate n RingOp.popBack).foldl RingOp.run l).length = l.length - n := by
    intro n
    induction n with
    | zero => exact fun l => rfl
    | succ n ih =>
        intro l
        rw [List.replicate_succ, List.foldl_cons, ih]
        simp only [RingOp.run, List.length_dropLast]
        omega
  rw [← KeyRing.length_pending, KeyRing.pending_pops (le_refl _), hlength, KeyRing.length_pending,
    Nat.sub_self]

theorem clearInput_empties (h : t.Sane) (hdone : t.clearInput V fuel = .done u) :
    u.toWrite = u.toRead := by
  unfold clearInput doWhile at hdone
  rw [Outcome.andThen_done] at hdone
  obtain ⟨p, hp, rfl⟩ := Outcome.map_eq_done.mp hdone
  have hring := ((clearInput_spec (V := V) h.shows rfl).1 hp).ring _ h.shows
  rw [hring.toWrite, hring.toRead, ← KeyRing.count_eq_zero]
  exact count_pops h.ring

/-- **Without a token** nothing is recorded: the ring is what it was, or it is empty, or its last
character is erased. -/
theorem handled_without_token {fg : Option Foreground} {scancode : UInt8} (h : t.Sane)
    (hdone : t.keyboardHandler V fuel fg scancode = .done u) (hzero : u.keyboardSemaphore = 0) :
    Acts t [] u ∨ u.toWrite = u.toRead ∨
      (t.bufferIsFull = false ∧ (t.setModifiers scancode).erases scancode = true ∧
        Acts t [.popBack] u) := by
  have hset := acts_setModifiers (t := t) scancode
  cases hfull : t.bufferIsFull with
  | true =>
      rw [keyboardHandler, if_pos hfull] at hdone
      cases hdone
      exact .inr (.inl rfl)
  | false =>
      rcases handler_cases V fuel fg scancode hfull rfl with
        ⟨-, heq⟩ | ⟨-, -, heq⟩ | ⟨-, -, ⟨ascii, -, heq⟩ | ⟨-, w, heq, hacts, -⟩⟩ <;>
        rw [heq] at hdone
      · -- Ctrl+C empties the input, or leaves it
        have hshows := hset.ring _ h.shows
        have hacts := hset.trans ((handleCtrlC_spec V fuel fg hshows).1 hdone)
        rw [List.nil_append] at hacts
        split at hacts
        · right
          left
          have hring := hacts.ring _ h.shows
          rw [hring.toWrite, hring.toRead, ← KeyRing.count_eq_zero]
          exact count_pops h.ring
        · exact .inl hacts
      · have hposted : 0 < u.keyboardSemaphore := (posts_handleCtrlD _).2 u hdone
        exact absurd hzero hposted.ne'
      · have hposted : 0 < u.keyboardSemaphore :=
          (recorded_posts (posts_addCharToBuffer _ _ _)
            fun w => posts_callKeyFn _ scancode).2 u hdone
        exact absurd hzero hposted.ne'
      · cases hdone
        have hboth := hset.trans hacts
        rw [List.nil_append] at hboth
        split at hboth
        · rename_i herases
          exact .inr (.inr ⟨rfl, herases, hboth⟩)
        · exact .inl hboth

/-- Output to the screen leaves the ring alone. -/
theorem acts_screenCall (t : Terminal) {c : ScreenCall} (hc : ∀ string, c ≠ .printToFd 0 string) :
    Acts t [] (t.screenCall V fuel c).state := by
  cases c with
  | putChar ascii => exact acts_putChar ascii
  | printToFd fd string =>
      have hfd : ¬(fd ≠ t.console.fileDescriptor ∧ fd = 0) := by
        rintro ⟨-, rfl⟩
        exact hc string rfl
      have hselected : Acts t [] { t with console := t.console.selectFd fd } :=
        .of_eq rfl rfl rfl rfl
      refine forEach_keeps (P := fun _ _ => True) (fun ascii u hu _ => ?_) string _
        (along_of_forall (fun _ _ => trivial) string _) hselected
      unfold printChar
      rw [decide_eq_false hfd]
      exact hu.trans (acts_putChar ascii)
  | _ => exact .of_eq rfl rfl rfl rfl

/-! ## The condition of the loop -/

theorem mustWait_congr (hbuffer : u.buffer = t.buffer) (hwrite : u.toWrite = t.toWrite)
    (hread : u.toRead = t.toRead) (hoptions : u.keyboardOptions = t.keyboardOptions) :
    u.mustWait = t.mustWait := by
  rw [mustWait, mustWait, lastChar, lastChar, hbuffer, hwrite, hread, hoptions]

theorem Acts.mustWait (h : t.Sane) (hacts : Acts t [] u)
    (hoptions : u.keyboardOptions = t.keyboardOptions) : u.mustWait = t.mustWait := by
  have hshows := hacts.ring _ h.shows
  exact mustWait_congr hshows.buffer hshows.toWrite hshows.toRead hoptions

theorem mustWait_empty (h : t.toWrite = t.toRead) : t.mustWait = true := by
  rw [Terminal.mustWait, decide_eq_true h, Bool.true_or]

theorem semWait_options (t : Terminal) : t.semWait.state.keyboardOptions = t.keyboardOptions := by
  unfold semWait
  split <;> rfl

theorem awaitKey_options (t : Terminal) : t.awaitKey.state.keyboardOptions = t.keyboardOptions :=
  whileDo_keeps (I := fun u : Terminal => u.keyboardOptions = t.keyboardOptions)
    (fun u hu _ => (semWait_options u).trans hu) _ t rfl

/-- Every call asks for its keys to be recorded. -/
theorem startReading_records (t : Terminal) (ops : UInt8) :
    (t.startReading ops).keyboardOptions &&& modifyBuffer ≠ 0 := by
  intro hzero
  have hbit := congrArg (fun n : UInt8 => n.toNat.testBit 2) hzero
  have hrecords : Nat.testBit 4 2 = true := by decide
  simp only [startReading, modifyBuffer, UInt8.toNat_and, UInt8.toNat_or, Nat.testBit_and,
    Nat.testBit_or] at hbit
  simp [hrecords] at hbit

/-- The last character is taken off. -/
def shortened (t : Terminal) : Terminal := { t with toWrite := subMod t.toWrite 1 bufferSize }

end Terminal

/-! ## Readers that sleep -/

namespace InputState

open Terminal

variable {V : VideoMode} {fuel : ℕ} {S S' : InputState} {e : InputEvent} {pid : ℕ}

/-- Whoever sleeps without a token has nothing to read, and its keys are still recorded. -/
def NoLostKey (S : InputState) : Prop :=
  ∀ pid, S.asleep pid = true → S.terminal.keyboardSemaphore = 0 →
    S.terminal.mustWait = true ∧ S.terminal.keyboardOptions &&& modifyBuffer ≠ 0

/-- Somebody sleeps, and there is no token. -/
def Starved (S : InputState) : Prop :=
  (∃ pid, S.asleep pid = true) ∧ S.terminal.keyboardSemaphore = 0

def OtherAsleep (S : InputState) (pid : ℕ) : Prop := ∃ other ≠ pid, S.asleep other = true

/-- **When no key is lost.** Backspace uncovers no end of a line for a reader that sleeps. No reader
takes its character with the last token while another one sleeps, and none goes back to sleep behind
one that has cleared the options. What is printed to the ring finds no reader without a token. The
value of the semaphore is an `int`. -/
def sparesReaders (S : InputState) : InputEvent → Prop
  | .key _ scancode => S.terminal.keyboardSemaphore + 2 < 2 ^ 31 ∧
      (S.Starved → S.terminal.bufferIsFull = false →
        (S.terminal.setModifiers scancode).erases scancode = true →
          S.terminal.shortened.mustWait = true)
  | .runs pid ops =>
      if S.asleep pid then
        if S.terminal.mustWait then S.terminal.keyboardSemaphore ≠ 0 →
          S.terminal.keyboardOptions &&& modifyBuffer ≠ 0
        else S.terminal.keyboardSemaphore = 1 → ¬S.OtherAsleep pid
      else S.terminal.keyboardSemaphore = 0 → (S.terminal.startReading ops).mustWait = false →
        ¬S.OtherAsleep pid
  | .background => ¬S.Starved
  | .screen (.printToFd fd _) => fd = 0 → ¬S.Starved
  | _ => True

/-- The terminal changes, and neither the ring nor the options do. -/
theorem NoLostKey.same {t : Terminal} (h : S.NoLostKey) (hsane : S.terminal.Sane)
    (hacts : Acts S.terminal [] t) (hposts : Posts S.terminal t) :
    ({ S with terminal := t } : InputState).NoLostKey := by
  intro pid hasleep hzero
  have hnone : S.terminal.keyboardSemaphore = 0 := Nat.le_zero.mp (hzero ▸ hposts.tokens)
  obtain ⟨hwait, hrecords⟩ := h pid hasleep hnone
  refine ⟨(Acts.mustWait hsane hacts hposts.options).trans hwait, ?_⟩
  change t.keyboardOptions &&& modifyBuffer ≠ 0
  rw [hposts.options]
  exact hrecords

/-- Nobody sleeps without a token, before and after it. -/
theorem NoLostKey.of_fed {t : Terminal} (hfed : ¬S.Starved) (hposts : Posts S.terminal t) :
    ({ S with terminal := t } : InputState).NoLostKey := by
  intro pid hasleep hzero
  exact absurd ⟨⟨pid, hasleep⟩, Nat.le_zero.mp (hzero ▸ hposts.tokens)⟩ hfed

/-- **A key** that uncovers no end of a line. -/
theorem NoLostKey.key {fg : Option Foreground} {scancode : UInt8} {t : Terminal} (h : S.NoLostKey)
    (hsane : S.terminal.Sane) (hok : S.sparesReaders (.key fg scancode))
    (hdone : S.terminal.keyboardHandler V fuel fg scancode = .done t) :
    ({ S with terminal := t } : InputState).NoLostKey := by
  have hposts : Posts S.terminal (S.terminal.keyboardHandler V fuel fg scancode).state :=
    posts_keyboardHandler S.terminal fg scancode
  rw [hdone] at hposts
  intro pid hasleep hzero
  have hnone : S.terminal.keyboardSemaphore = 0 := Nat.le_zero.mp (hzero ▸ hposts.tokens)
  obtain ⟨hwait, hrecords⟩ := h pid hasleep hnone
  have hoptions : t.keyboardOptions = S.terminal.keyboardOptions := hposts.options
  refine ⟨?_, by rw [hoptions]; exact hrecords⟩
  rcases handled_without_token hsane hdone hzero with hacts | hempty | ⟨hfull, herases, hacts⟩
  · exact (Acts.mustWait hsane hacts hoptions).trans hwait
  · exact mustWait_empty hempty
  · have hshort := hok.2 ⟨⟨pid, hasleep⟩, hnone⟩ hfull herases
    have hshows := hacts.ring _ hsane.shows
    rw [← hshort]
    exact mustWait_congr hshows.buffer hshows.toWrite hshows.toRead hoptions

/-- A call that has to wait takes every token, and sleeps. -/
theorem noLostKey_sleeps {t : Terminal} (hsane : t.Sane) (hwait : t.mustWait = true)
    (hrecords : t.keyboardOptions &&& modifyBuffer ≠ 0) : (S.reads pid t.awaitKey).NoLostKey := by
  obtain ⟨u, hu, hacts, -⟩ := awaitKey_cut hwait
  have hoptions := awaitKey_options t
  rw [hu] at hoptions ⊢
  intro other _ _
  refine ⟨(Acts.mustWait hsane hacts hoptions).trans hwait, ?_⟩
  change u.keyboardOptions &&& modifyBuffer ≠ 0
  rw [show u.keyboardOptions = t.keyboardOptions from hoptions]
  exact hrecords

/-- A call that takes its character leaves nobody asleep without a token. -/
theorem noLostKey_takes {t : Terminal} (hwait : t.mustWait = false)
    (hlast : t.keyboardSemaphore = 0 → ¬S.OtherAsleep pid) :
    (S.reads pid t.awaitKey).NoLostKey := by
  rw [awaitKey_done hwait]
  intro other hasleep hzero
  change Function.update S.asleep pid false other = true at hasleep
  by_cases hsame : other = pid
  · subst hsame
    rw [Function.update_self] at hasleep
    exact absurd hasleep (by simp)
  · rw [Function.update_of_ne hsame] at hasleep
    exact absurd ⟨other, hsame, hasleep⟩ (hlast hzero)

/-- **A call** of `getKeyboardCharacter`, or its way on. -/
theorem NoLostKey.runs {ops : UInt8} (h : S.NoLostKey) (hsane : S.terminal.Sane)
    (hok : S.sparesReaders (.runs pid ops)) : (S.reads pid (if S.asleep pid then S.terminal.wakeUp
      else S.terminal.getKeyboardCharacter ops)).NoLostKey := by
  simp only [sparesReaders] at hok
  split at hok
  · rename_i hasleep
    rw [if_pos hasleep, wakeUp, Terminal.semWait]
    by_cases hzero : S.terminal.keyboardSemaphore = 0
    · -- woken in vain
      rw [if_pos hzero]
      intro other _ _
      exact h pid hasleep hzero
    · rw [if_neg hzero, Outcome.andThen_done]
      have htaken : Sane { S.terminal.log .semWait with
          keyboardSemaphore := S.terminal.keyboardSemaphore - 1 } := hsane.same rfl rfl rfl
      split at hok
      · rename_i hwait
        exact noLostKey_sleeps htaken hwait (hok hzero)
      · rename_i hwait
        refine noLostKey_takes (Bool.not_eq_true _ ▸ hwait) fun hnone => ?_
        change S.terminal.keyboardSemaphore - 1 = 0 at hnone
        exact hok (by omega)
  · rename_i hawake
    rw [if_neg hawake, Terminal.getKeyboardCharacter]
    cases hwait : (S.terminal.startReading ops).mustWait with
    | true =>
        exact noLostKey_sleeps (hsane.same rfl rfl rfl) hwait (startReading_records _ ops)
    | false => exact noLostKey_takes hwait fun hnone => hok hnone hwait

/-- **Every admitted step** loses no key. -/
theorem NoLostKey.step (h : S.NoLostKey) (hsane : S.terminal.Sane) (hok : S.sparesReaders e)
    (hstep : S.step V fuel e = some S') : S'.NoLostKey := by
  cases e with
  | key fg scancode =>
      obtain ⟨t, ht, rfl⟩ := Option.map_eq_some_iff.mp hstep
      exact h.key hsane hok (Outcome.result_eq_some.mp ht)
  | runs pid ops =>
      obtain rfl := Option.some.inj hstep
      exact h.runs hsane hok
  | background =>
      obtain ⟨t, ht, rfl⟩ := Option.map_eq_some_iff.mp hstep
      have hposts : Posts S.terminal (S.terminal.printToFd V fuel 0 refusal).state :=
        posts_printToFd S.terminal 0 refusal
      have hdone : S.terminal.printToFd V fuel 0 refusal = .done t := Outcome.result_eq_some.mp ht
      rw [hdone] at hposts
      exact NoLostKey.of_fed hok hposts
  | clearInput =>
      obtain ⟨t, ht, rfl⟩ := Option.map_eq_some_iff.mp hstep
      have hposts : Posts S.terminal (S.terminal.clearInput V fuel).state :=
        posts_clearInput S.terminal
      have hempty := clearInput_empties hsane (Outcome.result_eq_some.mp ht)
      rw [Outcome.result_eq_some.mp ht] at hposts
      intro pid hasleep hzero
      have hnone : S.terminal.keyboardSemaphore = 0 := Nat.le_zero.mp (hzero ▸ hposts.tokens)
      obtain ⟨-, hrecords⟩ := h pid hasleep hnone
      have hoptions : t.keyboardOptions = S.terminal.keyboardOptions := hposts.options
      exact ⟨mustWait_empty hempty, by rw [hoptions]; exact hrecords⟩
  | screen c =>
      obtain ⟨t, ht, rfl⟩ := Option.map_eq_some_iff.mp hstep
      have hdone := Outcome.result_eq_some.mp ht
      have hposts : Posts S.terminal (S.terminal.screenCall V fuel c).state :=
        posts_screenCall S.terminal c
      have hacts : (∀ string, c ≠ .printToFd 0 string) →
          Acts S.terminal [] (S.terminal.screenCall V fuel c).state := acts_screenCall S.terminal
      rw [hdone] at hposts hacts
      by_cases hring : ∃ string, c = .printToFd 0 string
      · obtain ⟨string, rfl⟩ := hring
        exact NoLostKey.of_fed (hok rfl) hposts
      · exact h.same hsane (hacts fun string heq => hring ⟨string, heq⟩) hposts
  | ends pid =>
      obtain rfl := Option.some.inj hstep
      intro other hasleep hzero
      change Function.update S.asleep pid false other = true at hasleep
      by_cases hsame : other = pid
      · subst hsame
        rw [Function.update_self] at hasleep
        exact absurd hasleep (by simp)
      · rw [Function.update_of_ne hsame] at hasleep
        exact h other hasleep hzero

end InputState

open Terminal InputState

/-- **No wake-up of the keyboard is lost**, in every run of keys and calls of `getKeyboardCharacter`
that spares the readers. -/
theorem no_lost_key (V : VideoMode) (S : InputState)
    (hreach : Reaches (InputStep V) sparesReaders InputState.initial S) : S.NoLostKey := by
  have hboth : S.terminal.Sane ∧ S.NoLostKey := by
    refine hreach.invariant (I := fun S => S.terminal.Sane ∧ S.NoLostKey)
      ⟨initial_sane, fun pid hasleep => absurd hasleep (by simp [InputState.initial])⟩ ?_
    rintro S e S' ⟨hsane, h⟩ hok ⟨fuel, hstep⟩
    exact ⟨step_sane hsane hstep, h.step hsane hok hstep⟩
  exact hboth.2

/-- A reader that waits for a line, and the first letter of it. -/
def lineBegun : List InputEvent := [.runs 0 awaitReturnKey, .key none 0x1E, .runs 0 awaitReturnKey]

theorem no_lost_key_line : ∃ S, exec (InputState.step smallWindow 0) InputState.initial lineBegun =
    some S ∧ (S.asleep 0 = true ∧ S.terminal.keyboardSemaphore = 0) ∧ S.NoLostKey := by
  obtain ⟨S₁, h₁⟩ := Option.isSome_iff_exists.mp (by decide +kernel :
    (InputState.initial.step smallWindow 0 (.runs 0 awaitReturnKey)).isSome)
  have hfirst : ((InputState.initial.step smallWindow 0 (.runs 0 awaitReturnKey)).bind fun S₁ =>
      (S₁.step smallWindow 0 (.key none 0x1E)).bind fun S₂ =>
        (S₂.step smallWindow 0 (.runs 0 awaitReturnKey)).map fun S₃ =>
          ((S₁.terminal.keyboardSemaphore, (S₁.terminal.setModifiers 0x1E).erases 0x1E),
            (S₂.asleep 0, S₂.terminal.mustWait,
              S₂.terminal.keyboardOptions &&& modifyBuffer != 0),
            S₃.asleep 0, S₃.terminal.keyboardSemaphore)) =
      some ((0, false), (true, true, true), true, 0) := by
    decide +kernel
  rw [h₁, Option.bind_some] at hfirst
  obtain ⟨S₂, h₂, hsecond⟩ := Option.bind_eq_some_iff.mp hfirst
  obtain ⟨S₃, h₃, hthird⟩ := Option.map_eq_some_iff.mp hsecond
  simp only [Prod.mk.injEq] at hthird
  obtain ⟨⟨hzero, herases⟩, ⟨hasleep, hwait, hrecords⟩, hlast⟩ := hthird
  refine ⟨S₃, ?_, hlast, no_lost_key smallWindow S₃ ?_⟩
  · rw [lineBegun, exec, h₁, Option.bind_some, exec, h₂, Option.bind_some, exec, h₃]
    rfl
  · refine (((Reaches.refl _).tail ?_ ⟨0, h₁⟩).tail ?_ ⟨0, h₂⟩).tail ?_ ⟨0, h₃⟩
    · exact fun _ hready => absurd hready (by decide)
    · refine ⟨by omega, fun _ _ hback => ?_⟩
      rw [herases] at hback
      exact absurd hback (by decide)
    · simp only [sparesReaders, hasleep, hwait, if_true]
      intro _
      simpa using hrecords

/-- Keys and calls of `getKeyboardCharacter`, whichever they are. -/
def keysAndCalls : InputState → InputEvent → Prop
  | _, .key _ _ | _, .runs _ _ => True
  | _, _ => False

/-- **Backspace uncovers a newline** behind which a character was typed before the reader ran: the
line is complete, and the reader sleeps on. -/
theorem backspace_uncovers : ¬∀ V S, Reaches (InputStep V) keysAndCalls InputState.initial S →
    S.NoLostKey := by
  intro hall
  obtain ⟨S, hS⟩ := Option.isSome_iff_exists.mp (by decide +kernel :
    (exec (InputState.step smallWindow 0) InputState.initial
      [.runs 0 awaitReturnKey, .key none returnKey, .key none 0x2D, .runs 0 awaitReturnKey,
        .key none backspaceKey]).isSome)
  have hrun : ((exec (InputState.step smallWindow 0) InputState.initial
      [.runs 0 awaitReturnKey, .key none returnKey, .key none 0x2D, .runs 0 awaitReturnKey,
        .key none backspaceKey]).map fun S =>
          (S.asleep 0, S.terminal.keyboardSemaphore, S.terminal.mustWait)) =
      some (true, 0, false) := by
    decide +kernel
  rw [hS, Option.map_some, Option.some.injEq, Prod.mk.injEq, Prod.mk.injEq] at hrun
  have hreach : Reaches (InputStep smallWindow) keysAndCalls InputState.initial S := by
    refine (exec_always hS ?_).of_step fun _ _ _ hstep => ⟨0, hstep⟩
    intro e he s
    simp only [List.mem_cons, List.not_mem_nil, or_false] at he
    rcases he with rfl | rfl | rfl | rfl | rfl <;> trivial
  have hwait := (hall smallWindow S hreach 0 hrun.1 hrun.2.1).1
  rw [hrun.2.2] at hwait
  exact absurd hwait (by decide)

end BareKernel
