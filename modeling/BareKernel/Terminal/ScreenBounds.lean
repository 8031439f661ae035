import BareKernel.Terminal.Keyboard
import BareKernel.Lib.Runs
import Mathlib.Tactic.Linarith
import Mathlib.Tactic.Ring

/-!
# Everything drawn stays on the screen

The cursor is kept inside the window by every call, apart from two: `setFontSize` does
not scroll, and a position that was left by another size may not be a multiple of the
glyph's width when it is moved back.
-/

namespace BareKernel

open Loops Runs

/-- The cell of the glyph lies in the window, and so does every byte that is written. -/
structure Glyph.Inside (V : VideoMode) (g : Glyph) : Prop where
  left : 0 ≤ g.x
  right : g.x + (glyphSizeX * g.fontSize : ℕ) ≤ V.width
  top : 0 ≤ g.y
  bottom : g.y + (glyphSizeY * g.fontSize : ℕ) ≤ V.height
  bytes : ∀ p ∈ g.pixels, V.offset p.1 p.2 + 2 < V.pitch * V.height

variable {V : VideoMode}

/-- A pixel of the window is three bytes of the frame buffer. -/
theorem VideoMode.offset_lt {x y : ℤ} (hx : 0 ≤ x) (hxW : x < V.width) (hy : 0 ≤ y)
    (hyH : y < V.height) : V.offset x y + 2 < V.pitch * V.height := by
  lift x to ℕ using hx
  lift y to ℕ using hy
  norm_cast at hxW hyH
  have hdepth : 3 ≤ V.bpp / 8 := by
    have hbpp := V.depth
    omega
  have hle : V.offset x y ≤ x * (V.bpp / 8) + y * V.pitch := by
    unfold VideoMode.offset
    norm_cast
    exact Nat.mod_le _ _
  -- the pixel ends before the row does, and the row before the window does
  have hrow : (x + 1) * (V.bpp / 8) ≤ V.pitch := (Nat.mul_le_mul_right _ hxW).trans V.row
  have hrows : V.pitch * (y + 1) ≤ V.pitch * V.height := Nat.mul_le_mul_left _ hyH
  rw [Nat.add_mul, Nat.one_mul] at hrow
  rw [Nat.mul_add, Nat.mul_one, Nat.mul_comm] at hrows
  omega

theorem Glyph.inside_of_cell {g : Glyph} (hleft : 0 ≤ g.x)
    (hright : g.x + (glyphSizeX * g.fontSize : ℕ) ≤ V.width) (htop : 0 ≤ g.y)
    (hbottom : g.y + (glyphSizeY * g.fontSize : ℕ) ≤ V.height) : g.Inside V := by
  refine ⟨hleft, hright, htop, hbottom, fun p hp => ?_⟩
  obtain ⟨x, hx, hp⟩ := List.mem_flatMap.mp hp
  obtain ⟨y, hy, rfl⟩ := List.mem_map.mp hp
  rw [List.mem_range] at hx hy
  apply VideoMode.offset_lt <;> dsimp only <;> omega

/-! ## The cursor -/

namespace Console

/-- The cursor is in the window, with room below for the line and for a glyph. -/
structure Fits (V : VideoMode) (s : Console) : Prop where
  one_le : 1 ≤ s.fontSize
  le_ten : s.fontSize ≤ 10
  left : 0 ≤ s.xBufferPosition
  right : s.xBufferPosition ≤ V.width
  top : 0 ≤ s.yBufferPosition
  line : s.yBufferPosition + s.maxGlyphSizeYOnLine ≤ V.height
  glyph : s.glyphHeight ≤ s.maxGlyphSizeYOnLine
  drawn : ∀ g ∈ s.drawn, g.Inside V

/-- The window holds two glyphs of the largest size, one below the other. -/
structure Window (V : VideoMode) : Prop where
  width : 80 ≤ V.width
  height : 160 ≤ V.height

variable {s t : Console} {ascii : Int8} {fuel : ℕ}

theorem initial_fits (hV : Window V) : Fits V initial := by
  have hW := hV.width
  have hH := hV.height
  constructor <;> simp [initial, glyphHeight, glyphSizeY]
  omega

theorem Fits.width (h : Fits V s) : (8 : ℤ) ≤ s.glyphWidth ∧
    (s.glyphWidth : ℤ) ≤ 80 ∧ s.glyphHeight = s.glyphWidth := by
  have hone := h.one_le
  have hten := h.le_ten
  refine ⟨?_, ?_, rfl⟩ <;> simp only [glyphWidth, glyphSizeX] <;> omega

/-- One round of scrolling is enough after a line. -/
theorem Fits.newLine (h : Fits V s) (hV : Window V) : Fits V (newLine V s) := by
  obtain ⟨hone, hten, hleft, hright, htop, hline, hglyph, hdrawn⟩ := h
  have hW := hV.width
  have hH := hV.height
  simp only [glyphHeight, glyphSizeY] at hglyph
  unfold Console.newLine scrollBufferPositionIfNeeded
  split
  · rename_i hbelow
    simp only [glyphHeight, glyphSizeY] at hbelow
    constructor <;> simp only [scrollVideoMemoryUp, glyphHeight, glyphSizeY] <;>
      first | exact hdrawn | omega
  · rename_i hroom
    simp only [glyphHeight, glyphSizeY] at hroom
    constructor <;> simp only [glyphHeight, glyphSizeY] <;> first | exact hdrawn | omega

/-- A glyph that has room on the line is drawn inside the window. -/
theorem Fits.render (h : Fits V s) (hroom : s.xBufferPosition + s.glyphWidth ≤ V.width)
    (ascii : Int8) : Fits V
      { s.renderAscii ascii with xBufferPosition := s.xBufferPosition + s.glyphWidth } := by
  have hcell : (⟨ascii, s.xBufferPosition, s.yBufferPosition, s.fontSize, s.textColor,
      s.backgroundColor⟩ : Glyph).Inside V := by
    have hline := h.line
    have hglyph := h.glyph
    simp only [glyphHeight] at hglyph
    apply Glyph.inside_of_cell h.left hroom h.top
    dsimp only
    omega
  have hleft := h.left
  unfold renderAscii
  split
  · refine ⟨h.one_le, h.le_ten, by dsimp only; omega, hroom, h.top, h.line, h.glyph, ?_⟩
    intro g hg
    rcases List.mem_cons.mp hg with rfl | hg
    · exact hcell
    · exact h.drawn g hg
  · exact ⟨h.one_le, h.le_ten, by dsimp only; omega, hroom, h.top, h.line, h.glyph, h.drawn⟩

theorem newLine_left (V : VideoMode) (s : Console) : (newLine V s).xBufferPosition = 0 ∧
    (newLine V s).fontSize = s.fontSize := by
  unfold newLine scrollBufferPositionIfNeeded
  split <;> exact ⟨rfl, rfl⟩

theorem Fits.dirty (h : Fits V s) : Fits V { s with dirtyLine := true } :=
  ⟨h.one_le, h.le_ten, h.left, h.right, h.top, h.line, h.glyph, h.drawn⟩

@[simp] theorem renderAscii_fontSize (s : Console) (ascii : Int8) :
    (s.renderAscii ascii).fontSize = s.fontSize := by
  unfold renderAscii
  split <;> rfl

/-- The column a glyph is put in: at the end of the line it is the first of the next. -/
def column (V : VideoMode) (s : Console) : ℤ :=
  if s.xBufferPosition + s.glyphWidth > V.width then 0 else s.xBufferPosition

theorem putGlyph_wrap (hend : s.xBufferPosition + s.glyphWidth > V.width) (ascii : Int8) :
    s.putGlyph V ascii =
      { (newLine V { s with dirtyLine := true }).renderAscii ascii with
        xBufferPosition := (newLine V { s with dirtyLine := true }).xBufferPosition +
          (newLine V { s with dirtyLine := true }).glyphWidth } := by
  unfold putGlyph
  dsimp only
  split
  · rfl
  · rename_i hroom
    exact absurd hend hroom

theorem putGlyph_room (hroom : s.xBufferPosition + s.glyphWidth ≤ V.width) (ascii : Int8) :
    s.putGlyph V ascii = { { s with dirtyLine := true }.renderAscii ascii with
      xBufferPosition := s.xBufferPosition + s.glyphWidth } := by
  unfold putGlyph
  dsimp only
  split
  · rename_i hend
    exact absurd hroom (not_le.mpr hend)
  · rfl

theorem Fits.putGlyph (h : Fits V s) (hV : Window V) (ascii : Int8) :
    Fits V (s.putGlyph V ascii) := by
  have hW := hV.width
  rcases le_or_gt (s.xBufferPosition + s.glyphWidth) V.width with hroom | hend
  · rw [putGlyph_room hroom]
    exact h.dirty.render hroom ascii
  · rw [putGlyph_wrap hend]
    obtain ⟨hx, hsize⟩ := newLine_left V { s with dirtyLine := true }
    apply (h.dirty.newLine hV).render
    have hten := h.le_ten
    simp only [glyphWidth, glyphSizeX, hx, hsize]
    omega

theorem putGlyph_column (V : VideoMode) (s : Console) (ascii : Int8) :
    (s.putGlyph V ascii).xBufferPosition = s.column V + s.glyphWidth ∧
      (s.putGlyph V ascii).fontSize = s.fontSize := by
  unfold column
  rcases le_or_gt (s.xBufferPosition + s.glyphWidth) V.width with hroom | hend
  · rw [putGlyph_room hroom, if_neg (not_lt.mpr hroom)]
    exact ⟨rfl, renderAscii_fontSize _ _⟩
  · rw [putGlyph_wrap hend, if_pos hend]
    obtain ⟨hx, hsize⟩ := newLine_left V { s with dirtyLine := true }
    simp only [glyphWidth, renderAscii_fontSize, hx, hsize, and_self]

/-- Moving back keeps the cursor in the window where it has the room of a glyph. -/
theorem Fits.retractPosition (h : Fits V s) (hV : Window V)
    (hroom : s.xBufferPosition = 0 ∨ s.glyphWidth ≤ s.xBufferPosition) :
    Fits V (s.retractPosition V) := by
  obtain ⟨hlow, hhigh, heq⟩ := h.width
  obtain ⟨hone, hten, hleft, hright, htop, hline, hglyph, hdrawn⟩ := h
  have hW := hV.width
  unfold Console.retractPosition
  split
  · split
    · exact ⟨hone, hten, hleft, hright, le_refl _, by dsimp only; omega, hglyph, hdrawn⟩
    · -- the last whole glyph of the line above
      have hmod : V.width % s.glyphWidth + s.glyphWidth ≤ V.width := by
        have hdiv : V.width / s.glyphWidth * s.glyphWidth + V.width % s.glyphWidth = V.width :=
          Nat.div_add_mod' _ _
        have hpos : 1 * s.glyphWidth ≤ V.width / s.glyphWidth * s.glyphWidth :=
          Nat.mul_le_mul_right _ ((Nat.one_le_div_iff (by omega)).mpr (by omega))
        omega
      refine ⟨hone, hten, ?_, ?_, ?_, ?_, hglyph, hdrawn⟩ <;> dsimp only <;> omega
  · rename_i hne
    have hback := hroom.resolve_left hne
    exact ⟨hone, hten, by dsimp only; omega, by dsimp only; omega, htop, hline, hglyph, hdrawn⟩

/-- A glyph was just put, so there is room to move back over it. -/
theorem Fits.cursor (h : Fits V s) (hV : Window V) (ascii : Int8) :
    Fits V ((s.putGlyph V ascii).retractPosition V) ∧
      ((s.putGlyph V ascii).retractPosition V).xBufferPosition = s.column V ∧
        ((s.putGlyph V ascii).retractPosition V).fontSize = s.fontSize := by
  obtain ⟨hx, hsize⟩ := putGlyph_column V s ascii
  obtain ⟨hlow, -, -⟩ := h.width
  have hcolumn : 0 ≤ s.column V := by
    have hleft := h.left
    unfold column
    split <;> omega
  have hwidth : (s.putGlyph V ascii).glyphWidth = s.glyphWidth := by
    rw [glyphWidth, hsize, glyphWidth]
  refine ⟨(h.putGlyph hV ascii).retractPosition hV (.inr ?_), ?_⟩
  · rw [hwidth, hx]
    omega
  · unfold Console.retractPosition
    rw [if_neg (by rw [hx]; omega)]
    refine ⟨?_, hsize⟩
    dsimp only
    rw [hwidth, hx]
    omega

theorem Fits.showCursor (h : Fits V s) (hV : Window V) : Fits V (s.showCursor V) :=
  (h.cursor hV cursorChar).1

theorem Fits.hideCursor (h : Fits V s) (hV : Window V) : Fits V (s.hideCursor V) :=
  (h.cursor hV blankChar).1

/-- There is nothing to move back over on the line, or a whole glyph. -/
def RoomBack (V : VideoMode) (s : Console) : Prop :=
  s.column V = 0 ∨ s.glyphWidth ≤ s.column V

/-- The column is one that glyphs of this size alone would lead to. -/
def Aligned (V : VideoMode) (s : Console) : Prop := (s.glyphWidth : ℤ) ∣ s.column V

theorem Fits.clearPreviousCharacter (h : Fits V s) (hV : Window V) (hroom : s.RoomBack V) :
    Fits V (s.clearPreviousCharacter V) := by
  obtain ⟨hfits, hx, hsize⟩ := h.cursor hV blankChar
  apply Fits.showCursor _ hV
  apply hfits.retractPosition hV
  rw [glyphWidth, hx, hsize]
  exact hroom

/-- A carriage return goes back glyph by glyph, and ends in the first column. -/
theorem Fits.carriageReturn (h : Fits V s) (hV : Window V) (haligned : s.Aligned V) (fuel : ℕ) :
    Fits V (whileDo (fun s => decide (0 < s.xBufferPosition))
      (fun s => .done (s.retractPosition V)) fuel (s.hideCursor V)).state := by
  obtain ⟨hfits, hx, hsize⟩ := h.cursor hV blankChar
  have hstart : Fits V (s.hideCursor V) ∧
      ((s.hideCursor V).glyphWidth : ℤ) ∣ (s.hideCursor V).xBufferPosition := by
    refine ⟨hfits, ?_⟩
    change ((glyphSizeX * (s.hideCursor V).fontSize : ℕ) : ℤ) ∣ _
    unfold Console.hideCursor
    rw [hx, hsize]
    exact haligned
  refine (whileDo_keeps (I := fun s => Fits V s ∧ (s.glyphWidth : ℤ) ∣ s.xBufferPosition)
    ?_ fuel _ hstart).1
  rintro u ⟨hu, hdvd⟩ hpos
  rw [decide_eq_true_eq] at hpos
  have hback : (u.glyphWidth : ℤ) ≤ u.xBufferPosition := Int.le_of_dvd hpos hdvd
  refine ⟨hu.retractPosition hV (.inr hback), ?_⟩
  change ((u.retractPosition V).glyphWidth : ℤ) ∣ (u.retractPosition V).xBufferPosition
  rw [Console.retractPosition, if_neg hpos.ne']
  exact Int.dvd_sub hdvd (Int.dvd_refl _)

theorem Fits.putChar (h : Fits V s) (hV : Window V)
    (hreturn : ascii = carriageReturnChar → s.Aligned V) (fuel : ℕ) :
    Fits V (s.putChar V fuel ascii).state := by
  unfold Console.putChar
  split
  · exact (h.dirty.hideCursor hV).newLine hV
  · split
    · rename_i hcr
      exact h.dirty.carriageReturn hV (hreturn hcr) fuel
    · split
      · apply doWhile_keeps (I := Fits V) _ fuel h.dirty
        intro u hu
        exact hu.putGlyph hV blankChar
      · exact h.putGlyph hV ascii

/-! ## The size of the font -/

/-- A size whose glyph has room below keeps the cursor in the window. -/
theorem Fits.resized (h : Fits V s) {n : ℕ} (hone : 1 ≤ n) (hten : n ≤ 10)
    (hroom : s.yBufferPosition + (glyphSizeY * n : ℕ) ≤ V.height) :
    Fits V { s with fontSize := n }.resized := by
  have hline := h.line
  refine ⟨hone, hten, h.left, h.right, h.top, ?_, ?_, h.drawn⟩
  · simp only [Console.resized, glyphHeight]
    split <;> omega
  · simp only [Console.resized, glyphHeight]
    split <;> omega

theorem Fits.setFontSize (h : Fits V s) {size : Int8}
    (hroom : s.yBufferPosition + (glyphSizeY * clampSize size : ℕ) ≤ V.height) :
    Fits V (s.setFontSize size) := by
  apply h.resized _ _ hroom
  all_goals
    unfold clampSize
    split
    · omega
    · split <;> omega

theorem Fits.decreaseFontSize (h : Fits V s) : Fits V s.decreaseFontSize := by
  have hline := h.line
  have hglyph := h.glyph
  have hone := h.one_le
  have hten := h.le_ten
  simp only [glyphHeight, glyphSizeY] at hglyph
  apply h.resized
  · split <;> omega
  · split <;> omega
  · simp only [glyphSizeY]
    split <;> omega

/-- Here the screen scrolls when the larger glyph has no room. -/
theorem Fits.increaseFontSize (h : Fits V s) (hV : Window V) :
    Fits V (s.increaseFontSize V) := by
  obtain ⟨hone, hten, hleft, hright, htop, hline, hglyph, hdrawn⟩ := id h
  have hH := hV.height
  have hsize : ∀ n, n = (if s.fontSize > 9 then s.fontSize else s.fontSize + 1) →
      1 ≤ n ∧ n ≤ 10 := by
    rintro n rfl
    split <;> omega
  unfold Console.increaseFontSize
  generalize (if s.fontSize > 9 then s.fontSize else s.fontSize + 1) = n at hsize ⊢
  obtain ⟨hlow, hhigh⟩ := hsize n rfl
  unfold scrollBufferPositionIfNeeded
  split
  · rename_i hbelow
    simp only [Console.resized, glyphHeight, glyphSizeY] at hbelow
    refine ⟨hlow, hhigh, hleft, hright, ?_, ?_, ?_, hdrawn⟩
    all_goals
      simp only [scrollVideoMemoryUp, Console.resized, glyphHeight, glyphSizeY]
    · omega
    · split <;> omega
    · split <;> omega
  · rename_i hroom
    simp only [Console.resized, glyphHeight] at hroom
    exact h.resized hlow hhigh (not_lt.mp hroom)

theorem Fits.clear (h : Fits V s) : Fits V s.clear := by
  have hline := h.line
  have htop := h.top
  exact ⟨h.one_le, h.le_ten, le_refl _, by simp only [Console.clear]; omega, le_refl _,
    by simp only [Console.clear]; omega, h.glyph, h.drawn⟩

theorem Fits.selectFd (h : Fits V s) (fd : ℤ) : Fits V (s.selectFd fd) := by
  unfold Console.selectFd
  split
  · exact h
  · split
    · exact ⟨h.one_le, h.le_ten, h.left, h.right, h.top, h.line, h.glyph, h.drawn⟩
    · split
      · exact ⟨h.one_le, h.le_ten, h.left, h.right, h.top, h.line, h.glyph, h.drawn⟩
      · exact h

end Console

/-! ## Calls -/

open Console

/-- The calls that draw or move the cursor. -/
inductive ScreenCall : Type where
  | putChar (ascii : Int8)
  | printToFd (fd : ℤ) (string : List Int8)
  | newLine
  | clear
  | clearPreviousCharacter
  | showCursor
  | hideCursor
  | increaseFontSize
  | decreaseFontSize
  | setFontSize (size : Int8)

namespace Terminal

def screenCall (V : VideoMode) (fuel : ℕ) (t : Terminal) : ScreenCall → Outcome Terminal
  | .putChar ascii => t.putChar V fuel ascii
  | .printToFd fd string => t.printToFd V fuel fd string
  | .newLine => .done { t with console := t.console.newLine V }
  | .clear => .done { t with console := t.console.clear }
  | .clearPreviousCharacter => .done { t with console := t.console.clearPreviousCharacter V }
  | .showCursor => .done { t with console := t.console.showCursor V }
  | .hideCursor => .done { t with console := t.console.hideCursor V }
  | .increaseFontSize => .done { t with console := t.console.increaseFontSize V }
  | .decreaseFontSize => .done { t with console := t.console.decreaseFontSize }
  | .setFontSize size => .done { t with console := t.console.setFontSize size }

/-- A call that returns. -/
def ScreenStep (V : VideoMode) (t : Terminal) (c : ScreenCall) (u : Terminal) : Prop :=
  ∃ fuel, t.screenCall V fuel c = .done u

/-- A character may go back to the start of the line only from an aligned column. -/
def ReturnsAligned (V : VideoMode) (ascii : Int8) (t : Terminal) : Prop :=
  ascii = carriageReturnChar → t.console.Aligned V

/-- **When a call keeps the cursor in the window**: a new size has room below, and a
position is moved back only over whole glyphs. -/
def staysInside (V : VideoMode) (t : Terminal) : ScreenCall → Prop
  | .putChar ascii => ReturnsAligned V ascii t
  | .printToFd fd string => ∀ fuel,
      Along (printChar V fuel (fd ≠ t.console.fileDescriptor ∧ fd = 0)) (ReturnsAligned V) string
        { t with console := t.console.selectFd fd }
  | .clearPreviousCharacter => t.console.RoomBack V
  | .setFontSize size =>
      t.console.yBufferPosition + (glyphSizeY * clampSize size : ℕ) ≤ V.height
  | _ => True

variable {t : Terminal} {ascii : Int8}

theorem putChar_fits (h : Fits V t.console) (hV : Window V) (hreturn : ReturnsAligned V ascii t)
    (fuel : ℕ) : Fits V (t.putChar V fuel ascii).state.console := by
  rw [putChar, Outcome.state_map]
  exact h.putChar hV hreturn fuel

theorem pushChar_fits (h : Fits V t.console) (hV : Window V) (hreturn : ReturnsAligned V ascii t)
    (fuel : ℕ) (showOutput : Bool) : Fits V (t.pushChar V fuel ascii showOutput).state.console := by
  unfold pushChar
  dsimp only
  split
  · refine putChar_fits ?_ hV ?_ fuel
    · exact h
    · exact hreturn
  · exact h

theorem addCharToBuffer_fits (h : Fits V t.console) (hV : Window V)
    (hreturn : ReturnsAligned V ascii t) (fuel : ℕ) (showOutput : Bool) :
    Fits V (t.addCharToBuffer V fuel ascii showOutput).state.console := by
  unfold addCharToBuffer
  split
  · exact pushChar_fits h hV hreturn fuel showOutput
  · refine doWhile_keeps (I := fun t : Terminal => Fits V t.console) (fun u hu => ?_) fuel h
    exact pushChar_fits hu hV (fun hcr => absurd hcr (by decide)) fuel showOutput

/-- **The step**: a call that meets the condition draws inside the window only, also when
it does not return, and leaves the cursor in it. -/
theorem screenCall_fits (h : Fits V t.console) (hV : Window V) (c : ScreenCall)
    (hok : t.staysInside V c) (fuel : ℕ) : Fits V (t.screenCall V fuel c).state.console := by
  cases c with
  | putChar ascii => exact putChar_fits h hV hok fuel
  | printToFd fd string =>
      refine forEach_keeps (I := fun t : Terminal => Fits V t.console) ?_ string _ (hok fuel)
        (h.selectFd fd)
      intro ascii u hu hreturn
      unfold printChar
      split
      · exact addCharToBuffer_fits hu hV hreturn fuel true
      · exact putChar_fits hu hV hreturn fuel
  | newLine => exact h.newLine hV
  | clear => exact h.clear
  | clearPreviousCharacter => exact h.clearPreviousCharacter hV hok
  | showCursor => exact h.showCursor hV
  | hideCursor => exact h.hideCursor hV
  | increaseFontSize => exact h.increaseFontSize hV
  | decreaseFontSize => exact h.decreaseFontSize
  | setFontSize size => exact h.setFontSize hok

/-- **Everything drawn stays on the screen** in every run whose calls keep the cursor in
the window, and on the way of every such call, returning or not. -/
theorem screen_bounds (V : VideoMode) (hV : Window V) (t : Terminal)
    (hrun : Reaches (ScreenStep V) (staysInside V) initial t) :
    (∀ g ∈ t.console.drawn, g.Inside V) ∧ ∀ c fuel, t.staysInside V c →
      ∀ g ∈ (t.screenCall V fuel c).state.console.drawn, g.Inside V := by
  have hfits : Fits V t.console := by
    refine hrun.invariant (I := fun t => Fits V t.console) (initial_fits hV) ?_
    rintro s c u hs hok ⟨fuel, hstep⟩
    have hkept := screenCall_fits hs hV c hok fuel
    rw [hstep] at hkept
    exact hkept
  exact ⟨hfits.drawn, fun c fuel hok => (screenCall_fits hfits hV c hok fuel).drawn⟩

/-- The smallest window. -/
def smallWindow : VideoMode where
  width := 80
  height := 160
  pitch := 240
  bpp := 24
  width_lt := by decide
  height_lt := by decide
  row := by decide
  depth := by decide

theorem smallWindow_window : Window smallWindow := ⟨by decide, by decide⟩

/-- A character on the second line that is taken back. -/
theorem screen_bounds_small : ∃ t, Reaches (ScreenStep smallWindow) (staysInside smallWindow)
    initial t ∧ t.console.drawn.length = 3 ∧ ∀ g ∈ t.console.drawn, g.Inside smallWindow := by
  have hline : Reaches (ScreenStep smallWindow) (staysInside smallWindow) initial _ :=
    (Reaches.refl _).tail (e := ScreenCall.newLine) trivial ⟨0, rfl⟩
  have hnoReturn : ∀ t, ReturnsAligned smallWindow 97 t := fun t hcr => absurd hcr (by decide)
  have hchar := hline.tail (e := ScreenCall.putChar 97) (hnoReturn _) ⟨0, rfl⟩
  have hroom : ∀ c : Console, 8 ≤ c.column smallWindow → c.fontSize = 1 →
    c.RoomBack smallWindow := by
    intro c hcolumn hsize
    right
    rw [glyphWidth, hsize]
    exact hcolumn
  have hback := hchar.tail (e := ScreenCall.clearPreviousCharacter)
    (hroom _ (by decide) (by decide)) ⟨0, rfl⟩
  exact ⟨_, hback, by decide, (screen_bounds smallWindow smallWindow_window _ hback).1⟩

/-- Calls that return one after the other. -/
theorem reaches_calls {calls : List ScreenCall} {t u : Terminal}
    (h : exec (fun t c => (t.screenCall V 0 c).result) t calls = some u) :
    Reaches (ScreenStep V) always t u :=
  (exec_always h fun _ _ _ => trivial).of_step
    fun _ _ _ hstep => ⟨0, Outcome.result_eq_some.mp hstep⟩

/-- **Two calls lead out of the window**: a size for which there is no room below, and a
position that is moved back over half a glyph. -/
theorem glyph_outside :
    (∃ t, Reaches (ScreenStep smallWindow) always initial t ∧
      ∃ g ∈ t.console.drawn, (smallWindow.height : ℤ) < g.y + (glyphSizeY * g.fontSize : ℕ)) ∧
    ∃ t, Reaches (ScreenStep smallWindow) always initial t ∧ ∃ g ∈ t.console.drawn, g.x < 0 := by
  constructor
  · have hrun : ((exec (fun t c => (t.screenCall smallWindow 0 c).result) initial
        [.setFontSize 10, .newLine, .setFontSize 1, .newLine, .setFontSize 10,
          .putChar 97]).map fun t => t.console.drawn) =
        some [⟨97, 0, 88, 10, defaultTextColor, defaultBackgroundColor⟩] := by decide +kernel
    obtain ⟨t, ht, hdrawn⟩ := Option.map_eq_some_iff.mp hrun
    refine ⟨t, reaches_calls ht, _, hdrawn ▸ List.mem_singleton_self _, by decide⟩
  · have hrun : ((exec (fun t c => (t.screenCall smallWindow 0 c).result) initial
        [.putChar 97, .setFontSize 2, .clearPreviousCharacter]).map
          fun t => t.console.drawn.head?) =
        some (some ⟨124, -8, 0, 2, defaultTextColor, defaultBackgroundColor⟩) := by decide +kernel
    obtain ⟨t, ht, hdrawn⟩ := Option.map_eq_some_iff.mp hrun
    exact ⟨t, reaches_calls ht, _, List.mem_of_mem_head? hdrawn, by decide⟩

end Terminal

end BareKernel
