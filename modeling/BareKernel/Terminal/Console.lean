import BareKernel.Lib.Loops
import Mathlib.Algebra.Order.Ring.Int

/-!
# The console

The text console of `fonts.c` on the frame buffer of `video.c`: a cursor, a font size
that can change at any moment, and the colours. Positions are integers, and stay far
from the ends of `int32_t`. What is drawn is kept in a list.
-/

namespace BareKernel

open Loops

def glyphSizeX : ℕ := 8

def glyphSizeY : ℕ := 8

def newLineChar : Int8 := 10

def tabulatorChar : Int8 := 9

def carriageReturnChar : Int8 := 13

def blankChar : Int8 := 32

def cursorChar : Int8 := 124

def tabSize : ℕ := 4

def defaultTextColor : UInt32 := 0x00FFFFFF

def defaultErrorColor : UInt32 := 0x00DE382B

def defaultBackgroundColor : UInt32 := 0x00000000

/-- What the boot loader tells about the frame buffer: a row holds the pixels of the
window, each of them at least three bytes. -/
structure VideoMode where
  width : ℕ
  height : ℕ
  pitch : ℕ
  bpp : ℕ
  width_lt : width < 2 ^ 16
  height_lt : height < 2 ^ 16
  row : width * (bpp / 8) ≤ pitch
  depth : 24 ≤ bpp

/-- `putPixel` writes the three bytes from here on, in the arithmetic of `uint64_t`. -/
def VideoMode.offset (V : VideoMode) (x y : ℤ) : ℕ :=
  ((x * (V.bpp / 8 : ℕ) + y * V.pitch) % 2 ^ 64).toNat

/-- One call of `renderAscii`. -/
structure Glyph where
  ascii : Int8
  x : ℤ
  y : ℤ
  fontSize : ℕ
  textColor : UInt32
  backgroundColor : UInt32
deriving DecidableEq, Repr

/-- The pixels that `renderFromBitmap` goes through. -/
def Glyph.pixels (g : Glyph) : List (ℤ × ℤ) :=
  (List.range (glyphSizeX * g.fontSize)).flatMap fun x : ℕ =>
    (List.range (glyphSizeY * g.fontSize)).map fun y : ℕ => (g.x + x, g.y + y)

/-- The static variables of `fonts.c`, the interrupt flag, and what was drawn so far. -/
structure Console where
  fontSize : ℕ
  xBufferPosition : ℤ
  yBufferPosition : ℤ
  maxGlyphSizeYOnLine : ℕ
  dirtyLine : Bool
  textColor : UInt32
  backgroundColor : UInt32
  fileDescriptor : ℤ
  interrupts : Bool
  drawn : List Glyph
deriving DecidableEq, Repr

namespace Console

/-- Before the first character. -/
def initial : Console where
  fontSize := 1
  xBufferPosition := 0
  yBufferPosition := 0
  maxGlyphSizeYOnLine := glyphSizeY
  dirtyLine := false
  textColor := defaultTextColor
  backgroundColor := defaultBackgroundColor
  fileDescriptor := 1
  interrupts := false
  drawn := []

variable (V : VideoMode) (s : Console)

/-- Width and height of a glyph on the screen. -/
def glyphWidth : ℕ := glyphSizeX * s.fontSize

def glyphHeight : ℕ := glyphSizeY * s.fontSize

/-- Every `char` is below 128, so every one is drawn. -/
def renderAscii (ascii : Int8) : Console :=
  if ascii.toInt < 128 then
    { s with
      drawn := ⟨ascii, s.xBufferPosition, s.yBufferPosition, s.fontSize, s.textColor,
        s.backgroundColor⟩ :: s.drawn }
  else s

/-- The copy runs with interrupts off and ends with `_sti`, whatever they were before. -/
def scrollVideoMemoryUp : Console := { s with interrupts := true }

def scrollBufferPositionIfNeeded : Console :=
  if s.yBufferPosition + s.glyphHeight > V.height then
    { s.scrollVideoMemoryUp with yBufferPosition := s.yBufferPosition - s.glyphHeight }
  else s

/-- The position goes down by the highest glyph of the line that ends. -/
def newLine : Console :=
  scrollBufferPositionIfNeeded V
    { s with
      dirtyLine := false
      yBufferPosition := s.yBufferPosition + s.maxGlyphSizeYOnLine
      xBufferPosition := 0
      maxGlyphSizeYOnLine := s.glyphHeight }

/-- `putChar` of a character that is drawn. -/
def putGlyph (ascii : Int8) : Console :=
  let s : Console := { s with dirtyLine := true }
  let s : Console := if s.xBufferPosition + s.glyphWidth > V.width then newLine V s else s
  { s.renderAscii ascii with xBufferPosition := s.xBufferPosition + s.glyphWidth }

def retractPosition : Console :=
  if s.xBufferPosition = 0 then
    if s.yBufferPosition - s.glyphHeight < 0 then { s with yBufferPosition := 0 }
    else
      { s with
        yBufferPosition := s.yBufferPosition - s.glyphHeight
        xBufferPosition := (V.width : ℤ) - (V.width % s.glyphWidth : ℕ) - s.glyphWidth }
  else { s with xBufferPosition := s.xBufferPosition - s.glyphWidth }

def showCursor : Console := (s.putGlyph V cursorChar).retractPosition V

def hideCursor : Console := (s.putGlyph V blankChar).retractPosition V

def clearPreviousCharacter : Console := ((s.hideCursor V).retractPosition V).showCursor V

/-- The column is no multiple of the tabulator. -/
def betweenTabs : Bool :=
  Int.tmod s.xBufferPosition (tabSize * s.glyphWidth : ℕ) ≠ 0

/-- `ascii` may be any `char`. The two loops run for at most `fuel` rounds. -/
def putChar (fuel : ℕ) (ascii : Int8) : Outcome Console :=
  if ascii = newLineChar then .done (newLine V ({ s with dirtyLine := true }.hideCursor V))
  else if ascii = carriageReturnChar then
    whileDo (fun s => decide (0 < s.xBufferPosition)) (fun s => .done (s.retractPosition V)) fuel
      ({ s with dirtyLine := true }.hideCursor V)
  else if ascii = tabulatorChar then
    doWhile (fun s => .done (s.putGlyph V blankChar)) betweenTabs fuel { s with dirtyLine := true }
  else .done (s.putGlyph V ascii)

/-- The screen is filled with the background; the size and the height of the line stay. -/
def clear : Console := { s with xBufferPosition := 0, yBufferPosition := 0 }

/-- The height of the line after a change of the size. -/
def resized : Console :=
  { s with
    maxGlyphSizeYOnLine :=
      if s.dirtyLine then max s.maxGlyphSizeYOnLine s.glyphHeight else s.glyphHeight }

def increaseFontSize : Console :=
  scrollBufferPositionIfNeeded V
    { s with fontSize := if s.fontSize > 9 then s.fontSize else s.fontSize + 1 }.resized

def decreaseFontSize : Console :=
  { s with fontSize := if s.fontSize ≤ 1 then s.fontSize else s.fontSize - 1 }.resized

/-- The size that `setFontSize` makes of its argument. -/
def clampSize (size : Int8) : ℕ :=
  if size.toInt < 1 then 1 else if size.toInt > 10 then 10 else size.toInt.toNat

/-- Unlike `increaseFontSize`, this does not scroll. -/
def setFontSize (size : Int8) : Console := { s with fontSize := clampSize size }.resized

/-- The colours that come with a descriptor. -/
def selectFd (fd : ℤ) : Console :=
  if fd = s.fileDescriptor then s
  else if fd = 1 then
    { s with
      textColor := defaultTextColor
      backgroundColor := defaultBackgroundColor
      fileDescriptor := fd }
  else if fd = 2 then
    { s with
      textColor := defaultErrorColor
      backgroundColor := defaultBackgroundColor
      fileDescriptor := fd }
  else s

end Console

end BareKernel
