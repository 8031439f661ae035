import Mathlib.Algebra.Order.Ring.Nat
import Mathlib.Tactic.Common

/-!
# The module packer

`buildImage` of `Toolchain/ModulePacker/main.c`: the kernel, the number of the other
files, and each of them behind its size. A file is its bytes. A stream that is read
has an indicator that is set when fewer bytes are there than are asked for, so the
loop reads once more behind a file whose size is a multiple of the buffer's.
-/

namespace BareKernel.Toolchain

/-! ## The code -/

/-- `BUFFER_SIZE`. -/
def bufferSize : ℕ := 128

/-- A `FILE` that is read: the bytes that are left, and its end-of-file indicator. -/
structure Source where
  left : List UInt8
  eof : Bool

def fopen (file : List UInt8) : Source := ⟨file, false⟩

/-- `fread(buffer, 1, n, source)`. -/
def fread (n : ℕ) (source : Source) : List UInt8 × Source :=
  (source.left.take n, ⟨source.left.drop n, source.eof || decide (source.left.length < n)⟩)

/-- Each round takes bytes from the source or sets its indicator. -/
def Source.measure (source : Source) : ℕ := source.left.length + if source.eof then 0 else 1

theorem measure_fread {source : Source} (h : ¬source.eof = true) :
    (fread bufferSize source).2.measure < source.measure := by
  rw [Bool.not_eq_true] at h
  have hleft : (fread bufferSize source).2.left.length = source.left.length - bufferSize :=
    List.length_drop
  have heof : (fread bufferSize source).2.eof = decide (source.left.length < bufferSize) := by
    rw [fread, h, Bool.false_or]
  rw [Source.measure, Source.measure, hleft, heof, h]
  by_cases hshort : source.left.length < bufferSize
  · -- the indicator is set
    rw [decide_eq_true hshort, if_pos rfl, if_neg Bool.false_ne_true]
    omega
  · -- a whole buffer is taken
    rw [decide_eq_false hshort, if_neg Bool.false_ne_true]
    have hpositive : 0 < bufferSize := by decide
    omega

/-- The bytes that were written to the target come first. -/
def writeFile (target : List UInt8) (source : Source) : List UInt8 :=
  if source.eof then target
  else writeFile (target ++ (fread bufferSize source).1) (fread bufferSize source).2
termination_by source.measure
decreasing_by exact measure_fread ‹_›

/-- `fwrite` of four bytes, as they stand in memory. -/
def fwriteUint32 (target : List UInt8) (v : UInt32) : List UInt8 :=
  target ++ [v.toUInt8, (v >>> 8).toUInt8, (v >>> 16).toUInt8, (v >>> 24).toUInt8]

/-- The size that `stat` tells becomes a `uint32_t`. -/
def writeSize (target file : List UInt8) : List UInt8 :=
  fwriteUint32 target (UInt32.ofNat file.length)

/-- `array_t`, whose length is an `int`. -/
structure FileArray where
  array : List (List UInt8)
  length_lt : array.length < 2 ^ 31

def FileArray.length (fileArray : FileArray) : Int32 := Int32.ofNat fileArray.array.length

/-- There is no image without a kernel. -/
def buildImage (fileArray : FileArray) : Option (List UInt8) :=
  match fileArray.array with
  | [] => none
  | kernel :: modules =>
      let target := writeFile [] (fopen kernel)
      let extraBinaries := fileArray.length - 1
      let target := fwriteUint32 target extraBinaries.toUInt32
      some
        (modules.foldl (fun target file => writeFile (writeSize target file) (fopen file)) target)

/-! ## The image -/

/-- The four bytes of a `uint32_t`. -/
def uint32Bytes (v : UInt32) : List UInt8 := fwriteUint32 [] v

/-- A module behind its size. -/
def record (file : List UInt8) : List UInt8 := uint32Bytes (UInt32.ofNat file.length) ++ file

/-- What stands behind the kernel. -/
def payload (modules : List (List UInt8)) : List UInt8 :=
  uint32Bytes (UInt32.ofNat modules.length) ++ modules.flatMap record

theorem fwriteUint32_eq (target : List UInt8) (v : UInt32) :
    fwriteUint32 target v = target ++ uint32Bytes v := rfl

/-- **The loop copies the file**, whatever its size. -/
theorem writeFile_eq (target : List UInt8) (source : Source) :
    writeFile target source = if source.eof then target else target ++ source.left := by
  induction target, source using writeFile.induct with
  | case1 target source heof => rw [writeFile, if_pos heof, if_pos heof]
  | case2 target source heof ih =>
      rw [writeFile, if_neg heof, if_neg heof, ih]
      rw [Bool.not_eq_true] at heof
      by_cases hshort : source.left.length < bufferSize
      · have hall : source.left.take bufferSize = source.left :=
          List.take_of_length_le (Nat.le_of_lt hshort)
        simp [fread, heof, hshort, hall]
      · simp [fread, heof, hshort]

theorem writeFile_fopen (target file : List UInt8) :
    writeFile target (fopen file) = target ++ file := by
  rw [writeFile_eq]
  rfl

theorem writeModule_eq (target file : List UInt8) :
    writeFile (writeSize target file) (fopen file) = target ++ record file := by
  rw [writeFile_fopen, writeSize, fwriteUint32_eq, record, List.append_assoc]

theorem foldl_modules (target : List UInt8) (modules : List (List UInt8)) :
    modules.foldl (fun target file => writeFile (writeSize target file) (fopen file)) target =
      target ++ modules.flatMap record := by
  induction modules generalizing target with
  | nil => simp
  | cons file modules ih =>
      rw [List.foldl_cons, ih, writeModule_eq, List.flatMap_cons, List.append_assoc]

/-- **The image** is the kernel and the payload. -/
theorem buildImage_eq {fileArray : FileArray} {kernel : List UInt8} {modules : List (List UInt8)}
    (h : fileArray.array = kernel :: modules) :
    buildImage fileArray = some (kernel ++ payload modules) := by
  have hcount : (fileArray.length - 1).toUInt32 = UInt32.ofNat modules.length := by
    rw [FileArray.length, h, List.length_cons, Int32.ofNat_add]
    have hone : Int32.ofNat 1 = 1 := rfl
    rw [hone, Int32.add_sub_cancel]
    rfl
  unfold buildImage
  rw [h]
  simp only
  rw [foldl_modules, hcount, writeFile_fopen, fwriteUint32_eq, List.nil_append, payload,
    List.append_assoc]

theorem length_uint32Bytes (v : UInt32) : (uint32Bytes v).length = 4 := rfl

theorem length_record (file : List UInt8) : (record file).length = 4 + file.length := by
  rw [record, List.length_append, length_uint32Bytes]

end BareKernel.Toolchain
