import BareKernel.Lib.ByteStrings
import BareKernel.Userland.CommandLine
import Mathlib.Data.List.Forall2

/-!
# Reading a line

How `main` of `shell.c` fills its buffer. The shell waits for a character at two places, in the loop
that fills the buffer and in the one that throws the rest of a line away; a step is what happens
from one character to the next. The buffer starts at address 0, and every store to it is recorded:
with the buffer full the terminator goes behind it.
-/

namespace BareKernel.Shell

open ByteMemory ByteStrings

def newline : UInt8 := 10

/-! ## The code -/

/-- `passed` are the lines that the rest of the loop got, as `buffer_dim` and `buffer`. -/
structure LineReader : Type where
  buffer : Mem
  bufferDim : ℕ
  discarding : Bool
  stores : List ℕ
  passed : List (ℕ × Mem)

namespace LineReader

/-- `buffer[i] = b`. -/
def store (R : LineReader) (i : ℕ) (b : UInt8) : LineReader :=
  { R with buffer := Function.update R.buffer i b, stores := i :: R.stores }

/-- `buffer[0] = buffer_dim = 0`. -/
def reset (R : LineReader) : LineReader := { R.store 0 0 with bufferDim := 0 }

/-- The buffer is full. The last character was no newline. -/
def overflow (R : LineReader) : LineReader :=
  { (R.store R.bufferDim 0).reset with discarding := true }

/-- A newline was read. An empty command is skipped. -/
def endLine (R : LineReader) : LineReader :=
  let R := (R.store R.bufferDim 0).store R.bufferDim 0
  if R.bufferDim = 0 ∨ R.buffer 0 = 0 then R.reset
  else { R with passed := R.passed ++ [(R.bufferDim, R.buffer)] }.reset

/-- `getchar` returned `result`, which becomes a `signed char`. -/
def read (R : LineReader) (result : Int32) : LineReader :=
  let c := result.toInt8.toUInt8
  if R.discarding then { R with discarding := c ≠ newline }
  else if c = newline then R.endLine
  else
    let R := { R.store R.bufferDim c with bufferDim := R.bufferDim + 1 }
    if R.bufferDim < maxBufferSize then R else R.overflow

def start (buffer : Mem) : LineReader := ⟨buffer, 0, false, [], []⟩

def run (buffer : Mem) (results : List Int32) : LineReader := results.foldl read (start buffer)

end LineReader

/-! ## Lines -/

/-- The lines of a text that are complete, and what follows the last newline. -/
structure Lines : Type where
  complete : List CStr
  last : CStr

def Lines.add (L : Lines) (c : UInt8) : Lines :=
  if c = newline then ⟨L.complete ++ [L.last], []⟩ else ⟨L.complete, L.last ++ [c]⟩

def linesOf (text : List UInt8) : Lines := text.foldl Lines.add ⟨[], []⟩

def Lines.all (L : Lines) : List CStr := L.complete ++ [L.last]

/-- A command that is not too long, and not skipped because the buffer holds the empty string. -/
def proper (s : CStr) : Bool := s.length < maxBufferSize ∧ s ≠ [] ∧ s.head? ≠ some 0

/-- The rest of the loop got the line, with its terminator. -/
def Passes (s : CStr) (p : ℕ × Mem) : Prop := p.1 = s.length ∧ Holds p.2 0 (s ++ [0])

/-- **What the reader should do**: every store is to the buffer; the proper lines were passed on;
and of the line that is being read the buffer has all characters, or they are thrown away up to
the newline. -/
structure LineReader.Reads (R : LineReader) (L : Lines) : Prop where
  inside : ∀ i ∈ R.stores, i < maxBufferSize
  passed : List.Forall₂ Passes (L.complete.filter proper) R.passed
  reading : L.last.length < maxBufferSize →
    R.discarding = false ∧ R.bufferDim = L.last.length ∧ Holds R.buffer 0 L.last
  discarding : maxBufferSize ≤ L.last.length → R.discarding = true ∧ R.bufferDim = 0

namespace LineReader

variable {R : LineReader} {L : Lines} {s : CStr} {c : UInt8}

/-- What holds of the reader also if a line is too long. -/
structure Follows (R : LineReader) (L : Lines) : Prop where
  stores : (∀ i ∈ R.stores, i < maxBufferSize) ↔ ∀ s ∈ L.all, s.length < maxBufferSize
  passed : List.Forall₂ Passes (L.complete.filter proper) R.passed
  reading : L.last.length < maxBufferSize →
    R.discarding = false ∧ R.bufferDim = L.last.length ∧ Holds R.buffer 0 L.last
  discarding : maxBufferSize ≤ L.last.length → R.discarding = true ∧ R.bufferDim = 0

theorem follows_start (buffer : Mem) : (start buffer).Follows ⟨[], []⟩ := by
  refine ⟨?_, .nil, fun _ => ⟨rfl, rfl, trivial⟩, fun h => absurd h (by decide)⟩
  simp [start, Lines.all, maxBufferSize]

/-- What the end of a line leaves behind. -/
theorem endLine_eq (R : LineReader) : R.endLine =
    { buffer := Function.update (Function.update R.buffer R.bufferDim 0) 0 0
      bufferDim := 0
      discarding := R.discarding
      stores := 0 :: R.bufferDim :: R.bufferDim :: R.stores
      passed :=
        R.passed ++ if R.bufferDim = 0 ∨ Function.update R.buffer R.bufferDim 0 0 = 0 then []
        else [(R.bufferDim, Function.update R.buffer R.bufferDim 0)] } := by
  have hdouble : Function.update (Function.update R.buffer R.bufferDim 0) R.bufferDim 0 =
      Function.update R.buffer R.bufferDim 0 := Function.update_idem _ _ _
  unfold endLine reset store
  dsimp only
  rw [hdouble]
  split
  · rw [List.append_nil]
  · rfl

/-- Stores to the buffer do not count. -/
theorem inside_append {l l' : List ℕ} (hl : ∀ i ∈ l, i < maxBufferSize) :
    (∀ i ∈ l ++ l', i < maxBufferSize) ↔ ∀ i ∈ l', i < maxBufferSize := by
  constructor
  · exact fun h i hi => h i (List.mem_append_right l hi)
  · intro h i hi
    rcases List.mem_append.mp hi with hi | hi
    · exact hl i hi
    · exact h i hi

theorem nil_short : ([] : CStr).length < maxBufferSize := by decide

/-- A new line has no characters. -/
theorem all_newline (L : Lines) :
    (∀ s ∈ (⟨L.complete ++ [L.last], []⟩ : Lines).all, s.length < maxBufferSize) ↔
      ∀ s ∈ L.all, s.length < maxBufferSize := by
  constructor
  · exact fun h s hs => h s (List.mem_append_left _ hs)
  · intro h s hs
    rcases List.mem_append.mp hs with hs | hs
    · exact h s hs
    · rw [List.mem_singleton.mp hs]
      exact nil_short

/-- A line ends that fits. -/
theorem endLine_follows (h : R.Follows L) (hless : L.last.length < maxBufferSize) :
    R.endLine.Follows ⟨L.complete ++ [L.last], []⟩ := by
  obtain ⟨hreading, hdim, hholds⟩ := h.reading hless
  have hbuffer : Holds (Function.update R.buffer R.bufferDim 0) 0 (L.last ++ [0]) := by
    have hstored : Holds (Function.update R.buffer (0 + L.last.length) 0) 0 (L.last ++ [0]) :=
      hholds.store
    rwa [Nat.zero_add, ← hdim] at hstored
  have hskip : (R.bufferDim = 0 ∨ Function.update R.buffer R.bufferDim 0 0 = 0) ↔
      proper L.last = false := by
    rw [hdim] at hbuffer ⊢
    cases hlast : L.last with
    | nil => simp [proper]
    | cons b s =>
        rw [hlast] at hbuffer hless
        have hfirst : Function.update R.buffer (b :: s).length 0 0 = b := hbuffer.1
        rw [List.length_cons] at hless
        rw [hfirst]
        simp [proper, hless]
  have hnew : ∀ i ∈ [0, R.bufferDim, R.bufferDim], i < maxBufferSize := by
    intro i hi
    simp only [List.mem_cons, List.not_mem_nil, or_false] at hi
    rcases hi with rfl | rfl | rfl
    · decide
    · omega
    · omega
  rw [endLine_eq]
  refine ⟨?_, ?_, fun _ => ⟨hreading, rfl, trivial⟩,
    fun h => absurd h (not_le.mpr nil_short)⟩
  · rw [all_newline, ← h.stores]
    exact inside_append hnew
  · rw [List.filter_append]
    refine List.rel_append h.passed ?_
    by_cases hproper : proper L.last = false
    · rw [if_pos (hskip.mpr hproper), List.filter_cons_of_neg (by simp [hproper])]
      exact .nil
    · rw [if_neg (fun h => hproper (hskip.mp h)), List.filter_cons_of_pos (by simpa using hproper)]
      exact .cons ⟨hdim, hbuffer⟩ .nil

/-- A character goes to the buffer, and it may be the one that fills it. -/
theorem fill_follows (h : R.Follows L) (hless : L.last.length < maxBufferSize) :
    (if R.bufferDim + 1 < maxBufferSize then
      { R.store R.bufferDim c with bufferDim := R.bufferDim + 1 }
      else ({ R.store R.bufferDim c with bufferDim := R.bufferDim +
        1 } : LineReader).overflow).Follows
        ⟨L.complete, L.last ++ [c]⟩ := by
  obtain ⟨hreading, hdim, hholds⟩ := h.reading hless
  have hlast : ∀ s : CStr, s ∈ (⟨L.complete, L.last ++ [c]⟩ : Lines).all ↔
      s ∈ L.complete ∨ s = L.last ++ [c] := by simp [Lines.all]
  have hall : (L.last ++ [c]).length < maxBufferSize →
      ((∀ s ∈ (⟨L.complete, L.last ++ [c]⟩ : Lines).all, s.length < maxBufferSize) ↔
        ∀ s ∈ L.all, s.length < maxBufferSize) := by
    intro hfits
    simp only [Lines.all, List.mem_append, List.mem_singleton]
    constructor
    · rintro hshort s (hs | rfl)
      · exact hshort s (.inl hs)
      · exact hless
    · rintro hshort s (hs | rfl)
      · exact hshort s (.inl hs)
      · exact hfits
  have hlength : (L.last ++ [c]).length = R.bufferDim + 1 := by
    rw [List.length_append, List.length_singleton, hdim]
  split
  · rename_i hfits
    refine ⟨?_, h.passed, fun _ => ⟨hreading, hlength.symm, ?_⟩, fun hlong => ?_⟩
    · rw [hall (hlength ▸ hfits), ← h.stores]
      exact inside_append (l := [R.bufferDim]) (by simp; omega)
    · have hstored : Holds (Function.update R.buffer (0 + L.last.length) c) 0 (L.last ++ [c]) :=
        hholds.store
      rwa [Nat.zero_add, ← hdim] at hstored
    · dsimp only at hlong
      omega
  · -- the buffer is full, and the terminator goes behind it
    rename_i hfull
    refine ⟨iff_of_false ?_ ?_, h.passed, fun hshort => ?_, fun _ => ⟨rfl, rfl⟩⟩
    · intro hinside
      exact hfull (hinside (R.bufferDim + 1) (by simp [overflow, reset, store]))
    · intro hshort
      have hline := hshort (L.last ++ [c]) ((hlast _).mpr (.inr rfl))
      omega
    · dsimp only at hshort
      omega

/-- **Every character** is dealt with. -/
theorem read_follows (h : R.Follows L) (result : Int32) :
    (R.read result).Follows (L.add result.toInt8.toUInt8) := by
  unfold read Lines.add
  dsimp only
  generalize result.toInt8.toUInt8 = c
  by_cases hless : L.last.length < maxBufferSize
  · rw [if_neg (by rw [(h.reading hless).1]; simp)]
    by_cases hc : c = newline
    · rw [if_pos hc, if_pos hc]
      exact endLine_follows h hless
    · rw [if_neg hc, if_neg hc]
      exact fill_follows h hless
  · -- the rest of a line that was too long
    obtain ⟨hdiscarding, hdim⟩ := h.discarding (not_lt.mp hless)
    rw [if_pos hdiscarding]
    by_cases hc : c = newline
    · rw [if_pos hc]
      refine ⟨h.stores.trans (all_newline L).symm, ?_, fun _ => ⟨by simp [hc], hdim, trivial⟩,
        fun h => absurd h (not_le.mpr nil_short)⟩
      rw [List.filter_append, List.filter_cons_of_neg (by simp [proper]; omega)]
      simpa using h.passed
    · rw [if_neg hc]
      refine ⟨h.stores.trans (iff_of_false (fun hshort => hless ?_) fun hshort => hless ?_),
        h.passed, fun hshort => ?_, fun _ => ⟨by simp [hc], hdim⟩⟩
      · exact hshort L.last (List.mem_append_right _ (List.mem_singleton_self _))
      · have hline := hshort (L.last ++ [c]) (List.mem_append_right _ (List.mem_singleton_self _))
        rw [List.length_append, List.length_singleton] at hline
        omega
      · dsimp only at hshort
        rw [List.length_append, List.length_singleton] at hshort
        omega

theorem run_follows (buffer : Mem) (results : List Int32) :
    (run buffer results).Follows (linesOf (results.map fun r => r.toInt8.toUInt8)) := by
  induction results using List.reverseRecOn with
  | nil => exact follows_start buffer
  | append_singleton results result ih =>
      unfold run linesOf at *
      rw [List.foldl_append, List.map_append, List.foldl_append]
      exact read_follows ih result

/-- **The line reader stays in its buffer**, passes on the lines that fit and starts anew behind
those that do not, for every stream of characters, exactly if no line reaches `MAX_BUFFER_SIZE`
characters. Only the terminator of a full buffer is out of place. -/
theorem reads_lines (buffer : Mem) (results : List Int32) :
    (run buffer results).Reads (linesOf (results.map fun r => r.toInt8.toUInt8)) ↔
      ∀ s ∈ (linesOf (results.map fun r => r.toInt8.toUInt8)).all, s.length < maxBufferSize := by
  have h := run_follows buffer results
  constructor
  · exact fun hreads => h.stores.mp hreads.inside
  · exact fun hshort => ⟨h.stores.mpr hshort, h.passed, h.reading, h.discarding⟩

/-- **A line of `MAX_BUFFER_SIZE` characters** has its terminator stored behind the buffer. -/
theorem reads_longLine : ¬(run (fun _ => 0) (List.replicate maxBufferSize 97)).Reads
    (linesOf ((List.replicate maxBufferSize 97).map fun r : Int32 => r.toInt8.toUInt8)) := by
  intro hreads
  have hadd : ∀ n, (List.replicate n (97 : UInt8)).foldl Lines.add ⟨[], []⟩ =
      ⟨[], List.replicate n 97⟩ := by
    intro n
    induction n with
    | zero => rfl
    | succ n ih =>
        rw [List.replicate_succ', List.foldl_append, ih]
        rfl
  have hshort := (run_follows _ _).stores.mp hreads.inside
  have hmap : (List.replicate maxBufferSize (97 : Int32)).map (fun r => r.toInt8.toUInt8) =
      List.replicate maxBufferSize 97 := List.map_replicate
  rw [hmap, linesOf, hadd] at hshort
  have hline := hshort (List.replicate maxBufferSize 97) (by simp [Lines.all])
  rw [List.length_replicate] at hline
  exact absurd hline (lt_irrefl _)

end LineReader

end BareKernel.Shell
