import BareKernel.Userland.IntToString

/-!
# Lines, words and characters

`wc_wrapper` of `Userland/Shell/commands.c`. It reads a byte at a time until `read` gives none, so
its input is the row of the bytes before that. The counters are `int`s, and the loop sees a word
only when it is over.
-/

namespace BareKernel.WordCount

open ByteMemory ByteStrings Numerals Shell Text

/-! ## The code -/

/-- `show_lines`, `show_words` and `show_chars`. -/
structure Shown : Type where
  lines : Bool
  words : Bool
  chars : Bool

/-- `switch (argv[i][j])`. The error is the letter that is no option. -/
def Shown.letter (shown : Shown) (c : UInt8) : Except UInt8 Shown :=
  if c = 108 then .ok { shown with lines := true }
  else if c = 119 then .ok { shown with words := true }
  else if c = 99 then .ok { shown with chars := true }
  else .error c

/-- A round of the loop over the arguments. The flag is `show_all`. -/
def parseArgument (opts : Shown × Bool) (arg : CStr) : Except UInt8 (Shown × Bool) :=
  match arg with
  | 45 :: letters => (letters.foldlM Shown.letter opts.1).map fun shown => (shown, false)
  | _ => .ok opts

def parseArguments (argv : List CStr) : Except UInt8 Shown :=
  (argv.tail.foldlM parseArgument (⟨false, false, false⟩, true)).map fun opts =>
    if opts.2 then ⟨true, true, true⟩ else opts.1

structure Counts : Type where
  lineCount : Int32
  wordCount : Int32
  charCount : Int32
  inWord : Bool

namespace Counts

/-- `if (in_word)`, at a separator. -/
def endWord (s : Counts) : Counts :=
  if s.inWord then { s with wordCount := s.wordCount + 1, inWord := false } else s

/-- A round of the loop over the input. -/
def read (s : Counts) (c : UInt8) : Counts :=
  let s := { s with charCount := s.charCount + 1 }
  if c = 10 then endWord { s with lineCount := s.lineCount + 1 }
  else if c = 32 ∨ c = 9 ∨ c = 13 then s.endWord
  else { s with inWord := true }

/-- The last word has no separator behind it. -/
def finish (s : Counts) : Counts :=
  if s.inWord then { s with wordCount := s.wordCount + 1 } else s

end Counts

def countInput (input : List UInt8) : Counts :=
  (input.foldl Counts.read ⟨0, 0, 0, false⟩).finish

def ascii (s : String) : CStr := s.toList.map fun c => UInt8.ofNat c.toNat

/-- The bytes that `strlen` counts in a `char[50]`. -/
def cString (m : Mem) : CStr := ((List.range 50).map m).takeWhile (· ≠ 0)

/-- A counter and its label, if they are shown. The `char[50]` held `m`. -/
def writeCount (shown : Bool) (m : Mem) (count : Int32) (label : String) : CStr :=
  if shown then cString (intToString count 0 m).2 ++ ascii label else []

/-- The value that is returned, what `printf` printed, and what was written to the output. -/
structure Outcome : Type where
  returned : Int32
  printed : CStr
  written : CStr
deriving DecidableEq

def invalidOption (c : UInt8) : CStr :=
  ascii "wc: invalid option -- '" ++ c :: ascii "'\n" ++ ascii "Usage: wc [-l] [-w] [-c]\n"

def wcWrapper (argv : List CStr) (input : List UInt8) (lineStr wordStr charStr : Mem) : Outcome :=
  match parseArguments argv with
  | .error c => ⟨1, invalidOption c, []⟩
  | .ok shown =>
      let s := countInput input
      ⟨0, [], writeCount shown.lines lineStr s.lineCount " lineas\n" ++
        (writeCount shown.words wordStr s.wordCount " palabras\n" ++
          writeCount shown.chars charStr s.charCount " caracteres\n")⟩

/-! ## What it is to compute -/

/-- Newline, blank, tabulator and return. -/
def separator (c : UInt8) : Bool := c = 10 ∨ c = 32 ∨ c = 9 ∨ c = 13

/-- The words of an input: its maximal runs of bytes that are no separators. -/
def inputWords (input : List UInt8) : List CStr :=
  (input.splitOnP separator).filter (· ≠ [])

/-- The letters of an argument that has options. -/
def optionLetters : CStr → CStr
  | 45 :: letters => letters
  | _ => []

/-- The letters that `wc` is called with. -/
def allLetters (argv : List CStr) : CStr := argv.tail.flatMap optionLetters

def known (c : UInt8) : Bool := c = 108 ∨ c = 119 ∨ c = 99

def firstUnknown (letters : CStr) : Option UInt8 := letters.find? fun c => !known c

/-- What is asked for is shown, and everything is when no argument begins with `-`. A lone `-`
asks for nothing. -/
def shows (argv : List CStr) (c : UInt8) : Bool :=
  argv.tail.all (fun arg => arg.head? ≠ some 45) || decide (c ∈ allLetters argv)

/-- A line of the report. -/
def reportLine (shown : Bool) (n : ℕ) (label : String) : CStr :=
  if shown then numeral 10 n ++ ascii label else []

/-! ## The arguments -/

/-- The letters are added to what is shown. -/
def Shown.add (shown : Shown) (letters : CStr) : Shown where
  lines := shown.lines || decide (108 ∈ letters)
  words := shown.words || decide (119 ∈ letters)
  chars := shown.chars || decide (99 ∈ letters)

variable {c : UInt8}

theorem add_add (shown : Shown) (first second : CStr) :
    (shown.add first).add second = shown.add (first ++ second) := by
  simp [Shown.add, Bool.or_assoc]

theorem letter_unknown (h : known c = false) (shown : Shown) : shown.letter c = .error c := by
  simp only [known, decide_eq_false_iff_not, not_or] at h
  rw [Shown.letter, if_neg h.1, if_neg h.2.1, if_neg h.2.2]

theorem letter_known (h : known c = true) (shown : Shown) :
    shown.letter c = .ok (shown.add [c]) := by
  simp only [known, decide_eq_true_eq] at h
  rcases h with rfl | rfl | rfl <;> simp [Shown.letter, Shown.add]

/-- The first letter that is no option ends the loop. -/
theorem letters_eq (letters : CStr) (shown : Shown) :
    letters.foldlM Shown.letter shown =
      match firstUnknown letters with
      | some c => .error c
      | none => .ok (shown.add letters) := by
  induction letters generalizing shown with
  | nil => simp [firstUnknown, Shown.add, pure, Except.pure]
  | cons c letters ih =>
      rw [List.foldlM_cons, firstUnknown]
      cases hknown : known c with
      | false =>
          rw [letter_unknown hknown, List.find?_cons_of_pos (by simp [hknown])]
          rfl
      | true =>
          rw [letter_known hknown, List.find?_cons_of_neg (by simp [hknown])]
          change letters.foldlM Shown.letter (shown.add [c]) = _
          rw [ih, add_add, firstUnknown]
          rfl

theorem parseArgument_eq (opts : Shown × Bool) (arg : CStr) :
    parseArgument opts arg =
      match firstUnknown (optionLetters arg) with
      | some c => .error c
      | none => .ok (opts.1.add (optionLetters arg), opts.2 && decide (arg.head? ≠ some 45)) := by
  unfold parseArgument
  split
  · rename_i letters
    rw [letters_eq, optionLetters]
    cases firstUnknown letters <;> simp [Except.map]
  · rename_i hplain
    have hhead : arg.head? ≠ some 45 := by
      intro hhead
      obtain ⟨letters, rfl⟩ := List.head?_eq_some_iff.mp hhead
      exact hplain letters rfl
    have hletters : optionLetters arg = [] := by
      unfold optionLetters
      split
      · rename_i letters
        exact absurd rfl (hplain letters)
      · rfl
    simp [hletters, firstUnknown, Shown.add, hhead]

theorem arguments_eq (args : List CStr) (opts : Shown × Bool) :
    args.foldlM parseArgument opts =
      match firstUnknown (args.flatMap optionLetters) with
      | some c => .error c
      | none => .ok (opts.1.add (args.flatMap optionLetters),
          opts.2 && args.all fun arg => arg.head? ≠ some 45) := by
  induction args generalizing opts with
  | nil => simp [firstUnknown, Shown.add, pure, Except.pure]
  | cons arg args ih =>
      have hfind : firstUnknown ((arg :: args).flatMap optionLetters) =
          (firstUnknown (optionLetters arg)).or (firstUnknown (args.flatMap optionLetters)) := by
        rw [List.flatMap_cons, firstUnknown, List.find?_append]
        rfl
      rw [List.foldlM_cons, parseArgument_eq, hfind]
      cases hfirst : firstUnknown (optionLetters arg) with
      | some c => rfl
      | none =>
          rw [Option.none_or]
          change args.foldlM parseArgument _ = _
          rw [ih, add_add, List.all_cons, Bool.and_assoc, List.flatMap_cons]

/-- **The options** that are shown, unless there is a letter that is none. -/
theorem parseArguments_eq (argv : List CStr) :
    parseArguments argv =
      match firstUnknown (allLetters argv) with
      | some c => .error c
      | none => .ok ⟨shows argv 108, shows argv 119, shows argv 99⟩ := by
  rw [parseArguments, arguments_eq, ← allLetters]
  cases firstUnknown (allLetters argv) with
  | some c => rfl
  | none =>
      simp only [Except.map, shows, Bool.true_and]
      cases argv.tail.all fun arg => arg.head? ≠ some 45 <;> simp [Shown.add]

/-! ## The counters -/

/-- The words that an input ends, when the byte before it may belong to one. -/
def wordsAfter (inWord : Bool) (input : List UInt8) : ℕ :=
  if inWord then ((input.splitOnP separator).tail.filter (· ≠ [])).length + 1
  else (inputWords input).length

section Words

variable {input : List UInt8} {inWord : Bool} {s : Counts}

theorem wordsAfter_nil : wordsAfter inWord [] = inWord.toNat := by
  cases inWord <;> rfl

theorem wordsAfter_separator (h : separator c = true) :
    wordsAfter inWord (c :: input) = inWord.toNat + wordsAfter false input := by
  have hsplit : (c :: input).splitOnP separator = [] :: input.splitOnP separator := by
    rw [List.splitOnP_cons_eq_if_modifyHead, if_pos h]
  cases inWord with
  | false => simp [wordsAfter, inputWords, hsplit]
  | true =>
      simp only [wordsAfter, hsplit, List.tail_cons, if_true, Bool.toNat_true]
      exact Nat.add_comm _ _

/-- A byte of a word belongs to the field that comes first. -/
theorem wordsAfter_other (h : separator c = false) :
    wordsAfter inWord (c :: input) = wordsAfter true input := by
  obtain ⟨field, fields, hfields⟩ :=
    List.exists_cons_of_ne_nil (List.splitOnP_ne_nil separator input)
  have hsplit : (c :: input).splitOnP separator = (c :: field) :: fields := by
    rw [List.splitOnP_cons_eq_if_modifyHead, if_neg (by simp [h]), hfields]
    rfl
  cases inWord <;> simp [wordsAfter, inputWords, hsplit, hfields]

theorem wordsAfter_le (inWord : Bool) (input : List UInt8) :
    wordsAfter inWord input ≤ inWord.toNat + input.length := by
  induction input generalizing inWord with
  | nil => exact wordsAfter_nil.le
  | cons c input ih =>
      rw [List.length_cons]
      cases hc : separator c with
      | true =>
          have hrest := ih false
          rw [wordsAfter_separator hc]
          simp only [Bool.toNat_false] at hrest
          omega
      | false =>
          have hrest := ih true
          rw [wordsAfter_other hc]
          simp only [Bool.toNat_true] at hrest
          omega

theorem endWord_rest (s : Counts) :
    s.endWord.lineCount = s.lineCount ∧ s.endWord.charCount = s.charCount := by
  unfold Counts.endWord
  cases s.inWord <;> exact ⟨rfl, rfl⟩

theorem read_rest (s : Counts) (c : UInt8) :
    (s.read c).lineCount = s.lineCount + (if c = 10 then 1 else 0) ∧
      (s.read c).charCount = s.charCount + 1 := by
  unfold Counts.read
  by_cases hline : c = 10
  · rw [if_pos hline, if_pos hline]
    exact endWord_rest _
  · rw [if_neg hline, if_neg hline, Int32.add_zero]
    by_cases hblank : c = 32 ∨ c = 9 ∨ c = 13
    · rw [if_pos hblank]
      exact endWord_rest _
    · rw [if_neg hblank]
      exact ⟨rfl, rfl⟩

theorem endWord_wordCount (s : Counts) :
    s.endWord.wordCount = s.wordCount + Int32.ofNat s.inWord.toNat ∧ s.endWord.inWord = false := by
  unfold Counts.endWord
  cases hword : s.inWord with
  | false => exact ⟨(Int32.add_zero _).symm, hword⟩
  | true => exact ⟨rfl, rfl⟩

theorem read_separator (h : separator c = true) (s : Counts) :
    (s.read c).wordCount = s.wordCount + Int32.ofNat s.inWord.toNat ∧
      (s.read c).inWord = false := by
  simp only [separator, decide_eq_true_eq] at h
  unfold Counts.read
  by_cases hline : c = 10
  · rw [if_pos hline]
    exact endWord_wordCount _
  · rw [if_neg hline, if_pos (h.resolve_left hline)]
    exact endWord_wordCount _

theorem read_other (h : separator c = false) (s : Counts) :
    (s.read c).wordCount = s.wordCount ∧ (s.read c).inWord = true := by
  simp only [separator, decide_eq_false_iff_not, not_or] at h
  unfold Counts.read
  rw [if_neg h.1, if_neg (by tauto)]
  exact ⟨rfl, rfl⟩

theorem finish_wordCount (s : Counts) :
    s.finish.wordCount = s.wordCount + Int32.ofNat s.inWord.toNat := by
  unfold Counts.finish
  cases s.inWord with
  | false => exact (Int32.add_zero _).symm
  | true => rfl

/-- The words that the loop has counted and those that are to come. -/
theorem run_wordCount (input : List UInt8) (s : Counts) :
    (input.foldl Counts.read s).finish.wordCount =
      s.wordCount + Int32.ofNat (wordsAfter s.inWord input) := by
  induction input generalizing s with
  | nil => rw [List.foldl_nil, finish_wordCount, wordsAfter_nil]
  | cons c input ih =>
      rw [List.foldl_cons, ih]
      cases hc : separator c with
      | true =>
          obtain ⟨hcount, hword⟩ := read_separator hc s
          rw [hcount, hword, wordsAfter_separator hc, Int32.ofNat_add, Int32.add_assoc]
      | false =>
          obtain ⟨hcount, hword⟩ := read_other hc s
          rw [hcount, hword, wordsAfter_other hc]

theorem run_lineCount (input : List UInt8) (s : Counts) :
    (input.foldl Counts.read s).lineCount = s.lineCount + Int32.ofNat (input.count 10) := by
  induction input generalizing s with
  | nil => exact (Int32.add_zero _).symm
  | cons c input ih =>
      rw [List.foldl_cons, ih, (read_rest s c).1, List.count_cons]
      by_cases hline : c = 10
      · rw [if_pos hline, if_pos (by simp [hline]), Int32.add_assoc, Int32.add_comm 1,
          Int32.ofNat_add]
        rfl
      · rw [if_neg hline, if_neg (by simp [hline]), Int32.add_zero, Nat.add_zero]

theorem run_charCount (input : List UInt8) (s : Counts) :
    (input.foldl Counts.read s).charCount = s.charCount + Int32.ofNat input.length := by
  induction input generalizing s with
  | nil => exact (Int32.add_zero _).symm
  | cons c input ih =>
      rw [List.foldl_cons, ih, (read_rest s c).2, List.length_cons, Int32.add_assoc,
        Int32.add_comm 1, Int32.ofNat_add]
      rfl

theorem finish_rest (s : Counts) :
    s.finish.lineCount = s.lineCount ∧ s.finish.charCount = s.charCount := by
  unfold Counts.finish
  cases s.inWord <;> exact ⟨rfl, rfl⟩

/-- **What the loop counts**, as `int`s. -/
theorem countInput_eq (input : List UInt8) :
    (countInput input).lineCount = Int32.ofNat (input.count 10) ∧
      (countInput input).wordCount = Int32.ofNat (inputWords input).length ∧
      (countInput input).charCount = Int32.ofNat input.length := by
  refine ⟨?_, ?_, ?_⟩
  · rw [countInput, (finish_rest _).1, run_lineCount, Int32.zero_add]
  · rw [countInput, run_wordCount, Int32.zero_add]
    rfl
  · rw [countInput, (finish_rest _).2, run_charCount, Int32.zero_add]

end Words

/-! ## The report -/

section Report

variable {m : Mem} {s : CStr}

theorem cString_eq (h : IsString m 0 s) (hlength : s.length < 50) : cString m = s := by
  have hprefix : (List.range 50).map m = s ++ 0 :: ((List.range 50).map m).drop (s.length + 1) := by
    have htake : ((List.range 50).map m).take (s.length + 1) = s ++ [0] := by
      refine List.ext_getElem ?_ fun i hi hi' => ?_
      · simp
        omega
      · have hread := holds_getElem h.holds i hi'
        rw [Nat.zero_add] at hread
        rw [← hread]
        simp
    calc (List.range 50).map m
        = ((List.range 50).map m).take (s.length + 1) ++
            ((List.range 50).map m).drop (s.length + 1) := (List.take_append_drop _ _).symm
      _ = s ++ 0 :: ((List.range 50).map m).drop (s.length + 1) := by
          rw [htake, List.append_assoc, List.singleton_append]
  rw [cString, hprefix, List.takeWhile_append_of_pos fun c hc => by simpa using h.nonzero c hc]
  simp

/-- A counter that has not wrapped is shown as its numeral. -/
theorem writeCount_eq {n : ℕ} (hn : n < 2 ^ 31) (shown : Bool) (m : Mem) (label : String) :
    writeCount shown m (Int32.ofNat n) label = reportLine shown n label := by
  have hint : (Int32.ofNat n).toInt = n := Int32.toInt_ofNat_of_lt (by omega)
  have hstring := intToString_numeral (n := Int32.ofNat n) (by omega) 0 m
  have hnat : (Int32.ofNat n).toInt.toNat = n := by rw [hint, Int.toNat_natCast]
  have hlength := length_numeral_le (n := Int32.ofNat n) (by omega)
  rw [hnat] at hstring hlength
  rw [writeCount, reportLine, cString_eq hstring (by omega)]

end Report

/-- **The report of `wc`**, for an input that its counters can count: what is shown are the number
of newlines, of words and of bytes, whatever the three buffers held. A letter that is no option
ends it before it reads. -/
theorem wc_report (argv : List CStr) (input : List UInt8) (hinput : input.length < 2 ^ 31)
    (lineStr wordStr charStr : Mem) :
    wcWrapper argv input lineStr wordStr charStr =
      match firstUnknown (allLetters argv) with
      | some c => ⟨1, invalidOption c, []⟩
      | none => ⟨0, [], reportLine (shows argv 108) (input.count 10) " lineas\n" ++
          (reportLine (shows argv 119) (inputWords input).length " palabras\n" ++
            reportLine (shows argv 99) input.length " caracteres\n")⟩ := by
  obtain ⟨hlines, hwords, hchars⟩ := countInput_eq input
  have hlineBound : input.count 10 < 2 ^ 31 := lt_of_le_of_lt List.count_le_length hinput
  have hwordBound : (inputWords input).length < 2 ^ 31 := by
    have hle := wordsAfter_le false input
    simp only [wordsAfter, Bool.toNat_false] at hle
    exact lt_of_le_of_lt (by simpa using hle) hinput
  rw [wcWrapper, parseArguments_eq]
  cases firstUnknown (allLetters argv) with
  | some c => rfl
  | none =>
      dsimp only
      rw [hlines, hwords, hchars, writeCount_eq hlineBound, writeCount_eq hwordBound,
        writeCount_eq hinput]

/-- `wc -lw` of `"ab c\nd"`. -/
theorem wc_report_lines_words : ([97, 98, 32, 99, 10, 100] : List UInt8).length < 2 ^ 31 ∧
    wcWrapper [[119, 99], [45, 108, 119]] [97, 98, 32, 99, 10, 100] (fun _ => 0) (fun _ => 0)
      (fun _ => 0) = ⟨0, [], ascii "1 lineas\n3 palabras\n"⟩ := by
  have hlength : ([97, 98, 32, 99, 10, 100] : List UInt8).length < 2 ^ 31 := by decide
  refine ⟨hlength, ?_⟩
  rw [wc_report _ _ hlength]
  decide

end BareKernel.WordCount
