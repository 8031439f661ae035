import Mathlib.Data.List.DropRight
import Mathlib.Data.List.Chain
import Mathlib.Tactic.Common

/-!
# The command line of the shell

How `main` of `shell.c` takes a line apart, with `parse_pipe_command`, `parse_arguments` and the
`strtok` of the library, and what the line means: words between blanks, one `|`, and `&` at its
end. A string is the list of the bytes before its terminator.
-/

namespace BareKernel.Shell

/-- `MAX_BUFFER_SIZE`. -/
def maxBufferSize : ℕ := 1024

/-- `MAX_ARGS`. -/
def maxArgs : ℕ := 64

def blank : UInt8 := 32

def tabulator : UInt8 := 9

def ampersand : UInt8 := 38

def bar : UInt8 := 124

abbrev CStr := List UInt8

/-! ## The code -/

/-- The loop of `strtok` with the delimiter `" "`: the bytes up to the next blank, and those behind
it. The blank becomes the terminator of the token. -/
def splitToken : CStr → CStr × CStr
  | [] => ([], [])
  | c :: cs => if c = blank then ([], cs) else ((c :: (splitToken cs).1), (splitToken cs).2)

/-- `strtok(s1, " ")`, with what its static pointer `last` leads to. -/
def strtok (s1 : Option CStr) (last : CStr) : Option CStr × CStr :=
  match s1 with
  | some s => (some (splitToken s).1, (splitToken s).2)
  | none => if last = [] then (none, last) else (some (splitToken last).1, (splitToken last).2)

/-- The loop of `parse_arguments`, with room for `n` more entries. -/
def collect : ℕ → Option CStr × CStr → List CStr
  | 0, _ => []
  | _ + 1, (none, _) => []
  | n + 1, (some token, last) => token :: collect n (strtok none last)

/-- The null pointer behind the last argument needs an entry of its own: with `MAX_ARGS` tokens it
is written behind the vector. -/
def parseArguments (buffer : CStr) : Option (List CStr) :=
  let argv := collect maxArgs (strtok (some buffer) [])
  if argv.length < maxArgs then some argv else none

def isSpace (c : UInt8) : Bool := c = blank || c = tabulator

inductive PipeResult : Type where
  | noPipe
  | invalid
  | found (left right : CStr)
deriving DecidableEq, Repr

/-- The left command is trimmed at its end, and the right one at its start. -/
def parsePipeCommand (buffer : CStr) : PipeResult :=
  match buffer.idxOf? bar with
  | none => .noPipe
  | some i =>
      let left := (buffer.take i).rdropWhile isSpace
      let right := (buffer.drop (i + 1)).dropWhile isSpace
      if left.length = 0 ∨ right.length = 0 then .invalid else .found left right

/-- What a line comes to. With no word there is nothing to run. -/
inductive Shape : Type where
  | tooLong
  | command (argv : List CStr)
  | pipeline (left right : List CStr)
  | invalidPipe
deriving DecidableEq, Repr

structure Reading where
  background : Bool
  shape : Shape
deriving DecidableEq, Repr

/-- The line without an `&` that is its last character, and the blanks before it. -/
def stripBackground (line : CStr) : Bool × CStr :=
  if line.getLast? = some ampersand then (true, line.dropLast.rdropWhile isSpace) else (false, line)

/-- What is run for a line without its `&`: `main`, and `execute_pipe` up to its arguments. -/
def readShape (commandBuffer : CStr) : Option Shape :=
  match parsePipeCommand commandBuffer with
  | .noPipe => (parseArguments commandBuffer).map .command
  | .invalid => some .invalidPipe
  | .found left right =>
      (parseArguments left).bind fun leftArgv => (parseArguments right).map fun rightArgv =>
        if leftArgv = [] ∨ rightArgv = [] then .invalidPipe else .pipeline leftArgv rightArgv

/-- `main`, from a line that was read to what is run. -/
def parseLine (line : CStr) : Option Reading :=
  if maxBufferSize ≤ line.length then some ⟨false, .tooLong⟩
  else if line = [] then some ⟨false, .command []⟩
  else
    let (background, commandBuffer) := stripBackground line
    (readShape commandBuffer).map fun shape => ⟨background, shape⟩

/-! ## The grammar -/

/-- The words of a text: its maximal runs of characters that are not blank. -/
def words (s : CStr) : List CStr := (s.splitOnP (· = blank)).filter (· ≠ [])

/-- What a text means that has no `&` any more. -/
def shapeOf (rest : CStr) : Shape :=
  if bar ∈ rest then
    let left := words (rest.takeWhile (· ≠ bar))
    let right := words (rest.dropWhile (· ≠ bar)).tail
    if left = [] ∨ right = [] then .invalidPipe else .pipeline left right
  else .command (words rest)

/-- **What a line means**: an `&` that is its last character but for blanks asks for the background,
and the rest is a pipeline or a command. -/
def grammar (line : CStr) : Reading :=
  let trimmed := line.rdropWhile (· = blank)
  if trimmed.getLast? = some ampersand then ⟨true, shapeOf trimmed.dropLast⟩
  else ⟨false, shapeOf line⟩

/-- Fewer than `MAX_ARGS` words on each side. -/
def Shape.Short : Shape → Prop
  | .command argv => argv.length < maxArgs
  | .pipeline left right => left.length < maxArgs ∧ right.length < maxArgs
  | _ => True

/-! ## Words -/

variable {s t line : CStr} {c : UInt8}

@[simp] theorem words_nil : words [] = [] := rfl

/-- Words end at a blank. -/
theorem words_append (s t : CStr) : words (s ++ blank :: t) = words s ++ words t := by
  unfold words
  rw [List.splitOnP_append_cons s t (by simp), List.filter_append]

theorem words_blank (s : CStr) : words (blank :: s) = words s := words_append [] s

/-- A run of characters is a word. -/
theorem words_run (hrun : ∀ c ∈ s, c ≠ blank) (hne : s ≠ []) : words s = [s] := by
  unfold words
  rw [List.splitOnP_eq_singleton fun c hc => by simpa using hrun c hc]
  simp [hne]

theorem words_ne_nil : [] ∉ words s := by
  intro h
  simpa using (List.mem_filter.mp h).2

/-- There is a word wherever there is a character that is not blank. -/
theorem words_eq_nil : words s = [] ↔ ∀ c ∈ s, c = blank := by
  induction s with
  | nil => simp
  | cons c s ih =>
      by_cases hc : c = blank
      · subst hc
        rw [words_blank, ih]
        simp
      · constructor
        · intro h
          exfalso
          unfold words at h
          rw [List.splitOnP_cons_eq_if_modifyHead, if_neg (by simpa using hc)] at h
          cases hsplit : s.splitOnP (· = blank) with
          | nil => exact List.splitOnP_ne_nil _ s hsplit
          | cons head rest =>
              rw [hsplit] at h
              simp at h
        · intro h
          exact absurd (h c List.mem_cons_self) hc

/-- Blanks at either end do not count. -/
theorem words_dropWhile : ∀ s : CStr, words (s.dropWhile (· = blank)) = words s
  | [] => rfl
  | c :: s => by
      by_cases hc : c = blank
      · subst hc
        rw [List.dropWhile_cons_of_pos (by simp), words_blank]
        exact words_dropWhile s
      · rw [List.dropWhile_cons_of_neg (by simpa using hc)]

theorem words_rdropWhile (s : CStr) : words (s.rdropWhile (· = blank)) = words s := by
  induction s using List.reverseRecOn with
  | nil => rfl
  | append_singleton s c ih =>
      by_cases hc : c = blank
      · subst hc
        rw [List.rdropWhile_concat_pos _ _ _ (by simp), ih, words_append, words_nil,
          List.append_nil]
      · rw [List.rdropWhile_concat_neg _ _ _ (by simpa using hc)]

/-! ## Tokens -/

/-- No blank comes first or follows a blank, and there is something. -/
def Spaced (s : CStr) : Prop :=
  s ≠ [] ∧ (blank :: s).IsChain fun a b => a ≠ blank ∨ b ≠ blank

theorem run_chain : ∀ {s : CStr} (a : UInt8), (∀ c ∈ s, c ≠ blank) →
    (a :: s).IsChain fun a b => a ≠ blank ∨ b ≠ blank
  | [], a, _ => List.isChain_singleton a
  | c :: _, _, h => List.isChain_cons_cons.mpr ⟨.inr (h c List.mem_cons_self),
      run_chain c fun d hd => h d (List.mem_cons_of_mem c hd)⟩

theorem spaced_run (hrun : ∀ c ∈ s, c ≠ blank) (hne : s ≠ []) : Spaced s :=
  ⟨hne, run_chain blank hrun⟩

/-- Behind a word and a blank there is nothing, or the text goes on as it should. -/
theorem spaced_append (hrun : ∀ c ∈ s, c ≠ blank) (hne : s ≠ []) :
    Spaced (s ++ blank :: t) ↔ t = [] ∨ Spaced t := by
  have hword : (blank :: (s ++ [blank])).IsChain fun a b => a ≠ blank ∨ b ≠ blank := by
    obtain ⟨c, s, rfl⟩ := List.exists_cons_of_ne_nil hne
    rw [← List.cons_append, List.isChain_append]
    refine ⟨run_chain blank hrun, List.isChain_singleton blank, fun x hx _ _ => .inl ?_⟩
    rw [List.getLast?_cons_cons] at hx
    exact hrun x (List.mem_of_getLast? hx)
  unfold Spaced
  rw [← List.cons_append, List.isChain_split, List.cons_append]
  constructor
  · rintro ⟨-, -, htail⟩
    by_cases ht : t = []
    · exact .inl ht
    · exact .inr ⟨ht, htail⟩
  · rintro (rfl | ⟨-, htail⟩)
    · exact ⟨by simp, hword, List.isChain_singleton blank⟩
    · exact ⟨by simp, hword, htail⟩

/-- Where `strtok` cuts. -/
theorem splitToken_spec : ∀ s : CStr, (∀ c ∈ (splitToken s).1, c ≠ blank) ∧
    (s = (splitToken s).1 ∧ (splitToken s).2 = [] ∨
      s = (splitToken s).1 ++ blank :: (splitToken s).2)
  | [] => ⟨by simp [splitToken], .inl ⟨rfl, rfl⟩⟩
  | c :: s => by
      unfold splitToken
      split
      · rename_i hc
        subst hc
        exact ⟨by simp, .inr rfl⟩
      · rename_i hc
        obtain ⟨hrun, hcut⟩ := splitToken_spec s
        refine ⟨fun d hd => ?_, ?_⟩
        · rcases List.mem_cons.mp hd with rfl | hd
          · exact hc
          · exact hrun d hd
        · rcases hcut with ⟨hs, hlast⟩ | hs
          · exact .inl ⟨congrArg (c :: ·) hs, hlast⟩
          · exact .inr (congrArg (c :: ·) hs)

/-- **The tokens are the words** exactly of a text that is spaced by single blanks. -/
theorem collect_words : ∀ {n : ℕ} {s : CStr}, (words s).length < n →
    (collect n (some (splitToken s).1, (splitToken s).2) = words s ↔ Spaced s) := by
  intro n
  induction n with
  | zero => exact fun h => absurd h (Nat.not_lt_zero _)
  | succ n ih =>
      intro s hn
      obtain ⟨hrun, hcut⟩ := splitToken_spec s
      generalize (splitToken s).1 = run at hrun hcut ⊢
      generalize (splitToken s).2 = last at hcut ⊢
      unfold collect
      by_cases hne : run = []
      · -- an empty token
        subst hne
        constructor
        · intro h
          refine absurd ?_ (words_ne_nil (s := s))
          rw [← h]
          exact List.mem_cons_self
        · rintro ⟨hs, hchain⟩
          rcases hcut with ⟨hnil, -⟩ | hblank
          · exact absurd hnil hs
          · rw [hblank] at hchain
            exact absurd (List.isChain_cons_cons.mp hchain).1 (by simp)
      · rcases hcut with ⟨rfl, rfl⟩ | rfl
        · rw [words_run hrun hne]
          have hnone : collect n (strtok none []) = [] := by
            cases n <;> rfl
          rw [hnone]
          exact ⟨fun _ => spaced_run hrun hne, fun _ => rfl⟩
        · rw [words_append, words_run hrun hne] at hn ⊢
          rw [spaced_append hrun hne, List.singleton_append, List.cons.injEq, and_iff_right rfl]
          by_cases hlast : last = []
          · subst hlast
            have hnone : collect n (strtok none []) = [] := by
              cases n <;> rfl
            rw [hnone]
            exact ⟨fun _ => .inl rfl, fun _ => rfl⟩
          · unfold strtok
            dsimp only
            rw [if_neg hlast, ih (by simpa using hn), or_iff_right hlast]

/-- The arguments are the words. -/
theorem parseArguments_words (hshort : (words s).length < maxArgs) :
    parseArguments s = some (words s) ↔ Spaced s := by
  have htokens : collect maxArgs (strtok (some s) []) = words s ↔ Spaced s := collect_words hshort
  unfold parseArguments
  dsimp only
  rw [← htokens]
  constructor
  · intro h
    split at h
    · exact Option.some.inj h
    · cases h
  · intro h
    rw [h, if_pos hshort]

/-! ## The two sides of a pipe -/

/-- What stands before the first `|`, and behind it. -/
theorem idxOf?_bar : ∀ s : CStr, (bar ∉ s → s.idxOf? bar = none) ∧
    (bar ∈ s → ∃ i, s.idxOf? bar = some i ∧ s.take i = s.takeWhile (· ≠ bar) ∧
      s.drop (i + 1) = (s.dropWhile (· ≠ bar)).tail)
  | [] => ⟨fun _ => rfl, fun h => absurd h List.not_mem_nil⟩
  | c :: s => by
      obtain ⟨hno, hyes⟩ := idxOf?_bar s
      by_cases hc : c = bar
      · subst hc
        refine ⟨fun h => absurd List.mem_cons_self h,
          fun _ => ⟨0, by simp [List.idxOf?_cons], ?_, ?_⟩⟩
        · rw [List.takeWhile_cons_of_neg (by simp), List.take_zero]
        · rw [List.dropWhile_cons_of_neg (by simp)]
          rfl
      · rw [List.takeWhile_cons_of_pos (by simpa using hc),
          List.dropWhile_cons_of_pos (by simpa using hc), List.idxOf?_cons,
            if_neg (by simpa using hc),
          List.mem_cons, or_iff_right (Ne.symm hc)]
        refine ⟨fun h => by rw [hno h]; rfl, fun h => ?_⟩
        obtain ⟨i, hi, htake, hdrop⟩ := hyes h
        exact ⟨i + 1, by rw [hi]; rfl, by rw [List.take_succ_cons, htake],
          by rw [List.drop_succ_cons, hdrop]⟩

theorem dropWhile_isSpace : ∀ {s : CStr}, (∀ c ∈ s, c ≠ tabulator) →
    s.dropWhile isSpace = s.dropWhile (· = blank)
  | [], _ => rfl
  | c :: s, h => by
      have hc : isSpace c = decide (c = blank) := by
        unfold isSpace
        rw [decide_eq_false (h c List.mem_cons_self), Bool.or_false]
      rw [List.dropWhile_cons, List.dropWhile_cons, hc,
        dropWhile_isSpace fun d hd => h d (List.mem_cons_of_mem c hd)]

theorem rdropWhile_isSpace (h : ∀ c ∈ s, c ≠ tabulator) :
    s.rdropWhile isSpace = s.rdropWhile (· = blank) := by
  unfold List.rdropWhile
  rw [dropWhile_isSpace fun c hc => h c (List.mem_reverse.mp hc)]

/-- Trimming leaves nothing exactly where there is no word. -/
theorem rdropWhile_eq_nil : s.rdropWhile (· = blank) = [] ↔ words s = [] := by
  rw [List.rdropWhile_eq_nil_iff, words_eq_nil]
  simp

theorem dropWhile_eq_nil : s.dropWhile (· = blank) = [] ↔ words s = [] := by
  rw [List.dropWhile_eq_nil_iff, words_eq_nil]
  simp

/-- The text in front of the first `|`, trimmed at its end. -/
def leftSide (s : CStr) : CStr := (s.takeWhile (· ≠ bar)).rdropWhile (· = blank)

/-- The text behind it, trimmed at its start. -/
def rightSide (s : CStr) : CStr := (s.dropWhile (· ≠ bar)).tail.dropWhile (· = blank)

/-- Every command is spaced by single blanks; a pipe without a word on one side is none. -/
def Tidy (s : CStr) : Prop :=
  if bar ∈ s then words (leftSide s) = [] ∨ words (rightSide s) = [] ∨
    Spaced (leftSide s) ∧ Spaced (rightSide s)
  else Spaced s

theorem parsePipeCommand_noPipe (h : bar ∉ s) : parsePipeCommand s = .noPipe := by
  unfold parsePipeCommand
  rw [(idxOf?_bar s).1 h]

theorem parsePipeCommand_pipe (htabs : ∀ c ∈ s, c ≠ tabulator) (h : bar ∈ s) :
    parsePipeCommand s = if words (leftSide s) = [] ∨ words (rightSide s) = [] then .invalid
      else .found (leftSide s) (rightSide s) := by
  obtain ⟨i, hi, htake, hdrop⟩ := (idxOf?_bar s).2 h
  unfold parsePipeCommand
  rw [hi]
  dsimp only
  rw [htake, hdrop, rdropWhile_isSpace, dropWhile_isSpace]
  · change (if (leftSide s).length = 0 ∨ (rightSide s).length = 0 then _ else _) = _
    have hleft : (leftSide s).length = 0 ↔ words (leftSide s) = [] := by
      rw [List.length_eq_zero_iff, leftSide, words_rdropWhile, rdropWhile_eq_nil]
    have hright : (rightSide s).length = 0 ↔ words (rightSide s) = [] := by
      rw [List.length_eq_zero_iff, rightSide, words_dropWhile, dropWhile_eq_nil]
    simp only [hleft, hright]
    rfl
  · intro c hc
    exact htabs c ((List.dropWhile_sublist _).subset (List.mem_of_mem_tail hc))
  · intro c hc
    exact htabs c ((List.takeWhile_sublist _).subset hc)

theorem shapeOf_pipe (h : bar ∈ s) : shapeOf s =
    if words (leftSide s) = [] ∨ words (rightSide s) = [] then .invalidPipe
    else .pipeline (words (leftSide s)) (words (rightSide s)) := by
  unfold shapeOf leftSide rightSide
  rw [if_pos h, words_rdropWhile, words_dropWhile]

/-- **What is run is what the text means**, exactly for a tidy text. -/
theorem readShape_iff (htabs : ∀ c ∈ s, c ≠ tabulator) (hshort : (shapeOf s).Short) :
    readShape s = some (shapeOf s) ↔ Tidy s := by
  unfold readShape Tidy
  by_cases hbar : bar ∈ s
  · rw [shapeOf_pipe hbar] at hshort ⊢
    rw [parsePipeCommand_pipe htabs hbar, if_pos hbar]
    by_cases hempty : words (leftSide s) = [] ∨ words (rightSide s) = []
    · rw [if_pos hempty, if_pos hempty]
      exact ⟨fun _ => hempty.imp_right .inl, fun _ => rfl⟩
    · rw [if_neg hempty] at hshort
      rw [if_neg hempty, if_neg hempty]
      obtain ⟨hleft, hright⟩ := hshort
      rw [not_or] at hempty
      rw [or_iff_right hempty.1, or_iff_right hempty.2, ← parseArguments_words hleft,
        ← parseArguments_words hright]
      constructor
      · intro h
        obtain ⟨leftArgv, hl, h⟩ := Option.bind_eq_some_iff.mp h
        obtain ⟨rightArgv, hr, h⟩ := Option.map_eq_some_iff.mp h
        split at h
        · cases h
        · obtain ⟨rfl, rfl⟩ := Shape.pipeline.inj h
          exact ⟨hl, hr⟩
      · rintro ⟨hl, hr⟩
        dsimp only
        rw [hl, hr, Option.bind_some, Option.map_some, if_neg (not_or.mpr hempty)]
  · unfold shapeOf at hshort ⊢
    rw [if_neg hbar] at hshort ⊢
    rw [parsePipeCommand_noPipe hbar, if_neg hbar, ← parseArguments_words hshort]
    dsimp only
    rw [Option.map_eq_some_iff]
    constructor
    · rintro ⟨argv, hargv, h⟩
      rw [hargv, Shape.command.inj h]
    · exact fun h => ⟨_, h, rfl⟩

/-! ## The whole line -/

theorem shapeOf_concat (s : CStr) : shapeOf (s ++ [blank]) = shapeOf s := by
  have hbar : bar ∈ s ++ [blank] ↔ bar ∈ s := by
    rw [List.mem_append, List.mem_singleton]
    exact or_iff_left (by decide)
  have hwords : ∀ t : CStr, words (t ++ [blank]) = words t := fun t => by
    rw [words_append, words_nil, List.append_nil]
  unfold shapeOf
  by_cases h : bar ∈ s
  · rw [if_pos h, if_pos (hbar.mpr h)]
    have hdrop : s.dropWhile (· ≠ bar) ≠ [] := by
      intro hnil
      rw [List.dropWhile_eq_nil_iff] at hnil
      exact absurd (hnil bar h) (by simp)
    have htake : (s ++ [blank]).takeWhile (· ≠ bar) = s.takeWhile (· ≠ bar) := by
      rw [List.takeWhile_append, if_neg]
      intro hlength
      have hparts :=
        congrArg List.length (List.takeWhile_append_dropWhile (p := (· ≠ bar)) (l := s))
      rw [List.length_append, hlength, Nat.add_eq_left, List.length_eq_zero_iff] at hparts
      exact hdrop hparts
    have htail : ((s ++ [blank]).dropWhile (· ≠ bar)).tail =
        (s.dropWhile (· ≠ bar)).tail ++ [blank] := by
      rw [List.dropWhile_append, if_neg (by simpa using hdrop), List.tail_append_of_ne_nil hdrop]
    rw [htake, htail, hwords]
  · rw [if_neg h, if_neg fun hin => h (hbar.mp hin), hwords]

theorem shapeOf_rdropWhile (s : CStr) : shapeOf (s.rdropWhile (· = blank)) = shapeOf s := by
  induction s using List.reverseRecOn with
  | nil => rfl
  | append_singleton s c ih =>
      by_cases hc : c = blank
      · subst hc
        rw [List.rdropWhile_concat_pos _ _ _ (by simp), ih, shapeOf_concat]
      · rw [List.rdropWhile_concat_neg _ _ _ (by simpa using hc)]

/-- **The shell reads a line as the grammar says** exactly when it is empty, or its `&` has no blank
behind it and every command is spaced by single blanks. -/
theorem parseLine_iff (line : CStr) (hlength : line.length < maxBufferSize)
    (hprintable : ∀ c ∈ line, 32 ≤ c ∧ c ≤ 126) (hshort : (grammar line).shape.Short) :
    parseLine line = some (grammar line) ↔ line = [] ∨
      (if line.getLast? = some ampersand then Tidy (line.dropLast.rdropWhile (· = blank))
        else (line.rdropWhile (· = blank)).getLast? ≠ some ampersand ∧ Tidy line) := by
  have htabs : ∀ c ∈ line, c ≠ tabulator := by
    rintro c hc rfl
    exact absurd (hprintable _ hc).1 (by decide)
  have hparse : ∀ hne : line ≠ [], parseLine line = (readShape (stripBackground line).2).map
      fun shape => ⟨(stripBackground line).1, shape⟩ := by
    intro hne
    unfold parseLine
    rw [if_neg (by omega), if_neg hne]
  by_cases hne : line = []
  · subst hne
    exact ⟨fun _ => .inl rfl, fun _ => rfl⟩
  rw [or_iff_right hne, hparse hne]
  unfold stripBackground grammar at *
  by_cases hlast : line.getLast? = some ampersand
  · -- the `&` is the last character
    have htrim : line.rdropWhile (· = blank) = line := by
      obtain ⟨front, rfl⟩ : ∃ front, line = front ++ [ampersand] := by
        rw [List.getLast?_eq_some_iff] at hlast
        exact hlast
      exact List.rdropWhile_concat_neg _ _ _ (by decide)
    rw [htrim] at hshort ⊢
    rw [if_pos hlast] at hshort
    simp only [if_pos hlast]
    have hfront : ∀ c ∈ line.dropLast, c ≠ tabulator := fun c hc =>
      htabs c (List.dropLast_subset line hc)
    rw [rdropWhile_isSpace hfront, ← readShape_iff]
    · rw [shapeOf_rdropWhile, Option.map_eq_some_iff]
      constructor
      · rintro ⟨shape, hshape, heq⟩
        rw [hshape, (Reading.mk.inj heq).2]
      · exact fun h => ⟨_, h, rfl⟩
    · intro c hc
      exact hfront c ((List.rdropWhile_prefix _ _).subset hc)
    · rw [shapeOf_rdropWhile]
      exact hshort
  · simp only [if_neg hlast]
    by_cases htrim : (line.rdropWhile (· = blank)).getLast? = some ampersand
    · -- blanks behind the `&`: the background is not asked for
      rw [if_pos htrim, Option.map_eq_some_iff]
      constructor
      · rintro ⟨shape, -, heq⟩
        cases (Reading.mk.inj heq).1
      · exact fun h => absurd htrim h.1
    · rw [if_neg htrim] at hshort ⊢
      rw [and_iff_right htrim, ← readShape_iff htabs hshort, Option.map_eq_some_iff]
      constructor
      · rintro ⟨shape, hshape, heq⟩
        rw [hshape, (Reading.mk.inj heq).2]
      · exact fun h => ⟨_, h, rfl⟩

/-- `loop 1&`. -/
def tidyLine : CStr := [108, 111, 111, 112, 32, 49, 38]

theorem tidyLine_printable : tidyLine.all (fun c => 32 ≤ c ∧ c ≤ 126) = true := by
  decide

theorem parseLine_tidyLine : parseLine tidyLine = some (grammar tidyLine) :=
  (parseLine_iff tidyLine (by decide) (fun c hc => of_decide_eq_true
    (List.all_eq_true.mp tidyLine_printable c hc)) (by
    change (Shape.command [[108, 111, 111, 112], [49]]).Short
    change 2 < 64
    decide)).mpr (.inr (by
      rw [if_pos (by decide)]
      change Tidy [108, 111, 111, 112, 32, 49]
      unfold Tidy
      rw [if_neg (by decide)]
      exact ⟨by decide, by decide⟩))

/-- `cat  a`, with two blanks: the second word is empty, and `a` is the third. -/
theorem parseLine_blanks : parseLine [99, 97, 116, 32, 32, 97] ≠
    some (grammar [99, 97, 116, 32, 32, 97]) := by
  decide +kernel

end BareKernel.Shell
