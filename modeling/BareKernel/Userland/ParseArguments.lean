import BareKernel.Lib.ByteStrings
import BareKernel.Userland.CommandLine

/-!
# Arguments in place

`parse_arguments` and `strtok` on the memory they work in. The buffer starts at address 0 and a
pointer is an offset into it, so that reading on behind the buffer, or writing behind the vector
of the arguments, is a fault. What they find are the tokens of the command line.
-/

namespace BareKernel.Shell

open ByteMemory ByteStrings

/-! ## The code -/

/-- The loop of `strtok` from the byte that `last` points to; `left` bytes of the buffer are
left. -/
def scan (s2 : List UInt8) : ℕ → ℕ → Mem → Except Fault (ℕ × Mem)
  | 0, _, _ => .error .outside
  | left + 1, last, m =>
      if m last = 0 then .ok (last, m)
      else if m last ∈ s2 then .ok (last + 1, Function.update m last 0)
      else scan s2 left (last + 1) m

/-- `strtok` in a buffer of `size` bytes: the token, the static pointer `last`, and the memory. -/
def strtokAt (size : ℕ) (s1 : Option ℕ) (s2 : List UInt8) (last : ℕ) (m : Mem) :
    Except Fault (Option ℕ × ℕ × Mem) :=
  match s1 with
  | some s => do
      let (last, m) ← scan s2 (size - s) s m
      .ok (some s, last, m)
  | none =>
      if size ≤ last then .error .outside
      else if m last = 0 then .ok (none, last, m)
      else do
        let (last', m) ← scan s2 (size - last) last m
        .ok (some last, last', m)

/-- `argv[i] = p`, in a vector of `MAX_ARGS` entries. -/
def setArg (argv : ℕ → Option ℕ) (i : ℕ) (p : Option ℕ) : Except Fault (ℕ → Option ℕ) :=
  if i < maxArgs then .ok (Function.update argv i p) else .error .outside

/-- What `parse_arguments` leaves behind. -/
structure Args : Type where
  argc : ℕ
  argv : ℕ → Option ℕ
  memory : Mem

/-- The loop of `parse_arguments`, with the rounds it may take. -/
def fillArgs (size : ℕ) : ℕ → Option ℕ → ℕ → Args → Except Fault Args
  | 0, _, _, _ => .error .endless
  | rounds + 1, token, last, r =>
      match token with
      | none => .ok r
      | some p =>
          if r.argc < maxArgs then do
            let argv ← setArg r.argv r.argc (some p)
            let (token, last, m) ← strtokAt size none [blank] last r.memory
            fillArgs size rounds token last ⟨r.argc + 1, argv, m⟩
          else .ok r

/-- The loop ends with the vector full at the latest. -/
def parseArgumentsAt (size : ℕ) (argv : ℕ → Option ℕ) (m : Mem) : Except Fault Args := do
  let (token, last, m) ← strtokAt size (some 0) [blank] 0 m
  let r ← fillArgs size (maxArgs + 1) token last ⟨0, argv, m⟩
  let argv ← setArg r.argv r.argc none
  .ok { r with argv := argv }

/-! ## Tokens in memory -/

/-- From entry `i` on the vector points to the tokens: one behind the other, not before `low`, each
with its terminator, and below `limit`. -/
def Lays (m : Mem) (argv : ℕ → Option ℕ) (limit : ℕ) : ℕ → ℕ → List CStr → Prop
  | _, _, [] => True
  | i, low, t :: ts => ∃ p, argv i = some p ∧ low ≤ p ∧ Holds m p (t ++ [0]) ∧
      p + t.length < limit ∧
      Lays m argv limit (i + 1) (p + t.length + 1) ts

variable {m m' : Mem} {argv argv' : ℕ → Option ℕ} {limit size i low a last : ℕ} {s t : CStr}
  {ts : List CStr}

theorem Lays.mono {low' : ℕ} (h : Lays m argv limit i low ts) (hle : low' ≤ low) :
    Lays m argv limit i low' ts := by
  cases ts with
  | nil => trivial
  | cons t ts =>
      obtain ⟨p, hp, hlow, hrest⟩ := h
      exact ⟨p, hp, hle.trans hlow, hrest⟩

/-- Only the entries of the tokens count. -/
theorem Lays.congr (h : Lays m argv limit i low ts)
    (hargv : ∀ j, i ≤ j → j < i + ts.length → argv' j = argv j) : Lays m argv' limit i low ts := by
  induction ts generalizing i low with
  | nil => trivial
  | cons t ts ih =>
      rw [List.length_cons] at hargv
      obtain ⟨p, hp, hlow, hholds, hlimit, hrest⟩ := h
      refine ⟨p, (hargv i (le_refl i) (by omega)).trans hp, hlow, hholds, hlimit,
        ih hrest fun j hj hlt => ?_⟩
      exact hargv j (by omega) (by omega)

/-- The loop cuts off the next token, and its terminator takes the place of the blank. -/
theorem scan_spec (hs : Holds m a (s ++ [0])) (hnul : (0 : UInt8) ∉ s)
    (hsize : a + s.length < size) :
    ∃ last m', scan [blank] (size - a) a m = .ok (last, m') ∧
      Holds m' a ((splitToken s).1 ++ [0]) ∧ Holds m' last ((splitToken s).2 ++ [0]) ∧
        last + (splitToken s).2.length = a + s.length ∧ a + (splitToken s).1.length ≤ last ∧
          ((splitToken s).2 ≠ [] → a + (splitToken s).1.length < last) ∧
            ∀ x, x < a ∨ a + s.length ≤ x → m' x = m x := by
  induction s generalizing a m with
  | nil =>
      obtain ⟨left, hleft⟩ : ∃ left, size - a = left + 1 := ⟨size - a - 1, by simp at hsize; omega⟩
      have hread : m a = 0 := hs.1
      refine ⟨a, m, ?_, hs, hs, rfl, le_refl _, fun h => absurd rfl h, fun _ _ => rfl⟩
      rw [hleft, scan, if_pos hread]
  | cons c s ih =>
      obtain ⟨hc, hrest⟩ := hs
      rw [List.length_cons] at hsize
      obtain ⟨left, hleft⟩ : ∃ left, size - a = left + 1 := ⟨size - a - 1, by omega⟩
      have hne : m a ≠ 0 := fun h => hnul (by rw [← h, hc]; exact List.mem_cons_self)
      rw [hleft, scan, if_neg hne, splitToken]
      by_cases hblank : c = blank
      · subst hblank
        rw [if_pos rfl, if_pos (by rw [hc]; exact List.mem_singleton_self _)]
        refine ⟨a + 1, _, rfl, ⟨Function.update_self _ _ _, trivial⟩, ?_, ?_, Nat.le_succ a,
          fun _ => Nat.lt_succ_self a, fun x hx => ?_⟩
        · exact holds_congr (fun x hx _ => Function.update_of_ne (by omega) _ _) hrest
        · rw [List.length_cons, Nat.add_right_comm, Nat.add_assoc]
        · rw [List.length_cons] at hx
          exact Function.update_of_ne (by omega) _ _
      · rw [if_neg hblank, if_neg (by rw [hc]; simpa using hblank)]
        have hleft' : size - (a + 1) = left := by omega
        obtain ⟨last, m', hrun, htoken, hlast, hlength, hle, hlt, hkept⟩ :=
          ih (a := a + 1) hrest (fun h => hnul (List.mem_cons_of_mem c h)) (by omega)
        rw [hleft'] at hrun
        refine ⟨last, m', hrun, ⟨(hkept a (.inl (Nat.lt_succ_self a))).trans hc, htoken⟩,
          hlast, ?_, ?_, fun h => ?_, fun x hx => ?_⟩
        · change last + (splitToken s).2.length = a + (s.length + 1)
          omega
        · change a + ((splitToken s).1.length + 1) ≤ last
          omega
        · change a + ((splitToken s).1.length + 1) < last
          have hless := hlt h
          omega
        · rw [List.length_cons] at hx
          exact hkept x (by omega)

/-! ## The loop -/

theorem splitToken_nul (h : (0 : UInt8) ∉ s) :
    (0 : UInt8) ∉ (splitToken s).1 ∧ (0 : UInt8) ∉ (splitToken s).2 := by
  rcases (splitToken_spec s).2 with ⟨hs, hnil⟩ | hs
  · rw [hnil]
    exact ⟨fun hmem => h (hs ▸ hmem), List.not_mem_nil⟩
  · rw [hs, List.mem_append, List.mem_cons, not_or, not_or] at h
    exact ⟨h.1, h.2.2⟩

/-- **The loop of `parse_arguments`** leaves the tokens, of which it found the first already. -/
theorem fillArgs_spec :
    ∀ {n p last limit argc : ℕ} {run rest : CStr} (argv : ℕ → Option ℕ) {m : Mem},
    argc + n = maxArgs → Holds m p (run ++ [0]) → Holds m last (rest ++ [0]) → (0 : UInt8) ∉ rest →
      p + run.length ≤ last → (rest ≠ [] → p + run.length < last) → last + rest.length < limit →
        limit ≤ size → ∃ argv' m', fillArgs size (n + 1) (some p) last ⟨argc, argv, m⟩ =
            .ok ⟨argc + (collect n (some run, rest)).length, argv', m'⟩ ∧
          Lays m' argv' limit argc p (collect n (some run, rest)) ∧
            (∀ j < argc, argv' j = argv j) ∧ ∀ x, x < last ∨ last + rest.length ≤ x →
              m' x = m x := by
  intro n
  induction n with
  | zero =>
      intro p last limit argc run rest argv m hargc _ _ _ _ _ _ _
      refine ⟨argv, m, ?_, trivial, fun _ _ => rfl, fun _ _ => rfl⟩
      have hfull : ¬argc < maxArgs := by omega
      simp only [fillArgs, if_neg hfull, collect, List.length_nil, Nat.add_zero]
  | succ n ih =>
      intro p last limit argc run rest argv m hargc hrun hrest hnul hle hlt hlimit hsize
      have hroom : argc < maxArgs := by omega
      have hset : setArg argv argc (some p) = .ok (Function.update argv argc (some p)) :=
        if_pos hroom
      rw [fillArgs]
      simp only [if_pos hroom, hset]
      have hin : ¬size ≤ last := by omega
      by_cases hend : rest = []
      · -- `last` is at the terminator of the text
        subst hend
        have hzero : m last = 0 := hrest.1
        refine ⟨Function.update argv argc (some p), m, ?_, ?_, fun j hj => ?_, fun _ _ => rfl⟩
        · change (strtokAt size none [blank] last m).bind _ = _
          unfold strtokAt
          simp only [if_neg hin, if_pos hzero]
          cases n with
          | zero => rfl
          | succ n => rfl
        · have hnone : collect (n + 1) (some run, []) = [run] := by
            cases n with
            | zero => rfl
            | succ n => rfl
          rw [hnone]
          exact ⟨p, Function.update_self _ _ _, le_refl p, hrun, by omega, trivial⟩
        · exact Function.update_of_ne (by omega) _ _
      · have hne : m last ≠ 0 := by
          obtain ⟨c, rest, rfl⟩ := List.exists_cons_of_ne_nil hend
          intro h
          apply hnul
          rw [← h, hrest.1]
          exact List.mem_cons_self
        obtain ⟨last', m₁, hscan, htoken, hlast, hlength, hle', hlt', hkept⟩ :=
          scan_spec hrest hnul (show last + rest.length < size by omega)
        have hnul' := (splitToken_nul hnul).2
        obtain ⟨argv', m', hfill, hlays, hargv, hmem⟩ := ih (Function.update argv argc (some p))
          (show argc + 1 + n = maxArgs by omega) htoken hlast hnul' hle' hlt'
          (show last' + _ < limit by omega) hsize
        have hcollect : collect (n + 1) (some run, rest) =
            run :: collect n (some (splitToken rest).1, (splitToken rest).2) := by
          rw [collect, strtok, if_neg hend]
        have hless := hlt hend
        refine ⟨argv', m', ?_, ?_, fun j hj => ?_, fun x hx => ?_⟩
        · change (strtokAt size none [blank] last m).bind _ = _
          unfold strtokAt
          simp only [if_neg hin, if_neg hne, hscan]
          change fillArgs size (n + 1) (some last) last' _ = _
          rw [hfill, hcollect, List.length_cons, Nat.add_right_comm, Nat.add_assoc]
        · rw [hcollect]
          refine ⟨p, ?_, le_refl p, holds_congr (fun x _ hx => ?_) hrun, by omega, hlays.mono hless⟩
          · rw [hargv argc (Nat.lt_succ_self argc), Function.update_self]
          · rw [List.length_append, List.length_singleton] at hx
            rw [hmem x (.inl (by omega)), hkept x (.inl (by omega))]
        · rw [hargv j (by omega), Function.update_of_ne (by omega)]
        · rw [hmem x (by omega), hkept x hx]

/-- The number of tokens: a blank starts a new one, unless the text ends with it. -/
theorem length_collect : ∀ (n : ℕ) (s : CStr),
    (collect n (some (splitToken s).1, (splitToken s).2)).length =
      min n (s.dropLast.count blank + 1) := by
  intro n
  induction n with
  | zero => exact fun s => rfl
  | succ n ih =>
      intro s
      obtain ⟨hrun, hcut⟩ := splitToken_spec s
      have hnone : (splitToken s).1.count blank = 0 :=
        List.count_eq_zero.mpr fun h => hrun blank h rfl
      rw [collect, List.length_cons, strtok]
      by_cases hend : (splitToken s).2 = []
      · rw [if_pos hend]
        have hzero : s.dropLast.count blank = 0 := by
          rcases hcut with ⟨hs, -⟩ | hs
          · rw [← hs] at hnone
            have hle := (List.dropLast_sublist s).count_le blank
            omega
          · rw [hend] at hs
            rw [hs, List.dropLast_concat]
            exact hnone
        rw [hzero]
        cases n with
        | zero => rfl
        | succ n => rfl
      · rw [if_neg hend, ih]
        rcases hcut with ⟨-, hnil⟩ | hs
        · exact absurd hnil hend
        · have hcount : s.dropLast.count blank = (splitToken s).2.dropLast.count blank + 1 := by
            obtain ⟨c, rest, hrest⟩ := List.exists_cons_of_ne_nil hend
            rw [hrest] at hs ⊢
            rw [hs, List.dropLast_append_of_ne_nil (by simp), List.count_append, hnone,
              List.dropLast_cons_of_ne_nil (by simp), List.count_cons_self, Nat.zero_add]
          rw [hcount]
          omega

/-! ## The whole function -/

/-- `*argc` tokens without a terminator of their own, cut out of the text in their order and each
with its terminator; then the null pointer. Nothing outside of the text changes. -/
structure Split (s : CStr) (m : Mem) (r : Args) : Prop where
  tokens : ∃ ts : List CStr, ts.length = r.argc ∧ (∀ t ∈ ts, (0 : UInt8) ∉ t) ∧
    Lays r.memory r.argv (s.length + 1) 0 0 ts
  ended : r.argv r.argc = none
  kept : ∀ x, s.length ≤ x → r.memory x = m x

theorem collect_nul : ∀ {n : ℕ} {run rest : CStr}, (0 : UInt8) ∉ run → (0 : UInt8) ∉ rest →
    ∀ t ∈ collect n (some run, rest), (0 : UInt8) ∉ t := by
  intro n
  induction n with
  | zero => exact fun _ _ t ht => absurd ht List.not_mem_nil
  | succ n ih =>
      intro run rest hrun hrest t ht
      rw [collect] at ht
      rcases List.mem_cons.mp ht with rfl | ht
      · exact hrun
      · rw [strtok] at ht
        split at ht
        · cases n with
          | zero => exact absurd ht List.not_mem_nil
          | succ n => exact absurd ht List.not_mem_nil
        · exact ih (splitToken_nul hrest).1 (splitToken_nul hrest).2 t ht

/-- What is left when the loop is done. -/
theorem parseArgumentsAt_loop (hs : Holds m 0 (s ++ [0])) (hnul : (0 : UInt8) ∉ s)
    (hsize : s.length < size) (argv : ℕ → Option ℕ) : ∃ argv' m',
      parseArgumentsAt size argv m = (setArg argv'
        (collect maxArgs (strtok (some s) [])).length none).bind (fun argv => .ok
          ⟨(collect maxArgs (strtok (some s) [])).length, argv, m'⟩) ∧
        Lays m' argv' (s.length + 1) 0 0 (collect maxArgs (strtok (some s) [])) ∧
          ∀ x, s.length ≤ x → m' x = m x := by
  obtain ⟨last, m₁, hscan, htoken, hlast, hlength, hle, hlt, hkept⟩ :=
    scan_spec hs hnul (show 0 + s.length < size by omega)
  have hnul' := (splitToken_nul hnul).2
  obtain ⟨argv', m', hfill, hlays, -, hmem⟩ :=
    fillArgs_spec argv (Nat.zero_add maxArgs) htoken hlast
    hnul' hle hlt (show _ < s.length + 1 by omega) hsize
  rw [Nat.zero_add] at hfill
  refine ⟨argv', m', ?_, hlays, fun x hx => ?_⟩
  · have hfirst : strtokAt size (some 0) [blank] 0 m = .ok (some 0, last, m₁) := by
      simp only [strtokAt, hscan]
      rfl
    unfold parseArgumentsAt
    rw [hfirst]
    change (fillArgs size (maxArgs + 1) (some 0) last ⟨0, argv, m₁⟩).bind _ = _
    rw [hfill]
    rfl
  · rw [hmem x (.inr (by omega)), hkept x (.inr (by omega))]

/-- **The tokens in place** are those that the command line is taken apart into. -/
theorem parseArgumentsAt_refines (argv : ℕ → Option ℕ) (hs : Holds m 0 (s ++ [0]))
    (hnul : (0 : UInt8) ∉ s) (hsize : s.length < size) (hts : parseArguments s = some ts) :
    ∃ r, parseArgumentsAt size argv m = .ok r ∧ r.argc = ts.length ∧
      Lays r.memory r.argv (s.length + 1) 0 0 ts ∧ Split s m r := by
  obtain ⟨argv', m', hrun, hlays, hkept⟩ := parseArgumentsAt_loop hs hnul hsize argv
  unfold parseArguments at hts
  dsimp only at hts
  split at hts
  · rename_i hless
    obtain rfl := Option.some.inj hts
    rw [setArg, if_pos hless] at hrun
    have hlaid := hlays.congr fun j _ hj =>
      Function.update_of_ne
        (show j ≠ (collect maxArgs (strtok (some s) [])).length by omega) none argv'
    refine ⟨_, hrun, rfl, hlaid, ⟨_, rfl, ?_, hlaid⟩, Function.update_self _ _ _, hkept⟩
    exact collect_nul (splitToken_nul hnul).1 (splitToken_nul hnul).2
  · exact absurd hts (by simp)

theorem parseArguments_isSome (s : CStr) :
    (parseArguments s).isSome ↔ s.dropLast.count blank < maxArgs - 1 := by
  have hcount : (collect maxArgs (strtok (some s) [])).length =
      min maxArgs (s.dropLast.count blank + 1) := length_collect maxArgs s
  unfold parseArguments
  dsimp only
  rw [hcount]
  unfold maxArgs
  split
  · simp
    omega
  · simp
    omega

/-- With `MAX_ARGS` tokens the null pointer goes behind the vector. -/
theorem parseArgumentsAt_outside (argv : ℕ → Option ℕ) (hs : Holds m 0 (s ++ [0]))
    (hnul : (0 : UInt8) ∉ s) (hsize : s.length < size) (hts : parseArguments s = none) :
    parseArgumentsAt size argv m = .error .outside := by
  obtain ⟨argv', m', hrun, -⟩ := parseArgumentsAt_loop hs hnul hsize argv
  unfold parseArguments at hts
  dsimp only at hts
  split at hts
  · exact absurd hts (by simp)
  · rename_i hlong
    rw [hrun, setArg, if_neg hlong]
    rfl

/-- **`parse_arguments` stays inside of `argv`**, and splits the text as it should, exactly if fewer
than `MAX_ARGS - 1` of the characters before the last one are blanks. -/
theorem parseArguments_inside (size : ℕ) (argv : ℕ → Option ℕ) (m : Mem) (s : CStr)
    (hs : Holds m 0 (s ++ [0])) (hnul : (0 : UInt8) ∉ s) (hsize : s.length < size) :
    (∃ r, parseArgumentsAt size argv m = .ok r ∧ Split s m r) ↔
      s.dropLast.count blank < maxArgs - 1 := by
  rw [← parseArguments_isSome]
  constructor
  · rintro ⟨r, hr, -⟩
    cases hts : parseArguments s with
    | some ts => rfl
    | none =>
        rw [parseArgumentsAt_outside argv hs hnul hsize hts] at hr
        exact absurd hr (by simp)
  · intro hsome
    obtain ⟨ts, hts⟩ := Option.isSome_iff_exists.mp hsome
    obtain ⟨r, hr, -, -, hsplit⟩ := parseArgumentsAt_refines argv hs hnul hsize hts
    exact ⟨r, hr, hsplit⟩

/-- A buffer that starts with the text. -/
def textMemory (s : CStr) : Mem := fun x => s.getD x 0

/-- `nice 3 1`. -/
theorem parseArguments_inside_nice : ∃ r, parseArgumentsAt maxBufferSize (fun _ => none)
    (textMemory [110, 105, 99, 101, 32, 51, 32, 49]) = .ok r ∧
      Split [110, 105, 99, 101, 32, 51, 32, 49]
        (textMemory [110, 105, 99, 101, 32, 51, 32, 49]) r :=
  (parseArguments_inside maxBufferSize (fun _ => none) _ _ (by decide) (by decide) (by decide)).mpr
    (by decide)

/-- 64 words of one letter. -/
def manyWords : CStr := (List.replicate 63 [97, blank]).flatten ++ [97]

/-- **The null pointer behind the 64th word** is written behind the vector. -/
theorem parseArguments_manyWords : ¬∃ r, parseArgumentsAt maxBufferSize (fun _ => none)
    (textMemory manyWords) = .ok r ∧ Split manyWords (textMemory manyWords) r := by
  rintro ⟨r, hr, -⟩
  have hnone : parseArguments manyWords = none := by decide +kernel
  rw [parseArgumentsAt_outside _ (by decide +kernel) (by decide +kernel) (by decide +kernel)
    hnone] at hr
  exact absurd hr (by simp)

end BareKernel.Shell
