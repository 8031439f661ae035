import BareKernel.Userland.PrintNumbers

/-!
# Formats that end

For which formats `vfprintf` comes to an end without reading behind the `NUL`. A `%` needs a
specifier, and an escape character needs a bracket and a final `m`: without the bracket the loop
does not move on, and without the specifier or the `m` it moves behind the end.
-/

namespace BareKernel.Text

open ByteMemory ByteStrings Numerals
open Shell (CStr)

/-! ## Well-formed formats -/

/-- `[` and `m` are 91 and 109. What follows the bracket is not `NUL`, as long as the format has
none. -/
inductive WellFormed : CStr → Prop where
  | nil : WellFormed []
  | char {c : UInt8} {rest : CStr} (hc : c ≠ esc ∧ c ≠ percent) (hrest : WellFormed rest) :
      WellFormed (c :: rest)
  | conversion {c : UInt8} {rest rest' : CStr} (hscan : (scanConversion rest).2 = c :: rest')
      (hrest : WellFormed rest') : WellFormed (percent :: rest)
  | color {params rest : CStr} (hparams : 109 ∉ params) (hfirst : params.headD 109 ≠ 0)
      (hrest : WellFormed rest) : WellFormed (esc :: 91 :: (params ++ 109 :: rest))

/-- **The call ends inside the format**, whatever the arguments are, as long as the strings among
them are well formed, which are formats too. -/
def EndsInside (format : CStr) : Prop :=
  ∀ P : Printer, (∀ s, .string s ∈ P.args → WellFormed s) → ∃ n, ∀ fuel ≥ n,
    vfprintf fuel format P ≠ .error .endless ∧ vfprintf fuel format P ≠ .error .beyond

/-! ## What a step may come to -/

/-- A result with `Q`, or a fault with `E`. -/
def Yields {α : Type} (E : FormatFault → Prop) (Q : α → Prop) : Except FormatFault α → Prop
  | .ok a => Q a
  | .error e => E e

section Yields

variable {α β : Type} {E E' : FormatFault → Prop} {Q Q' : α → Prop} {R : β → Prop}
  {r : Except FormatFault α} {f : α → Except FormatFault β}

theorem Yields.bind (hr : Yields E Q r) (hf : ∀ a, Q a → Yields E R (f a)) :
    Yields E R (r >>= f) := by
  cases r with
  | ok a => exact hf a hr
  | error e => exact hr

theorem Yields.mono (hr : Yields E Q r) (hE : ∀ e, E e → E' e) (hQ : ∀ a, Q a → Q' a) :
    Yields E' Q' r := by
  cases r with
  | ok a => exact hQ a hr
  | error e => exact hE e hr

end Yields

variable {E : FormatFault → Prop} {fuel : ℕ} {v : Conversion} {c : UInt8} {w : UInt64} {P : Printer}
  {args : List Arg} {buffer : Mem} {sent : List Sys} {s rest : CStr}

/-- Padding does not touch the arguments. -/
theorem printPadded_yields {padChar : UInt8} {len : ℕ}
    {print : Printer → Except FormatFault Printer}
    (hprint : ∀ sent, Yields E (fun P => P.args = args) (print ⟨args, buffer, sent⟩)) :
    Yields E (fun P => P.args = args) (printPadded v padChar len print ⟨args, buffer, sent⟩) := by
  unfold printPadded
  split
  · refine Yields.bind (Q := fun P => P.args = args) ?_ fun P hP => ?_
    · split
      · exact hprint sent
      · exact hprint _
    · split
      · exact hP
      · exact hP
  · exact hprint sent

/-- `uintToBase` leaves a numeral in the buffer. A number without room for it is not 0. -/
theorem uintToBase_yields {b : UInt32} (hb : 1 < b.toNat) (hle : b.toNat ≤ 16) (value : UInt64) :
    Yields (fun e => e = .buffer ∧ value ≠ 0)
      (fun p : ℕ × Printer => p.2.args = args ∧ p.2.sent = sent ∧ ∀ args sent,
        Plain (Printer.mk args p.2.buffer sent).text ∧
        (Printer.mk args p.2.buffer sent).text.length < bufferSize)
      ((Printer.mk args buffer sent).uintToBase value b) := by
  by_cases hfits : b = 2 → value.toNat < 2 ^ 63
  · obtain ⟨buffer', hrun, htext⟩ := printer_uintToBase hb hle hfits ⟨args, buffer, sent⟩
    rw [hrun]
    refine ⟨rfl, rfl, fun args sent => ?_⟩
    rw [htext]
    exact ⟨numeral_plain hb (hle.trans (by decide)), (length_numeral_lt value hb).mpr hfits⟩
  · have hlong : bufferSize ≤ (numeral b.toNat value.toNat).length :=
      Nat.le_of_not_lt fun hlt => hfits ((length_numeral_lt value hb).mp hlt)
    unfold Printer.uintToBase
    rw [uintToBase_overflows buffer hle hb hlong]
    refine ⟨rfl, ?_⟩
    rintro rfl
    exact hfits fun _ => by decide

/-! ## Conversions -/

/-- A number goes through `uintToBase` and is printed as a format. -/
theorem number_yields {b : UInt32} (hb : 1 < b.toNat) (hle : b.toNat ≤ 16)
    (hfuel : bufferSize < fuel)
    (value : UInt64) (print : ℕ → Printer → Except FormatFault Printer)
    (hprint : ∀ len buffer sent, (∀ sent, Yields (fun _ => False) (fun P => P.args = args)
      (fprintf fuel (Printer.mk args buffer sent).text ⟨args, buffer, sent⟩)) →
      Yields (fun _ => False) (fun P => P.args = args) (print len ⟨args, buffer, sent⟩)) :
    Yields (fun e => e = .buffer ∧ value ≠ 0) (fun P => P.args = args) (do
      let (len, P) ← (Printer.mk args buffer sent).uintToBase value b
      print len P) := by
  refine (uintToBase_yields hb hle value).bind ?_
  rintro ⟨len, args', buffer', sent'⟩ ⟨rfl, rfl, htext⟩
  refine (hprint len buffer' sent' fun sent => ?_).mono (fun _ h => h.elim) fun _ h => h
  obtain ⟨hplain, hlen⟩ := htext args' sent
  rw [fprintf_plain hplain (hlen.trans hfuel)]
  exact rfl

/-- **A conversion of a word** takes it, and fails at most for want of room in the buffer. -/
theorem convert_word (hc : c ∈ wordSpecifiers) (hfuel : bufferSize < fuel) :
    Yields (fun e => e = .buffer ∧ w ≠ 0) (fun P => P.args = args)
      (convert (fprintf fuel) v c ⟨.word w :: args, buffer, sent⟩) := by
  have hpadded : ∀ (v : Conversion) (padChar : UInt8) (len : ℕ) buffer sent,
      (∀ sent, Yields (fun _ => False) (fun P => P.args = args)
        (fprintf fuel (Printer.mk args buffer sent).text ⟨args, buffer, sent⟩)) →
      Yields (fun _ => False) (fun P => P.args = args)
        (printPadded v padChar len (fun P => fprintf fuel P.text P) ⟨args, buffer, sent⟩) :=
    fun v padChar len buffer sent hprint => printPadded_yields hprint
  -- a value that is not 0 comes from a word that is not 0
  have hvalue : ∀ (value : UInt64) {r : Except FormatFault Printer}, (w = 0 → value = 0) →
      Yields (fun e => e = .buffer ∧ value ≠ 0) (fun P => P.args = args) r →
      Yields (fun e => e = .buffer ∧ w ≠ 0) (fun P => P.args = args) r :=
    fun value r hzero hr => hr.mono (fun e he => ⟨he.1, fun hw => he.2 (hzero hw)⟩) fun _ h => h
  have hbase : ∀ {b : UInt32}, 1 < b.toNat → b.toNat ≤ 16 → ∀ sent,
      Yields (fun e => e = .buffer ∧ w ≠ 0) (fun P => P.args = args) (do
        let (_, P) ← (Printer.mk args buffer sent).uintToBase w.toUInt32.toInt32.toInt64.toUInt64 b
        fprintf fuel P.text P) := by
    intro b hb hle sent
    exact hvalue w.toUInt32.toInt32.toInt64.toUInt64 (fun hw => by rw [hw]; rfl)
      (number_yields hb hle hfuel _ (fun _ P => fprintf fuel P.text P) fun _ _ sent h => h sent)
  have hprintBase : ∀ {b : UInt32}, 1 < b.toNat → b.toNat ≤ 16 →
      Yields (fun e => e = .buffer ∧ w ≠ 0) (fun P => P.args = args)
        (printBase (fprintf fuel) b ⟨.word w :: args, buffer, sent⟩) := by
    intro b hb hle
    by_cases hneg : w.toUInt32.toInt32 < 0
    · rw [printBase_neg hneg, fprintf_minus (lt_trans (by decide) hfuel)]
      exact hbase hb hle _
    · rw [printBase_nonneg hneg]
      exact hbase hb hle _
  simp only [wordSpecifiers, List.mem_cons, List.not_mem_nil, or_false] at hc
  rcases hc with rfl | rfl | rfl | rfl | rfl | rfl
  · refine hvalue (if v.isLong then w else w.toUInt32.toUInt64) ?_
      (number_yields (b := 16) (by decide) (by decide) hfuel _ _ (hpadded v v.padChar))
    intro hw
    rw [hw]
    split <;> rfl
  · change Yields _ _ (printD (fprintf fuel) v ⟨.word w :: args, buffer, sent⟩)
    by_cases hneg : w.toUInt32.toInt32 < 0
    · rw [printD_neg hneg]
      exact hvalue (-w.toUInt32.toInt32).toInt64.toUInt64 (fun hw => by rw [hw]; rfl)
        (number_yields (b := 10) (by decide) (by decide) hfuel _ _
          fun len => hpadded v v.padChar (len + 1))
    · rw [printD_nonneg hneg]
      exact hvalue w.toUInt32.toInt32.toInt64.toUInt64 (fun hw => by rw [hw]; rfl)
        (number_yields (b := 10) (by decide) (by decide) hfuel _ _ (hpadded v v.padChar))
  · exact hvalue w.toUInt32.toUInt64 (fun hw => by rw [hw]; rfl)
      (number_yields (b := 10) (by decide) (by decide) hfuel _ _ (hpadded v v.padChar))
  · exact hprintBase (b := 8) (by decide) (by decide)
  · exact hprintBase (b := 2) (by decide) (by decide)
  · exact rfl

/-- **A conversion of a string** takes it, and fails only if the string does as a format. -/
theorem convert_string
    (hs : ∀ buffer sent, Yields E (fun _ => True) (vfprintf fuel s ⟨[], buffer, sent⟩)) :
    Yields E (fun P => P.args = args)
      (convert (fprintf fuel) v 115 ⟨.string s :: args, buffer, sent⟩) := by
  change Yields E _
    (printPadded v spaceChar s.length (fun P => fprintf fuel s P) ⟨args, buffer, sent⟩)
  refine printPadded_yields fun sent => ?_
  exact (hs buffer sent).bind fun P _ => rfl

/-! ## Colours -/

/-- The colours up to the final `m`. -/
theorem scanProps_ok {params : CStr} (hparams : 109 ∉ params) (prop : UInt8) (rest : CStr) :
    ∃ calls, scanProps prop (params ++ 109 :: rest) = .ok (calls, rest) := by
  induction params generalizing prop with
  | nil => exact ⟨_, rfl⟩
  | cons c params ih =>
      have hc : c ≠ 109 := fun h => hparams (h ▸ List.mem_cons_self)
      have hrest : 109 ∉ params := fun h => hparams (List.mem_cons_of_mem c h)
      obtain ⟨calls, hcalls⟩ := ih hrest (if c = 59 then 0 else prop * 10 + (c - 48))
      rw [List.cons_append, scanProps, if_neg hc, hcalls]
      exact ⟨_, rfl⟩

/-- Without a final `m`, the loop runs behind the end. -/
theorem scanProps_beyond {params : CStr} (hparams : 109 ∉ params) (prop : UInt8) :
    scanProps prop params = .error .beyond := by
  induction params generalizing prop with
  | nil => rfl
  | cons c params ih =>
      have hc : c ≠ 109 := fun h => hparams (h ▸ List.mem_cons_self)
      have hrest : 109 ∉ params := fun h => hparams (List.mem_cons_of_mem c h)
      rw [scanProps, if_neg hc, ih hrest]
      rfl

theorem vfprintf_color (fuel : ℕ) (rest : CStr) (P : Printer) :
    vfprintf (fuel + 1) (esc :: rest) P = (do
      let (calls, rest) ← parseANSI (esc :: rest)
      vfprintf fuel rest { P with sent := P.sent ++ [.write []] ++ calls }) := by
  rw [vfprintf, if_pos rfl]
  rfl

/-! ## Well-formed formats end -/

/-- The faults that are no business of the format. -/
def Ordinary (e : FormatFault) : Prop := e ≠ .endless ∧ e ≠ .beyond

/-- **A run over a well-formed format**, by induction on how it is formed: with `A` of the
arguments kept by every conversion. -/
theorem wellFormed_yields {A : List Arg → Prop} {K : ℕ}
    (hconvert : ∀ fuel ≥ K, ∀ v c P, A P.args →
      Yields Ordinary (fun P' => A P'.args) (convert (fprintf fuel) v c P))
    {format : CStr} (hformat : WellFormed format) (fuel : ℕ) (P : Printer) (hA : A P.args)
    (hfuel : format.length + K < fuel) :
    Yields Ordinary (fun _ => True) (vfprintf fuel format P) := by
  induction hformat generalizing fuel P with
  | nil =>
      obtain ⟨fuel, rfl⟩ :=
        Nat.exists_eq_add_one_of_ne_zero (Nat.ne_of_gt (Nat.zero_lt_of_lt hfuel))
      exact trivial
  | char hc hrest ih =>
      obtain ⟨fuel, rfl⟩ :=
        Nat.exists_eq_add_one_of_ne_zero (Nat.ne_of_gt (Nat.zero_lt_of_lt hfuel))
      rw [List.length_cons] at hfuel
      rw [vfprintf_char hc]
      exact ih fuel _ hA (by omega)
  | @conversion c rest rest' hscan hrest ih =>
      obtain ⟨fuel, rfl⟩ :=
        Nat.exists_eq_add_one_of_ne_zero (Nat.ne_of_gt (Nat.zero_lt_of_lt hfuel))
      have hlen := (scanConversion_suffix rest).length_le
      rw [hscan, List.length_cons] at hlen
      rw [List.length_cons] at hfuel
      rw [vfprintf_directive, directive]
      cases hv : scanConversion rest with
      | mk v after =>
          rw [hv] at hscan
          dsimp only at hscan ⊢
          subst hscan
          have hresult := hconvert fuel (by omega) v c P hA
          rw [List.headD_cons]
          cases hconvert : convert (fprintf fuel) v c P with
          | error e =>
              rw [hconvert] at hresult
              exact hresult
          | ok P' =>
              rw [hconvert] at hresult
              exact ih fuel P' hresult (by omega)
  | @color params rest hparams hfirst hrest ih =>
      obtain ⟨fuel, rfl⟩ :=
        Nat.exists_eq_add_one_of_ne_zero (Nat.ne_of_gt (Nat.zero_lt_of_lt hfuel))
      obtain ⟨calls, hcalls⟩ := scanProps_ok hparams 0 rest
      have hhead : ¬ ((91 :: (params ++ 109 :: rest)).headD 0 ≠ 91 ∨
          (params ++ 109 :: rest).headD 0 = 0) := by
        rintro (h | h)
        · exact h rfl
        · cases params with
          | nil => exact hfirst h
          | cons b params => exact hfirst h
      have hparse : parseANSI (esc :: 91 :: (params ++ 109 :: rest)) = .ok (calls, rest) := by
        unfold parseANSI
        exact (if_neg hhead).trans hcalls
      rw [vfprintf_color, hparse]
      refine ih fuel _ hA ?_
      simp only [List.length_cons, List.length_append] at hfuel
      omega

theorem convert_nil (h : P.args = []) (fuel : ℕ) :
    Yields Ordinary (fun P' => P'.args = []) (convert (fprintf fuel) v c P) := by
  rcases convert_noArgs h (fprintf fuel) v c with hfails | ⟨P', hP', hargs, -⟩
  · rw [hfails]
    exact ⟨by decide, by decide⟩
  · rw [hP']
    exact hargs

/-- A conversion takes an argument of its kind, fails without one, or needs none. -/
theorem convert_cases (P : Printer) (c : UInt8) :
    (c ∈ wordSpecifiers ∧ ∃ w args, P.args = .word w :: args) ∨
    (c = 115 ∧ ∃ s args, P.args = .string s :: args) ∨
    (c ∈ wordSpecifiers ∧ P.vaWord = .error .argument ∨ c = 115 ∧ P.vaString = .error .argument) ∨
    (c ∉ wordSpecifiers ∧ c ≠ 115) := by
  by_cases hc : c ∈ wordSpecifiers
  · cases hargs : P.args with
    | nil => exact .inr (.inr (.inl (.inl ⟨hc, by rw [Printer.vaWord, hargs]⟩)))
    | cons arg args =>
        cases arg with
        | word w => exact .inl ⟨hc, w, args, rfl⟩
        | string s => exact .inr (.inr (.inl (.inl ⟨hc, by rw [Printer.vaWord, hargs]⟩)))
  by_cases hs : c = 115
  · cases hargs : P.args with
    | nil => exact .inr (.inr (.inl (.inr ⟨hs, by rw [Printer.vaString, hargs]⟩)))
    | cons arg args =>
        cases arg with
        | word w => exact .inr (.inr (.inl (.inr ⟨hs, by rw [Printer.vaString, hargs]⟩)))
        | string s => exact .inr (.inl ⟨hs, s, args, rfl⟩)
  · exact .inr (.inr (.inr ⟨hc, hs⟩))

/-- Arguments whose strings are well formed and shorter than `K`. -/
def Friendly (K : ℕ) (args : List Arg) : Prop := ∀ s, .string s ∈ args → WellFormed s ∧ s.length < K

theorem Friendly.tail {K : ℕ} {arg : Arg} (h : Friendly K (arg :: args)) : Friendly K args :=
  fun s hs => h s (List.mem_cons_of_mem arg hs)

theorem convert_friendly {K : ℕ} (hK : bufferSize < K) (hfuel : K ≤ fuel) (h : Friendly K P.args) :
    Yields Ordinary (fun P' => Friendly K P'.args) (convert (fprintf fuel) v c P) := by
  obtain ⟨args, buffer, sent⟩ := P
  rcases convert_cases ⟨args, buffer, sent⟩ c with ⟨hc, w, args', rfl⟩ | ⟨rfl, s, args', rfl⟩ |
    hmissing | ⟨hword, hstring⟩
  · refine (convert_word hc (lt_of_lt_of_le hK hfuel)).mono (fun e he => ?_) fun P' hP' => ?_
    · rw [he.1]
      exact ⟨by decide, by decide⟩
    · rw [hP']
      exact h.tail
  · obtain ⟨hs, hlen⟩ := h s List.mem_cons_self
    have hnested :
        ∀ buffer sent, Yields Ordinary (fun _ => True) (vfprintf fuel s ⟨[], buffer, sent⟩) := by
      intro buffer sent
      refine wellFormed_yields (A := fun args => args = []) (K := 0)
        (fun fuel _ v c P hP => convert_nil hP fuel) hs fuel ⟨[], buffer, sent⟩ rfl ?_
      exact lt_of_lt_of_le hlen hfuel
    refine (convert_string hnested).mono (fun _ he => he) fun P' hP' => ?_
    rw [hP']
    exact h.tail
  · rw [convert_missing hmissing]
    exact ⟨by decide, by decide⟩
  · obtain ⟨P', hP', hargs, -⟩ := convert_other hword hstring (fprintf fuel) v ⟨args, buffer, sent⟩
    rw [hP']
    unfold Yields
    dsimp only
    rw [hargs]
    exact h

/-- The strings of an argument list have a bound. -/
theorem exists_friendly (h : ∀ s, .string s ∈ args → WellFormed s) :
    ∃ K, bufferSize < K ∧ Friendly K args := by
  induction args with
  | nil => exact ⟨bufferSize + 1, Nat.lt_succ_self _, fun s hs => absurd hs List.not_mem_nil⟩
  | cons arg args ih =>
      obtain ⟨K, hK, hfriendly⟩ := ih fun s hs => h s (List.mem_cons_of_mem arg hs)
      cases arg with
      | word w =>
          refine ⟨K, hK, fun s hs => ?_⟩
          rcases List.mem_cons.mp hs with hs | hs
          · cases hs
          · exact hfriendly s hs
      | string s' =>
          refine ⟨K + (s'.length + 1), by omega, fun s hs => ?_⟩
          rcases List.mem_cons.mp hs with hs' | hs'
          · cases hs'
            exact ⟨h _ List.mem_cons_self, by omega⟩
          · exact ⟨(hfriendly s hs').1, (hfriendly s hs').2.trans_le (Nat.le_add_right K _)⟩

theorem endsInside_of_wellFormed {format : CStr} (h : WellFormed format) : EndsInside format := by
  intro P hP
  obtain ⟨K, hK, hfriendly⟩ := exists_friendly hP
  refine ⟨format.length + K + 1, fun fuel hfuel => ?_⟩
  have hresult := wellFormed_yields (A := Friendly K) (fun fuel hfuel v c P hP =>
    convert_friendly hK hfuel hP) h fuel P hfriendly hfuel
  cases hrun : vfprintf fuel format P with
  | ok P' => exact ⟨by simp, by simp⟩
  | error e =>
      rw [hrun] at hresult
      exact ⟨fun h => hresult.1 (by injection h), fun h => hresult.2 (by injection h)⟩

/-! ## Other formats do not -/

/-- The two faults of a format. -/
def Trapped (r : Except FormatFault Printer) : Prop := r = .error .endless ∨ r = .error .beyond

/-- Arguments with which the format is left or never ended, if there is any number of rounds. -/
def Trap (format : CStr) (args : List Arg) : Prop :=
  (∀ s, .string s ∈ args → WellFormed s) ∧
  ∃ n, ∀ fuel ≥ n, ∀ buffer sent, Trapped (vfprintf fuel format ⟨args, buffer, sent⟩)

/-- **An escape character without a bracket** is met again in every round. -/
theorem vfprintf_stuck (h : rest.headD 0 ≠ 91 ∨ rest.tail.headD 0 = 0) (fuel : ℕ) (P : Printer) :
    vfprintf fuel (esc :: rest) P = .error .endless := by
  have hparse : parseANSI (esc :: rest) = .ok ([], esc :: rest) := if_pos h
  induction fuel generalizing P with
  | zero => rfl
  | succ fuel ih =>
      rw [vfprintf_color, hparse]
      exact ih _

/-- What traps the rest of a format traps the format, with one more argument for a conversion. -/
theorem trap_conversion {rest' : CStr} (hscan : (scanConversion rest).2 = c :: rest')
    (h : Trap rest' args) : ∃ args', Trap (percent :: rest) args' := by
  obtain ⟨hargs, n, hn⟩ := h
  cases hv : scanConversion rest with
  | mk v after =>
      rw [hv] at hscan
      dsimp only at hscan
      subst hscan
      -- it is enough that the conversion succeeds and leaves `args`
      have hstep : ∀ args', (∀ s, .string s ∈ args' → WellFormed s) →
          (∀ fuel > bufferSize, ∀ buffer sent, Yields (fun _ => False) (fun P => P.args = args)
            (convert (fprintf fuel) v c ⟨args', buffer, sent⟩)) → Trap (percent :: rest) args' := by
        intro args' hargs' hconvert
        refine ⟨hargs', n + bufferSize + 2, fun fuel hfuel buffer sent => ?_⟩
        obtain ⟨fuel, rfl⟩ := Nat.exists_eq_add_one_of_ne_zero
          (Nat.ne_of_gt (lt_of_lt_of_le (Nat.succ_pos _) hfuel))
        have hresult := hconvert fuel (by omega) buffer sent
        rw [vfprintf_directive, directive, hv]
        dsimp only [List.headD_cons]
        cases hrun : convert (fprintf fuel) v c ⟨args', buffer, sent⟩ with
        | error e =>
            rw [hrun] at hresult
            exact hresult.elim
        | ok P =>
            rw [hrun] at hresult
            obtain ⟨_, buffer', sent'⟩ := P
            obtain rfl := hresult
            exact hn fuel (by omega) buffer' sent'
      by_cases hc : c ∈ wordSpecifiers
      · refine ⟨.word 0 :: args, hstep _ (fun s hs => ?_) fun fuel hfuel buffer sent => ?_⟩
        · rcases List.mem_cons.mp hs with hs | hs
          · cases hs
          · exact hargs s hs
        · exact (convert_word hc hfuel).mono (fun e he => he.2 rfl) fun _ h => h
      by_cases hs : c = 115
      · subst hs
        refine ⟨.string [] :: args, hstep _ (fun s hs => ?_) fun fuel hfuel buffer sent => ?_⟩
        · rcases List.mem_cons.mp hs with hs | hs
          · cases hs
            exact .nil
          · exact hargs s hs
        · refine convert_string fun buffer sent => ?_
          have hplain : Plain [] := fun c hc => absurd hc List.not_mem_nil
          rw [vfprintf_plain hplain (Nat.zero_lt_of_lt hfuel)]
          exact trivial
      · refine ⟨args, hstep args hargs fun fuel hfuel buffer sent => ?_⟩
        obtain ⟨P', hP', hsame, -⟩ := convert_other hc hs (fprintf fuel) v ⟨args, buffer, sent⟩
        rw [hP']
        exact hsame

/-- **Every format that is not well formed is a trap**, by induction on its length. -/
theorem exists_trap (format : CStr) (h : ¬ WellFormed format) : ∃ args, Trap format args := by
  induction hlen : format.length using Nat.strong_induction_on generalizing format with
  | _ len ih =>
      cases format with
      | nil => exact absurd .nil h
      | cons c rest =>
          rw [List.length_cons] at hlen
          by_cases hesc : c = esc
          · subst hesc
            by_cases hstuck : rest.headD 0 ≠ 91 ∨ rest.tail.headD 0 = 0
            · refine ⟨[], fun s hs => absurd hs List.not_mem_nil, 0, fun fuel _ buffer sent => ?_⟩
              exact .inl (vfprintf_stuck hstuck fuel _)
            · have hparse : parseANSI (esc :: rest) = scanProps 0 rest.tail := if_neg hstuck
              obtain ⟨hbracket, hfirst⟩ := not_or.mp hstuck
              cases rest with
              | nil => exact absurd (by decide) hbracket
              | cons b body =>
                  obtain rfl : b = 91 := not_not.mp hbracket
                  rw [List.tail_cons] at hparse hfirst
                  by_cases hm : 109 ∈ body
                  · obtain ⟨params, rest', rfl, hparams⟩ := List.eq_append_cons_of_mem hm
                    have hhead : params.headD 109 ≠ 0 := by
                      cases params with
                      | nil => decide
                      | cons b params => exact hfirst
                    have hrest : ¬ WellFormed rest' := fun hw => h (.color hparams hhead hw)
                    obtain ⟨calls, hcalls⟩ := scanProps_ok hparams 0 rest'
                    rw [List.length_cons, List.length_append, List.length_cons] at hlen
                    obtain ⟨args, hargs, n, hn⟩ := ih rest'.length (by omega) rest' hrest rfl
                    refine ⟨args, hargs, n + 1, fun fuel hfuel buffer sent => ?_⟩
                    obtain ⟨fuel, rfl⟩ := Nat.exists_eq_add_one_of_ne_zero
                      (Nat.ne_of_gt (lt_of_lt_of_le (Nat.succ_pos _) hfuel))
                    rw [vfprintf_color, hparse, hcalls]
                    exact hn fuel (Nat.le_of_succ_le_succ hfuel) _ _
                  · refine ⟨[], fun s hs => absurd hs List.not_mem_nil, 0,
                      fun fuel _ buffer sent => ?_⟩
                    cases fuel with
                    | zero => exact .inl rfl
                    | succ fuel =>
                        rw [vfprintf_color, hparse, scanProps_beyond hm]
                        exact .inr rfl
          by_cases hpercent : c = percent
          · subst hpercent
            cases hscan : (scanConversion rest).2 with
            | nil =>
                refine ⟨[], fun s hs => absurd hs List.not_mem_nil, 0, fun fuel _ buffer sent => ?_⟩
                cases fuel with
                | zero => exact .inl rfl
                | succ fuel =>
                    rw [vfprintf_directive, directive]
                    cases hv : scanConversion rest with
                    | mk v after =>
                        rw [hv] at hscan
                        dsimp only at hscan
                        subst hscan
                        exact .inr rfl
            | cons c' rest' =>
                have hrest : ¬ WellFormed rest' := fun hw => h (.conversion hscan hw)
                have hshort := (scanConversion_suffix rest).length_le
                rw [hscan, List.length_cons] at hshort
                obtain ⟨args, htrap⟩ := ih rest'.length (by omega) rest' hrest rfl
                exact trap_conversion hscan htrap
          · have hrest : ¬ WellFormed rest := fun hw => h (.char ⟨hesc, hpercent⟩ hw)
            obtain ⟨args, hargs, n, hn⟩ := ih rest.length (by omega) rest hrest rfl
            refine ⟨args, hargs, n + 1, fun fuel hfuel buffer sent => ?_⟩
            obtain ⟨fuel, rfl⟩ := Nat.exists_eq_add_one_of_ne_zero
              (Nat.ne_of_gt (lt_of_lt_of_le (Nat.succ_pos _) hfuel))
            rw [vfprintf_char ⟨hesc, hpercent⟩]
            exact hn fuel (Nat.le_of_succ_le_succ hfuel) _ _

/-- **`vfprintf` ends inside the format** exactly if the format is well formed. -/
theorem format_ends (format : CStr) : EndsInside format ↔ WellFormed format := by
  constructor
  · intro h
    by_contra hnot
    obtain ⟨args, hargs, n, hn⟩ := exists_trap format hnot
    obtain ⟨n', hn'⟩ := h ⟨args, fun _ => 0, []⟩ hargs
    obtain ⟨hendless, hbeyond⟩ := hn' (max n n') (le_max_right n n')
    rcases hn (max n n') (le_max_left n n') (fun _ => 0) [] with htrap | htrap
    · exact hendless htrap
    · exact hbeyond htrap
  · exact endsInside_of_wellFormed

/-- A trailing `%`, an escape character without a bracket, and a colour without its `m`. -/
theorem format_ends_not : ¬ EndsInside [percent] ∧ ¬ EndsInside [esc, 120] ∧
    ¬ EndsInside [esc, 91, 51, 49] := by
  have hnone : ∀ s, Arg.string s ∈ ([] : List Arg) → WellFormed s :=
    fun s hs => absurd hs List.not_mem_nil
  refine ⟨fun h => ?_, fun h => ?_, fun h => ?_⟩
  · obtain ⟨n, hn⟩ := h ⟨[], fun _ => 0, []⟩ hnone
    exact (hn (n + 1) (Nat.le_succ n)).2 rfl
  · obtain ⟨n, hn⟩ := h ⟨[], fun _ => 0, []⟩ hnone
    exact (hn n (le_refl n)).1 (vfprintf_stuck (.inl (by decide)) n _)
  · obtain ⟨n, hn⟩ := h ⟨[], fun _ => 0, []⟩ hnone
    exact (hn (n + 1) (Nat.le_succ n)).2 rfl

end BareKernel.Text
