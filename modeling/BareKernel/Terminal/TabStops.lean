import BareKernel.Terminal.KeyDeque

/-!
# Where the expansion of a tabulator ends

The loop of `addCharToBuffer` looks at the column of the cursor, which only moves when the
blanks are shown, and at a test for a full ring that is only right while `to_read` is 0. It
ends within the free places exactly when one of the two stops it there.
-/

namespace BareKernel

open Loops

namespace Console

variable {V : VideoMode} {s : Console}

/-- The glyphs that still fit on the line. -/
def fitting (V : VideoMode) (s : Console) : ℕ :=
  ((V.width - s.xBufferPosition) / (s.glyphWidth : ℤ)).toNat

/-- The glyphs up to the next stop of the tabulator if the line had no end. -/
def toStop (s : Console) : ℕ := tabSize - (s.xBufferPosition / (s.glyphWidth : ℤ) % 4).toNat

/-- The glyphs up to the next stop. A cursor that stands between two glyphs meets none before the
line ends, and on the next line the fourth glyph reaches one. -/
def blanksToStop (V : VideoMode) (s : Console) : ℕ :=
  if (s.glyphWidth : ℤ) ∣ s.xBufferPosition ∧ s.toStop ≤ s.fitting V then s.toStop
  else s.fitting V + tabSize

/-- The cursor stands at a stop, as the driver computes it. -/
theorem betweenStops_iff {k : ℕ} (hx : s.xBufferPosition = k) (hk : k < 2 ^ 16) :
    s.betweenStops = false ↔ 4 * s.glyphWidth ∣ k := by
  have hmod : (s.xBufferPosition % 2 ^ 16).toNat = k := by
    rw [hx]
    omega
  have hwidth : tabSize * glyphSizeX * s.fontSize = 4 * s.glyphWidth := by
    unfold tabSize glyphWidth
    ring
  unfold betweenStops
  rw [hmod, hwidth, decide_eq_false_iff_not, not_not, Nat.dvd_iff_mod_eq_zero]

/-- Blanks that fit move the cursor to the right. -/
theorem blanks_fit (hpos : 0 < s.glyphWidth) : ∀ {k : ℕ}, k ≤ s.fitting V →
    ((fun s => s.putGlyph V blankChar)^[k] s).xBufferPosition =
        s.xBufferPosition + s.glyphWidth * k ∧
      ((fun s => s.putGlyph V blankChar)^[k] s).glyphWidth = s.glyphWidth := by
  intro k
  induction k with
  | zero => exact fun _ => ⟨by simp, rfl⟩
  | succ k ih =>
      intro hk
      obtain ⟨hx, hwidth⟩ := ih (Nat.le_of_succ_le hk)
      rw [Function.iterate_succ_apply']
      generalize (fun s => s.putGlyph V blankChar)^[k] s = u at hx hwidth
      obtain ⟨hcolumn, hsize⟩ := putGlyph_column V u blankChar
      have hroom : s.xBufferPosition + s.glyphWidth * (k + 1) ≤ V.width := by
        have hle : ((k + 1 : ℕ) : ℤ) ≤ (V.width - s.xBufferPosition) / (s.glyphWidth : ℤ) := by
          unfold fitting at hk
          omega
        have hmul := Int.mul_le_of_le_ediv (by exact_mod_cast hpos) hle
        push_cast at hmul
        linarith
      have hsame : (u.putGlyph V blankChar).glyphWidth = s.glyphWidth := by
        rw [← hwidth]
        unfold glyphWidth
        rw [hsize]
      refine ⟨?_, hsame⟩
      rw [hcolumn, column, hx, hwidth, if_neg (by linarith)]
      push_cast
      ring

/-- On the next line the cursor starts from the left. -/
theorem blanks_wrap (hpos : 0 < s.glyphWidth) (hwide : 4 * s.glyphWidth ≤ V.width) :
    ∀ {j : ℕ}, j < tabSize →
      ((fun s => s.putGlyph V blankChar)^[s.fitting V + (j + 1)] s).xBufferPosition =
          s.glyphWidth * (j + 1 : ℕ) ∧
        ((fun s => s.putGlyph V blankChar)^[s.fitting V + (j + 1)] s).glyphWidth =
          s.glyphWidth := by
  intro j
  induction j with
  | zero =>
      intro _
      obtain ⟨hx, hwidth⟩ := blanks_fit (V := V) hpos le_rfl
      rw [← Nat.add_assoc, Nat.add_zero, Function.iterate_succ_apply']
      generalize hu : (fun s => s.putGlyph V blankChar)^[s.fitting V] s = u at hx hwidth
      obtain ⟨hcolumn, hsize⟩ := putGlyph_column V u blankChar
      have hend : V.width < u.xBufferPosition + u.glyphWidth := by
        rw [hx, hwidth]
        have hlt := Int.lt_ediv_add_one_mul_self (V.width - s.xBufferPosition)
          (show (0 : ℤ) < s.glyphWidth by exact_mod_cast hpos)
        have hle : (V.width - s.xBufferPosition) / (s.glyphWidth : ℤ) ≤ (s.fitting V : ℤ) := by
          unfold fitting
          omega
        have hmul := mul_le_mul_of_nonneg_right hle
          (show (0 : ℤ) ≤ s.glyphWidth by exact_mod_cast hpos.le)
        linarith
      have hsame : (u.putGlyph V blankChar).glyphWidth = s.glyphWidth := by
        rw [← hwidth]
        unfold glyphWidth
        rw [hsize]
      refine ⟨?_, hsame⟩
      rw [hcolumn, column, if_pos hend, hwidth]
      simp
  | succ j ih =>
      intro hj
      obtain ⟨hx, hwidth⟩ := ih (Nat.lt_of_succ_lt hj)
      rw [← Nat.add_assoc, Function.iterate_succ_apply']
      generalize (fun s => s.putGlyph V blankChar)^[s.fitting V + (j + 1)] s = u at hx hwidth
      obtain ⟨hcolumn, hsize⟩ := putGlyph_column V u blankChar
      have hroom : (s.glyphWidth : ℤ) * (j + 1 : ℕ) + s.glyphWidth ≤ V.width := by
        have hle : s.glyphWidth * (j + 2) ≤ s.glyphWidth * 4 := by
          apply Nat.mul_le_mul_left
          unfold tabSize at hj
          omega
        have hcast : ((s.glyphWidth * (j + 2) : ℕ) : ℤ) ≤ V.width := by
          exact_mod_cast (by omega : s.glyphWidth * (j + 2) ≤ V.width)
        push_cast at hcast ⊢
        linarith
      have hsame : (u.putGlyph V blankChar).glyphWidth = s.glyphWidth := by
        rw [← hwidth]
        unfold glyphWidth
        rw [hsize]
      refine ⟨?_, hsame⟩
      rw [hcolumn, column, hx, hwidth, if_neg (by linarith)]
      push_cast
      ring

/-- **Where the blanks meet a stop** for the first time. -/
theorem blanks_stop (hx : 0 ≤ s.xBufferPosition) (hpos : 0 < s.glyphWidth)
    (hwide : 4 * s.glyphWidth ≤ V.width) {n : ℕ} (hn : 0 < n) (hle : n ≤ s.blanksToStop V) :
    ((fun s => s.putGlyph V blankChar)^[n] s).betweenStops = false ↔ n = s.blanksToStop V := by
  obtain ⟨x, hxn⟩ := Int.eq_ofNat_of_zero_le hx
  have hW := V.width_lt
  have htoStop : s.toStop = 4 - x / s.glyphWidth % 4 := by
    unfold toStop tabSize
    rw [hxn]
    norm_cast
  rcases le_or_gt n (s.fitting V) with hfits | hwraps
  · -- the blank is on the line of the cursor
    obtain ⟨hcolumn, hwidth⟩ := blanks_fit (V := V) hpos hfits
    have hroom : x + s.glyphWidth * n ≤ V.width := by
      have hdiv : (n : ℤ) ≤ (V.width - s.xBufferPosition) / (s.glyphWidth : ℤ) := by
        unfold fitting at hfits
        omega
      have hmul := Int.mul_le_of_le_ediv (by exact_mod_cast hpos) hdiv
      rw [hxn] at hmul
      have hint : ((x + s.glyphWidth * n : ℕ) : ℤ) ≤ V.width := by
        push_cast
        linarith
      exact_mod_cast hint
    have hnat : ((fun s => s.putGlyph V blankChar)^[n] s).xBufferPosition =
        ((x + s.glyphWidth * n : ℕ) : ℤ) := by
      rw [hcolumn, hxn]
      push_cast
      rfl
    rw [betweenStops_iff hnat (by omega), hwidth]
    by_cases hdvd : s.glyphWidth ∣ x
    · obtain ⟨c, rfl⟩ := hdvd
      have hc : s.glyphWidth * c / s.glyphWidth = c := Nat.mul_div_cancel_left c hpos
      rw [hc] at htoStop
      have hiff : 4 * s.glyphWidth ∣ s.glyphWidth * c + s.glyphWidth * n ↔ 4 ∣ c + n := by
        rw [← Nat.mul_add, Nat.mul_comm 4]
        exact Nat.mul_dvd_mul_iff_left hpos
      rw [hiff]
      have haligned : (s.glyphWidth : ℤ) ∣ s.xBufferPosition := by
        rw [hxn]
        exact_mod_cast Nat.dvd_mul_right s.glyphWidth c
      unfold blanksToStop at hle ⊢
      by_cases hstop : s.toStop ≤ s.fitting V
      · rw [if_pos ⟨haligned, hstop⟩] at hle ⊢
        omega
      · rw [if_neg fun hand => hstop hand.2]
        unfold tabSize
        omega
    · have hno : ¬4 * s.glyphWidth ∣ x + s.glyphWidth * n := by
        intro h
        apply hdvd
        have hsum := (Nat.dvd_mul_left s.glyphWidth 4).trans h
        exact (Nat.dvd_add_left (Nat.dvd_mul_right s.glyphWidth n)).mp hsum
      have hneq : n ≠ s.blanksToStop V := by
        unfold blanksToStop
        rw [if_neg fun hand => hdvd (by rw [hxn] at hand; exact_mod_cast hand.1)]
        unfold tabSize
        omega
      exact ⟨fun h => absurd h hno, fun h => absurd h hneq⟩
  · -- the blank is on the next line
    obtain ⟨j, rfl⟩ := Nat.exists_eq_add_of_lt hwraps
    have hbts : s.blanksToStop V = s.fitting V + tabSize := by
      unfold blanksToStop at hle ⊢
      split at hle
      · omega
      · rename_i hno
        rw [if_neg hno]
    rw [hbts] at hle ⊢
    obtain ⟨hcolumn, hwidth⟩ := blanks_wrap (V := V) (s := s) hpos hwide (j := j) (by omega)
    rw [Nat.add_assoc]
    have hnat : ((fun s => s.putGlyph V blankChar)^[s.fitting V + (j + 1)] s).xBufferPosition =
        ((s.glyphWidth * (j + 1) : ℕ) : ℤ) := by
      rw [hcolumn]
      push_cast
      rfl
    have hroom : s.glyphWidth * (j + 1) ≤ s.glyphWidth * 4 := by
      apply Nat.mul_le_mul_left
      unfold tabSize at hle
      omega
    rw [betweenStops_iff hnat (by omega), hwidth, Nat.mul_comm 4,
      Nat.mul_dvd_mul_iff_left hpos]
    unfold tabSize at hle ⊢
    omega

end Console

namespace Terminal

variable {V : VideoMode} {t u : Terminal} {showOutput : Bool}

/-- The places of the ring that are free; one of its cells is never used. -/
def freePlaces (t : Terminal) : ℕ := bufferSize - 1 - subMod t.toWrite t.toRead bufferSize

/-- The expansion of a tabulator comes to its end, and it pushes no more blanks than there are free
places. -/
def TabEnds (V : VideoMode) (showOutput : Bool) (t : Terminal) : Prop :=
  ∃ fuel u n, t.addCharToBuffer V fuel tabulatorChar showOutput = .done u ∧
    t.ringOps u = List.replicate n (.push blankChar) ∧ n ≤ t.freePlaces

/-- It ends in time if the loop stops after some number of blanks for which there is room. -/
theorem tabEnds_iff : TabEnds V showOutput t ↔
    ∃ n, 0 < n ∧ n ≤ t.freePlaces ∧ goesOn ((pushBlank V showOutput)^[n] t) = false := by
  constructor
  · rintro ⟨fuel, u, n, hdone, hops, hroom⟩
    obtain ⟨m, -, rfl, -, hstop⟩ := tab_done.mp hdone
    have hacts := (iterate_pushBlank (V := V) (t := t) showOutput (m + 1)).1.ringOps_eq
    have hsame : m + 1 = n := by
      have hlength := congrArg List.length (hacts.symm.trans hops)
      rwa [List.length_replicate, List.length_replicate] at hlength
    exact ⟨m + 1, Nat.succ_pos m, hsame ▸ hroom, hstop⟩
  · rintro ⟨n, hpos, hroom, hstop⟩
    obtain ⟨k, rfl⟩ := Nat.exists_eq_add_of_lt hpos
    rw [Nat.zero_add] at hroom hstop
    obtain ⟨u, hu⟩ := tab_ends (t := t) hstop
    obtain ⟨m, hm, rfl, -, -⟩ := tab_done.mp hu
    exact ⟨k + 1, _, m + 1, hu, (iterate_pushBlank showOutput (m + 1)).1.ringOps_eq, by omega⟩

/-- The indices of the ring after some blanks. -/
theorem iterate_toWrite (k : ℕ) (hwrite : t.toWrite < bufferSize) :
    ((pushBlank V showOutput)^[k] t).toWrite = (t.toWrite + k) % bufferSize := by
  induction k with
  | zero => exact (Nat.mod_eq_of_lt hwrite).symm
  | succ k ih =>
      rw [Function.iterate_succ_apply']
      change incMod ((pushBlank V showOutput)^[k] t).toWrite bufferSize = _
      rw [ih, incMod, Nat.mod_add_mod, Nat.add_assoc]

/-- The test for a full ring holds only at the last cell, while nothing was ever read. -/
theorem reported_full (hwrite : t.toWrite < bufferSize) (hread : t.toRead < bufferSize) :
    t.bufferIsFull = true ↔ t.toRead = 0 ∧ t.toWrite = bufferSize - 1 := by
  have hring := bufferIsFull_iff (t := t)
    (r := ⟨t.buffer, t.toWrite, t.toRead, hwrite, hread⟩) ⟨rfl, rfl, rfl⟩
  rw [hring]
  unfold KeyRing.count subMod bufferSize at *
  dsimp only
  split <;> omega

/-- The loop is stopped by the ring or by the column. -/
theorem goesOn_false : goesOn t = false ↔
    t.bufferIsFull = true ∨ t.console.betweenStops = false := by
  unfold goesOn
  cases t.bufferIsFull <;> cases t.console.betweenStops <;> simp

/-- **The expansion of a tabulator ends in time** exactly when there is a free place and either
nothing was read since the ring was last emptied, or the cursor reaches a stop within the free
places, or it stands at one and does not move. -/
theorem tab_terminates (V : VideoMode) (showOutput : Bool) (t : Terminal)
    (hwrite : t.toWrite < bufferSize) (hread : t.toRead < bufferSize)
    (hone : 1 ≤ t.console.fontSize)
    (hwide : 4 * t.console.glyphWidth ≤ V.width) (hx : 0 ≤ t.console.xBufferPosition) :
    TabEnds V showOutput t ↔ 0 < t.freePlaces ∧
      (t.toRead = 0 ∨
        (if showOutput then t.console.blanksToStop V ≤ t.freePlaces
          else t.console.betweenStops = false)) := by
  rw [tabEnds_iff]
  have hpos : 0 < t.console.glyphWidth := Nat.mul_pos (by decide) hone
  have hindex : ∀ n, ((pushBlank V showOutput)^[n] t).bufferIsFull = true ↔
      t.toRead = 0 ∧ (t.toWrite + n) % bufferSize = bufferSize - 1 := by
    intro n
    have hwrite' : ((pushBlank V showOutput)^[n] t).toWrite = (t.toWrite + n) % bufferSize :=
      iterate_toWrite n hwrite
    have hread' := (iterate_pushBlank (V := V) (t := t) showOutput n).2.2
    rw [reported_full (by rw [hwrite']; exact Nat.mod_lt _ (by decide))
      (by rw [hread']; exact hread), hwrite', hread']
  have hstops :
      ∀ n, ((pushBlank V showOutput)^[n] t).console = Terminal.blanks V showOutput n t.console :=
    fun n => (iterate_pushBlank showOutput n).2.1
  constructor
  · rintro ⟨n, hn, hroom, hstop⟩
    refine ⟨by omega, ?_⟩
    rcases goesOn_false.mp hstop with hfull | hcolumn
    · exact .inl ((hindex n).mp hfull).1
    · right
      rw [hstops] at hcolumn
      unfold Terminal.blanks at hcolumn
      cases showOutput with
      | false => exact hcolumn
      | true =>
          rw [if_pos rfl] at hcolumn ⊢
          by_contra hno
          have hlt : n ≠ t.console.blanksToStop V := by omega
          exact hlt ((Console.blanks_stop hx hpos hwide hn (by omega)).mp hcolumn)
  · rintro ⟨hfree, hzero | hcolumn⟩
    · -- the ring is full after exactly the free places
      refine ⟨t.freePlaces, hfree, le_rfl, goesOn_false.mpr (.inl ((hindex _).mpr ⟨hzero, ?_⟩))⟩
      unfold freePlaces subMod bufferSize at *
      rw [hzero]
      simp only [Nat.not_lt_zero, if_false]
      omega
    · cases showOutput with
      | false =>
          refine ⟨1, Nat.one_pos, hfree, goesOn_false.mpr (.inr ?_)⟩
          rw [hstops]
          exact hcolumn
      | true =>
          rw [if_pos rfl] at hcolumn
          have hbts : 0 < t.console.blanksToStop V := by
            unfold Console.blanksToStop Console.toStop tabSize
            split <;> omega
          refine ⟨t.console.blanksToStop V, hbts, hcolumn, goesOn_false.mpr (.inr ?_)⟩
          rw [hstops]
          exact (Console.blanks_stop hx hpos hwide hbts le_rfl).mpr rfl

/-- On an empty ring and an empty screen. -/
theorem tab_terminates_initial : TabEnds smallWindow true initial :=
  (tab_terminates smallWindow true initial (by decide) (by decide) (by decide) (by decide)
    (by decide)).mpr ⟨by decide, .inl rfl⟩

/-- A character was typed without an echo and read, and then something was printed. -/
def hidden : Terminal :=
  { initial with
    toWrite := 1
    toRead := 1
    console := { Console.initial with xBufferPosition := 8 } }

/-- Blanks that are not shown do not move the cursor, and the ring is never reported full. -/
theorem tab_runs_on : ¬TabEnds smallWindow false hidden := by
  rw [tabEnds_iff]
  rintro ⟨n, -, -, hstop⟩
  obtain ⟨-, hconsole, hread⟩ := iterate_pushBlank (V := smallWindow) (t := hidden) false n
  rcases goesOn_false.mp hstop with hfull | hcolumn
  · have hwrite : ((pushBlank smallWindow false)^[n] hidden).toWrite =
        (hidden.toWrite + n) % bufferSize := iterate_toWrite n (by decide)
    have hzero := ((reported_full (by rw [hwrite]; exact Nat.mod_lt _ (by decide))
      (by rw [hread]; decide)).mp hfull).1
    rw [hread] at hzero
    exact absurd hzero (by decide)
  · rw [hconsole] at hcolumn
    have hbetween : hidden.console.betweenStops = true := by decide
    exact absurd (hbetween.symm.trans hcolumn) (by decide)

end Terminal

end BareKernel
