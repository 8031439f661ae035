import BareKernel.Kernel.Transfers
import BareKernel.Lib.RingBuffer

/-!
# The credits of a pipe

The value of the read semaphore is the number of bytes in the ring, and that of
the write semaphore the number of free places. Between `semWait` and `semPost` the
caller holds a token that counts for neither. `writeToFD` and `readFromFD` keep
this law. `readFromFDAt` takes a byte without giving its place back, and a write
behind the end of the stream forgets `eof` with tokens left over.
-/

namespace BareKernel.Kernel

open ProcessState Runs

/-- A pipe is a stream and two semaphores. -/
structure Pipe : Type where
  id : ℕ
  readSem : ℕ
  writeSem : ℕ

/-- The bytes of the ring, in the order in which they are read. -/
def Stream.unread (st : Stream) : List UInt8 :=
  RingBuffer.contents st.buffer bufferSize st.readPos st.dataAvailable.toNat

def Obs.storedByte : Obs → Option UInt8
  | .stored _ byte => some byte
  | _ => none

def Obs.tookByte : Obs → Option UInt8
  | .took _ byte => some byte
  | _ => none

namespace Pipe

variable (P : Pipe)

/-- The stream uses neither of the two semaphores. -/
def Apart (st : Stream) : Prop :=
  (st.readSem ≠ P.readSem ∧ st.readSem ≠ P.writeSem) ∧
    (st.writeSem ≠ P.readSem ∧ st.writeSem ≠ P.writeSem)

/-- The semaphore is neither of the two. -/
def Other (semId : ℤ) : Prop := semId ≠ P.readSem ∧ semId ≠ P.writeSem

/-- Inside `semWait` for the pipe are its readers and writers, each on its own
semaphore, and nobody else. -/
def Admits : Frame → Prop
  | .semWait semId .done => P.Other semId
  | .semWait semId (.take r) =>
      r.stream = P.id ∧ semId = P.readSem ∧ r.fd ≠ stdin ∨ r.stream ≠ P.id ∧ P.Other semId
  | .semWait semId (.store w) =>
      w.stream = P.id ∧ semId = P.writeSem ∨ w.stream ≠ P.id ∧ P.Other semId
  | .semWait semId (.readAt stream _) => stream ≠ P.id ∧ P.Other semId
  | .reading r => r.stream = P.id → r.fd ≠ stdin
  | _ => True

theorem admits_idle {f : Frame} (h : f.idle) : P.Admits f := by
  cases f <;> trivial

end Pipe

namespace Machine

variable {S S' S₁ : Machine} {e : Event} {c pid fd count readTokens writeTokens : ℤ}
  {buf : List UInt8} {P : Pipe} {st st' : Stream} {nodes blocks : ℕ → Bool}

/-- The bytes that writers have stored in the stream, in order. -/
def storedBytes (S : Machine) (id : ℕ) : List UInt8 :=
  (S.history id).reverse.filterMap Obs.storedByte

/-- The bytes that readers have taken off the stream, in order. -/
def tookBytes (S : Machine) (id : ℕ) : List UInt8 :=
  (S.history id).reverse.filterMap Obs.tookByte

/-- The value of a semaphore as a number. -/
def valueOf (S : Machine) (semId : ℕ) : ℤ := (S.sems.sems semId).value.toInt

/-- The law of a pipe whose caller holds some tokens of either semaphore. -/
structure Credits (P : Pipe) (S : Machine) (readTokens writeTokens : ℤ) (st : Stream) : Prop where
  sems : st.readSem = P.readSem ∧ st.writeSem = P.writeSem
  used : (S.sems.sems P.readSem).used = true ∧ (S.sems.sems P.writeSem).used = true
  ring : st.readPos < bufferSize ∧
    st.writePos = (st.readPos + st.dataAvailable.toNat) % bufferSize
  available : 0 ≤ st.dataAvailable ∧ st.dataAvailable ≤ bufferSize
  space : S.valueOf P.writeSem + writeTokens + st.dataAvailable = bufferSize
  places : 0 ≤ S.valueOf P.writeSem
  data : st.eof = false → S.valueOf P.readSem + readTokens = st.dataAvailable
  bytes : st.eof = false → 0 ≤ S.valueOf P.readSem
  ended : st.eof = true → st.writers = 0
  writers : 0 ≤ st.writers
  fifo : S.storedBytes P.id = S.tookBytes P.id ++ st.unread

/-! ## What happens between two tokens -/

/-- The values change, and the tokens with them. -/
theorem Credits.transfer {readTokens' writeTokens' : ℤ} (h : S.Credits P readTokens writeTokens st)
    (hhistory : S'.history P.id = S.history P.id)
    (hused : (S'.sems.sems P.readSem).used = true ∧ (S'.sems.sems P.writeSem).used = true)
    (hwrite : S'.valueOf P.writeSem + writeTokens' = S.valueOf P.writeSem + writeTokens)
    (hplaces : 0 ≤ S'.valueOf P.writeSem)
    (hread : st.eof = false → S'.valueOf P.readSem + readTokens' =
      S.valueOf P.readSem + readTokens ∧ 0 ≤ S'.valueOf P.readSem) :
    S'.Credits P readTokens' writeTokens' st := by
  refine ⟨h.sems, hused, h.ring, h.available, by rw [hwrite]; exact h.space, hplaces,
    fun heof => (hread heof).1.trans (h.data heof), fun heof =>
      (hread heof).2, h.ended, h.writers, ?_⟩
  unfold storedBytes tookBytes
  rw [hhistory]
  exact h.fifo

/-- What is not about the bytes of the stream does not matter. -/
theorem Credits.same (h : S.Credits P readTokens writeTokens st) (hsems : S'.sems = S.sems)
    (hhistory : S'.history P.id = S.history P.id) : S'.Credits P readTokens writeTokens st := by
  have hvalue : ∀ i, S'.valueOf i = S.valueOf i := fun i => by unfold valueOf; rw [hsems]
  refine h.transfer hhistory (by rw [hsems]; exact h.used) (by rw [hvalue]) ?_ fun heof => ?_
  · rw [hvalue]
    exact h.places
  · rw [hvalue]
    exact ⟨rfl, h.bytes heof⟩

/-- At the end of the stream nobody counts the tokens of the readers. -/
theorem Credits.ofEof {readTokens' : ℤ} (h : S.Credits P readTokens writeTokens st)
    (heof : st.eof = true) : S.Credits P readTokens' writeTokens st :=
  h.transfer rfl h.used rfl h.places fun hnot => absurd (hnot.symm.trans heof) (by simp)

theorem Credits.onSched (h : S.Credits P readTokens writeTokens st) (f : Sched → Sched) :
    (S.onSched f).Credits P readTokens writeTokens st := h.same rfl rfl

theorem Credits.setFrame (h : S.Credits P readTokens writeTokens st) (f : Frame) :
    (S.setFrame pid f).Credits P readTokens writeTokens st := h.same rfl rfl

theorem Credits.setStream (h : S.Credits P readTokens writeTokens st) (id : ℕ) (st' : Stream) :
    (S.setStream id st').Credits P readTokens writeTokens st := h.same rfl rfl

/-- A return is recorded, but no byte. -/
theorem Credits.returned (h : S.Credits P readTokens writeTokens st) {id : ℕ} {n m : ℤ}
    {nl : Bool} :
    (S.note (.readReturned pid id n m nl)).Credits P readTokens writeTokens st := by
  have hkeep : ∀ f : Obs → Option UInt8, f (.readReturned pid id n m nl) = none →
      ((S.note (.readReturned pid id n m nl)).history P.id).reverse.filterMap f =
        (S.history P.id).reverse.filterMap f := by
    intro f hf
    by_cases hon : (Obs.readReturned pid id n m nl).on P.id = true
    · rw [history_note_on hon, List.reverse_cons, List.filterMap_append]
      simp [hf]
    · rw [Bool.not_eq_true] at hon
      rw [history_note hon]
  refine ⟨h.sems, h.used, h.ring, h.available, h.space, h.places, h.data, h.bytes, h.ended,
    h.writers, ?_⟩
  unfold storedBytes tookBytes
  rw [hkeep _ rfl, hkeep _ rfl]
  exact h.fifo

/-! ## Values -/

theorem toInt_add_one {v : Int32} (h : v.toInt ≤ 2048) (hpos : 0 ≤ v.toInt) :
    (v + 1).toInt = v.toInt + 1 := by
  rw [Int32.toInt_add]
  change (v.toInt + 1).bmod (2 ^ 32) = v.toInt + 1
  rw [Int.bmod_eq_of_le] <;> omega

theorem toInt_sub_one {v : Int32} (h : v.toInt ≤ 2048) (hpos : 0 < v.toInt) :
    (v - 1).toInt = v.toInt - 1 := by
  rw [Int32.toInt_sub]
  change (v.toInt - 1).bmod (2 ^ 32) = v.toInt - 1
  rw [Int.bmod_eq_of_le] <;> omega

theorem toInt_pos {v : Int32} (hne : v ≠ 0) (h : 0 ≤ v.toInt) : 0 < v.toInt := by
  apply lt_of_le_of_ne h
  intro hzero
  apply hne
  rw [← Int32.toInt_inj, ← hzero]
  rfl

/-- A post to a semaphore in use adds one, and leaves all others as they are. -/
theorem semPost_value {semId : ℕ} {r : Int32} (hlt : semId < maxSems)
    (hused : (S.sems.sems semId).used = true) (h : S.semPost semId = some (r, S')) :
    (S'.sems.sems semId).used = true ∧ (S'.sems.sems semId).value =
      (S.sems.sems semId).value + 1 := by
  unfold semPost at h
  have hrange : ¬((semId : ℤ) < 0 ∨ (semId : ℤ) ≥ maxSems) := by
    rw [not_or, not_lt, not_le]
    exact ⟨Int.natCast_nonneg _, by exact_mod_cast hlt⟩
  rw [if_neg hrange, Int.toNat_natCast] at h
  dsimp only at h
  rw [if_neg (by simp [hused])] at h
  split at h
  · exact absurd h (by simp)
  · obtain ⟨-, rfl⟩ := Prod.mk.inj (Option.some.inj h)
    rw [wakeAll_sems, note_sems, setSem_sems, SemTable.setSem_sems_self]
    exact ⟨hused, rfl⟩

/-- The two semaphores are different slots of the table. -/
def Slots (P : Pipe) : Prop :=
  P.readSem ≠ P.writeSem ∧ P.readSem < maxSems ∧ P.writeSem < maxSems

/-- Using one of the two semaphores leaves the other one and the stream alone. -/
theorem local_other {semId i : ℕ} (hne : i ≠ semId)
    (h : Local (fun _ => False) (· = (semId : ℤ)) S S') :
    (S'.sems.sems i).used = (S.sems.sems i).used ∧ S'.valueOf i = S.valueOf i := by
  obtain ⟨hused, hvalue⟩ := h.sems i (by exact_mod_cast hne)
  exact ⟨hused, by unfold valueOf; rw [hvalue]⟩

/-- **A post to the read semaphore** gives a token back. -/
theorem Credits.postRead {r : Int32} (hP : Slots P) (h : S.Credits P readTokens writeTokens st)
    (htoken : st.eof = false → 1 ≤ readTokens) (hpost : S.semPost P.readSem = some (r, S')) :
    S'.Credits P (readTokens - 1) writeTokens st := by
  have hlocal : Local (fun _ => False) (· = (P.readSem : ℤ)) S S' := semPost_local rfl hpost
  obtain ⟨hused, hvalue⟩ := semPost_value hP.2.1 h.used.1 hpost
  obtain ⟨hsame, hother⟩ := local_other hP.1.symm hlocal
  refine h.transfer (hlocal.history _ not_false) ⟨hused, hsame.trans h.used.2⟩ (by rw [hother])
    (by rw [hother]; exact h.places) fun heof => ?_
  have hdata := h.data heof
  have hbytes := h.bytes heof
  have htoken := htoken heof
  have hbound := h.available.2
  unfold valueOf bufferSize at *
  have hadd := toInt_add_one (v := (S.sems.sems P.readSem).value) (by omega) hbytes
  rw [hvalue, hadd]
  omega

/-- **A post to the write semaphore** gives a token back. -/
theorem Credits.postWrite {r : Int32} (hP : Slots P) (h : S.Credits P readTokens writeTokens st)
    (htoken : 1 ≤ writeTokens) (hpost : S.semPost P.writeSem = some (r, S')) :
    S'.Credits P readTokens (writeTokens - 1) st := by
  have hlocal : Local (fun _ => False) (· = (P.writeSem : ℤ)) S S' := semPost_local rfl hpost
  obtain ⟨hused, hvalue⟩ := semPost_value hP.2.2 h.used.2 hpost
  obtain ⟨hsame, hother⟩ := local_other hP.1 hlocal
  have hspace := h.space
  have hplaces := h.places
  have hpos := h.available.1
  have hadd : S'.valueOf P.writeSem = S.valueOf P.writeSem + 1 := by
    unfold valueOf bufferSize at *
    rw [hvalue]
    exact toInt_add_one (by omega) hplaces
  refine h.transfer (hlocal.history _ not_false) ⟨hsame.trans h.used.1, hused⟩ ?_ ?_ fun heof => ?_
  · rw [hadd]
    omega
  · rw [hadd]
    omega
  · rw [hother]
    exact ⟨rfl, h.bytes heof⟩

theorem takeOne_value {semId : ℕ} (pid : ℤ) (hused : (S.sems.sems semId).used = true) :
    ((S.takeOne pid semId).sems.sems semId).used = true ∧
      ((S.takeOne pid semId).sems.sems semId).value = (S.sems.sems semId).value - 1 := by
  unfold takeOne
  rw [note_sems, setSem_sems, SemTable.setSem_sems_self]
  exact ⟨hused, rfl⟩

/-- **A wait on the read semaphore** takes a token. -/
theorem Credits.waitRead (hP : Slots P) (h : S.Credits P 0 writeTokens st)
    (hvalue : (S.sems.sems P.readSem).value ≠ 0) :
    (S.takeOne pid P.readSem).Credits P 1 writeTokens st := by
  have hlocal : Local (fun _ => False) (· = (P.readSem : ℤ)) S (S.takeOne pid P.readSem) :=
    takeOne_local rfl
  obtain ⟨hused, hself⟩ := takeOne_value pid h.used.1
  obtain ⟨hsame, hother⟩ := local_other hP.1.symm hlocal
  refine h.transfer (hlocal.history _ not_false) ⟨hused, hsame.trans h.used.2⟩ (by rw [hother])
    (by rw [hother]; exact h.places) fun heof => ?_
  have hdata := h.data heof
  have hpos := toInt_pos hvalue (h.bytes heof)
  have hbound := h.available.2
  unfold valueOf bufferSize at *
  have hsub := toInt_sub_one (v := (S.sems.sems P.readSem).value) (by omega) hpos
  rw [hself, hsub]
  omega

/-- **A wait on the write semaphore** takes a token, and there is a free place. -/
theorem Credits.waitWrite (hP : Slots P) (h : S.Credits P readTokens 0 st)
    (hvalue : (S.sems.sems P.writeSem).value ≠ 0) :
    (S.takeOne pid P.writeSem).Credits P readTokens 1 st := by
  have hlocal : Local (fun _ => False) (· = (P.writeSem : ℤ)) S (S.takeOne pid P.writeSem) :=
    takeOne_local rfl
  obtain ⟨hused, hself⟩ := takeOne_value pid h.used.2
  obtain ⟨hsame, hother⟩ := local_other hP.1 hlocal
  have hspace := h.space
  have hpos := toInt_pos hvalue h.places
  have havailable := h.available.1
  have hsub : (S.takeOne pid P.writeSem).valueOf P.writeSem = S.valueOf P.writeSem - 1 := by
    unfold valueOf bufferSize at *
    rw [hself]
    exact toInt_sub_one (by omega) hpos
  refine h.transfer (hlocal.history _ not_false) ⟨hsame.trans h.used.1, hused⟩ ?_ ?_ fun heof => ?_
  · rw [hsub]
    omega
  · rw [hsub]
    unfold valueOf
    omega
  · rw [hother]
    exact ⟨rfl, h.bytes heof⟩

/-! ## Bytes -/

theorem storedBytes_note {id : ℕ} {o : Obs} (ho : o.on id = true) :
    (S.note o).storedBytes id = S.storedBytes id ++ o.storedByte.toList ∧
      (S.note o).tookBytes id = S.tookBytes id ++ o.tookByte.toList := by
  unfold storedBytes tookBytes
  rw [history_note_on ho, List.reverse_cons, List.filterMap_append, List.filterMap_append]
  constructor
  · cases hs : o.storedByte <;> simp [hs]
  · cases hs : o.tookByte <;> simp [hs]

/-- **A byte is read**: the token becomes a free place. -/
theorem Credits.advance (h : S.Credits P 1 0 st) (hdata : 0 < st.dataAvailable) :
    ((S.setStream P.id st.advance).note (.took P.id (st.buffer st.readPos))).Credits P 0 1
      st.advance := by
  obtain ⟨n, hn⟩ : ∃ n, st.dataAvailable.toNat = n + 1 := ⟨st.dataAvailable.toNat - 1, by omega⟩
  have hless : (st.dataAvailable - 1).toNat = n := by omega
  obtain ⟨hread, hwrite⟩ := h.ring
  have hspace := h.space
  have hbound := h.available.2
  refine ⟨h.sems, h.used, ⟨Nat.mod_lt _ (by unfold bufferSize; omega), ?_⟩, ⟨?_, ?_⟩, ?_, h.places,
    fun heof => ?_, h.bytes, h.ended, h.writers, ?_⟩
  · change st.writePos = ((st.readPos + 1) % bufferSize + (st.dataAvailable - 1).toNat) % bufferSize
    rw [hwrite, hn, hless, RingBuffer.next_read]
  · change 0 ≤ st.dataAvailable - 1
    omega
  · change st.dataAvailable - 1 ≤ bufferSize
    omega
  · change S.valueOf P.writeSem + 1 + (st.dataAvailable - 1) = bufferSize
    omega
  · have heq := h.data heof
    change S.valueOf P.readSem + 0 = st.dataAvailable - 1
    omega
  · have hfifo := h.fifo
    unfold Stream.unread at hfifo
    rw [hn, RingBuffer.contents_read hread] at hfifo
    obtain ⟨hstored, htook⟩ := storedBytes_note (S := S.setStream P.id st.advance)
      (o := .took P.id (st.buffer st.readPos)) (decide_eq_true (Eq.refl P.id))
    rw [hstored, htook]
    change S.storedBytes P.id ++ [] = (S.tookBytes P.id ++ [st.buffer st.readPos]) ++
      RingBuffer.contents st.buffer bufferSize ((st.readPos + 1) % bufferSize)
        (st.dataAvailable - 1).toNat
    rw [hfifo, hless, List.append_nil, List.append_assoc, List.singleton_append]

/-- **A byte is stored**: the place becomes a token for the readers. No byte that is
still to be read is overwritten. -/
theorem Credits.put (h : S.Credits P 0 1 st) (byte : UInt8) :
    ((S.setStream P.id (st.put byte)).note (.stored P.id byte)).Credits P 1 0 (st.put byte) := by
  obtain ⟨hread, hwrite⟩ := h.ring
  have hspace := h.space
  have hplaces := h.places
  have hbound := h.available.1
  have hmore : (st.dataAvailable + 1).toNat = st.dataAvailable.toNat + 1 := by omega
  refine ⟨h.sems, h.used, ⟨hread, ?_⟩, ⟨?_, ?_⟩, ?_, h.places, fun heof => ?_, h.bytes, h.ended,
    h.writers, ?_⟩
  · change (st.writePos + 1) % bufferSize = (st.readPos + (st.dataAvailable + 1).toNat) % bufferSize
    rw [hwrite, hmore, RingBuffer.next_store]
  · change 0 ≤ st.dataAvailable + 1
    omega
  · change st.dataAvailable + 1 ≤ bufferSize
    omega
  · change S.valueOf P.writeSem + 0 + (st.dataAvailable + 1) = bufferSize
    omega
  · have heq := h.data heof
    change S.valueOf P.readSem + 1 = st.dataAvailable + 1
    omega
  · have hfifo := h.fifo
    unfold Stream.unread at hfifo
    have hfree : st.dataAvailable.toNat < bufferSize := by omega
    obtain ⟨hstored, htook⟩ := storedBytes_note (S := S.setStream P.id (st.put byte))
      (o := .stored P.id byte) (decide_eq_true (Eq.refl P.id))
    rw [hstored, htook]
    change S.storedBytes P.id ++ [byte] = (S.tookBytes P.id ++ []) ++ RingBuffer.contents
      (Function.update st.buffer st.writePos byte) bufferSize st.readPos
        (st.dataAvailable + 1).toNat
    rw [hfifo, hmore, hwrite, RingBuffer.contents_store _ hfree, List.append_nil, List.append_assoc]

/-! ## The functions on the pipe -/

theorem setStream_self {id : ℕ} (h : (S.setStream id st).streams id = some st') : st = st' := by
  rw [setStream_streams, Function.update_self] at h
  exact Option.some.inj h

/-- What a function leaves of the pipe, if its stream is still there. -/
def Lawful (P : Pipe) (S : Machine) : Prop :=
  ∀ st, S.streams P.id = some st → S.Credits P 0 0 st

/-- A reader that takes a byte finds one. -/
theorem Credits.someData {fd : ℤ} (h : S.Credits P 1 0 st)
    (hgo : (!st.eof) = true ∨ fd ≠ stdin ∧ (st.writers ≠ 0 ∨ st.dataAvailable > 0)) :
    0 < st.dataAvailable := by
  cases heof : st.eof with
  | false =>
      have hdata := h.data heof
      have hbytes := h.bytes heof
      omega
  | true =>
      simp only [heof, Bool.not_true, Bool.false_eq_true, false_or] at hgo
      exact hgo.2.resolve_left fun hne => hne (h.ended heof)

/-- `readFromFD` behind `semWait`. -/
theorem takeByte_lawful {r : Reader} (hP : Slots P) (hr : r.stream = P.id)
    (hst : S.streams P.id = some st) (h : S.Credits P 1 0 st)
    (htake : S.takeByte pid r = some S') : Lawful P S' := by
  obtain ⟨stream, n, m, k⟩ := r
  obtain rfl : n = P.id := hr
  obtain ⟨st₁, hst₁, hcases⟩ := takeByte_cases htake
  obtain rfl : st = st₁ := Option.some.inj (hst.symm.trans hst₁)
  rcases hcases with ⟨hgo, r₁, S₁, hpost, rfl⟩ | ⟨⟨heof, -⟩, rfl⟩
  · have hdata := h.someData hgo
    have hmoved := h.advance hdata
    rw [h.sems.2] at hpost
    have hposted := hmoved.postWrite hP (le_refl 1) hpost
    have hstream : S₁.streams P.id = some st.advance := by
      rw [(semPost_files hpost).2.1]
      exact Function.update_self _ _ _
    intro st' hst'
    have hst₁ : S₁.streams P.id = some st' := by
      split at hst'
      · exact hst'
      · exact hst'
    obtain rfl : st.advance = st' := Option.some.inj (hstream.symm.trans hst₁)
    split
    · exact (hposted.setFrame _).returned
    · exact hposted.setFrame _
  · intro st' hst'
    have hsame : ({ st with eof := true } : Stream) = st := by
      obtain ⟨_, _, _, _, eof, _, _, _, _⟩ := st
      obtain rfl : eof = true := heof
      rfl
    have hstream : (S.setStream P.id { st with eof := true }).streams P.id = some st := by
      rw [hsame]
      exact Function.update_self _ _ _
    obtain rfl : st = st' := Option.some.inj (hstream.symm.trans hst')
    exact (((h.ofEof heof).setStream _ _).setFrame _).returned

/-- `writeToFD` behind `semWait`. -/
theorem storeByte_lawful {w : Writer} (hP : Slots P) (hw : w.stream = P.id)
    (hst : S.streams P.id = some st) (h : S.Credits P 0 1 st)
    (hstore : S.storeByte pid w = some S') : Lawful P S' := by
  obtain ⟨n, buf, written⟩ := w
  obtain rfl : n = P.id := hw
  obtain ⟨st₁, byte, r₁, S₁, hst₁, -, hpost, rfl⟩ := storeByte_cases hstore
  obtain rfl : st = st₁ := Option.some.inj (hst.symm.trans hst₁)
  have hput := h.put byte
  rw [h.sems.1] at hpost
  have hposted := hput.postRead hP (fun _ => le_refl 1) hpost
  have hstream : S₁.streams P.id = some (st.put byte) := by
    rw [(semPost_files hpost).2.1]
    exact Function.update_self _ _ _
  intro st' hst'
  obtain rfl : st.put byte = st' := Option.some.inj (hstream.symm.trans hst')
  exact hposted.setFrame _

/-- What concerns other streams and other semaphores leaves the pipe alone. -/
theorem Lawful.local (h : Lawful P S) (hlocal : Local (· ≠ P.id) P.Other S S') : Lawful P S' := by
  intro st hst
  rw [hlocal.streams P.id (not_not.mpr rfl)] at hst
  have hcredits := h st hst
  obtain ⟨hused, hvalue⟩ := hlocal.sems P.readSem fun hother => hother.1 rfl
  obtain ⟨hused', hvalue'⟩ := hlocal.sems P.writeSem fun hother => hother.2 rfl
  have hread : S'.valueOf P.readSem = S.valueOf P.readSem := by unfold valueOf; rw [hvalue]
  have hwrite : S'.valueOf P.writeSem = S.valueOf P.writeSem := by unfold valueOf; rw [hvalue']
  refine hcredits.transfer (hlocal.history P.id (not_not.mpr rfl))
    ⟨hused.trans hcredits.used.1, hused'.trans hcredits.used.2⟩ (by rw [hwrite]) ?_ fun heof => ?_
  · rw [hwrite]
    exact hcredits.places
  · rw [hread]
    exact ⟨rfl, hcredits.bytes heof⟩

/-- The loop of `semWait`, and what follows if it took a token. -/
def Resumes (S : Machine) (pid : ℤ) (semId : ℕ) (k : AfterWait) (S' : Machine) : Prop :=
  ∃ taken S₁, S.semWaitLoop pid semId k = some (taken, S₁) ∧
    (taken = false ∧ S' = S₁ ∨ taken = true ∧ S₁.afterWait pid k = some S')

theorem waitThen_resumes {semId : ℕ} {k : AfterWait} (hlt : semId < maxSems)
    (hused : (S.sems.sems semId).used = true) (h : S.waitThen pid semId k = some S') :
    S.Resumes pid semId k S' := by
  have hwait : ∀ {returned : Bool} {M : Machine}, S.semWait pid semId k = some (returned, M) →
      S.semWaitLoop pid semId k = some (returned, M) := by
    intro returned M hM
    unfold semWait at hM
    rw [if_neg (by omega : ¬(semId : ℤ) < 0), if_neg (by omega : ¬(semId : ℤ) ≥ maxSems),
      Int.toNat_natCast, if_neg (by simp [hused])] at hM
    exact hM
  rcases waitThen_cases h with ⟨S₁, hM, hafter⟩ | hM
  · exact ⟨true, S₁, hwait hM, .inr ⟨rfl, hafter⟩⟩
  · exact ⟨false, S', hwait hM, .inl ⟨rfl, rfl⟩⟩

theorem take_lawful {r : Reader} (hP : Slots P) (hr : r.stream = P.id) (h : Lawful P S)
    (htake : S.Resumes pid P.readSem (.take r) S') : Lawful P S' := by
  obtain ⟨taken, S₁, hloop, hnext⟩ := htake
  rcases semWaitLoop_cases hloop with ⟨rfl, -, -, rfl⟩ | ⟨rfl, hvalue, rfl⟩
  · obtain rfl := (hnext.resolve_right fun htrue => absurd htrue.1 (by simp)).2
    exact h.local (fallAsleep_local S pid P.readSem (.take r))
  · have hafter := (hnext.resolve_left fun hfalse => absurd hfalse.1 (by simp)).2
    obtain ⟨st, hst, -⟩ := takeByte_cases hafter
    rw [hr] at hst
    exact takeByte_lawful hP hr hst ((h st hst).waitRead hP hvalue) hafter

theorem store_lawful {w : Writer} (hP : Slots P) (hw : w.stream = P.id) (h : Lawful P S)
    (hstore : S.Resumes pid P.writeSem (.store w) S') : Lawful P S' := by
  obtain ⟨taken, S₁, hloop, hnext⟩ := hstore
  rcases semWaitLoop_cases hloop with ⟨rfl, -, -, rfl⟩ | ⟨rfl, hvalue, rfl⟩
  · obtain rfl := (hnext.resolve_right fun htrue => absurd htrue.1 (by simp)).2
    exact h.local (fallAsleep_local S pid P.writeSem (.store w))
  · have hafter := (hnext.resolve_left fun hfalse => absurd hfalse.1 (by simp)).2
    obtain ⟨st, byte, r₁, M, hst, -⟩ := storeByte_cases hafter
    rw [hw] at hst
    exact storeByte_lawful hP hw hst ((h st hst).waitWrite hP hvalue) hafter

/-- A process inside `semWait` goes on. -/
theorem resumes_lawful {semId : ℕ} {k : AfterWait} (hP : Slots P)
    (hadmits : P.Admits (.semWait semId k)) (h : Lawful P S)
    (hA : Serves (· ≠ P.id) P.Other S) (hnext : S.Resumes pid semId k S') : Lawful P S' := by
  have hother : P.Other semId → (∀ i, k.stream = some i → i ≠ P.id) → Lawful P S' := by
    intro hsem hj
    obtain ⟨taken, S₁, hloop, hnext⟩ := hnext
    have hfirst : Local (· ≠ P.id) P.Other S S₁ := semWaitLoop_local hsem hloop
    rcases hnext with ⟨-, rfl⟩ | ⟨-, hafter⟩
    · exact h.local hfirst
    · exact h.local (hfirst.trans (afterWait_local hj (hfirst.serves hA) hafter))
  cases k with
  | done => exact hother hadmits fun _ hi => absurd hi (by simp [AfterWait.stream])
  | take r =>
      rcases hadmits with ⟨hr, hsem, -⟩ | ⟨hr, hsem⟩
      · obtain rfl : semId = P.readSem := hsem
        exact take_lawful hP hr h hnext
      · exact hother hsem fun i hi => Option.some.inj hi ▸ hr
  | store w =>
      rcases hadmits with ⟨hw, hsem⟩ | ⟨hw, hsem⟩
      · obtain rfl : semId = P.writeSem := hsem
        exact store_lawful hP hw h hnext
      · exact hother hsem fun i hi => Option.some.inj hi ▸ hw
  | readAt stream pos => exact hother hadmits.2 fun i hi => Option.some.inj hi ▸ hadmits.1

/-- A round of `readFromFD`. -/
theorem readRound_lawful {r : Reader} (hP : Slots P) (h : Lawful P S)
    (hA : Serves (· ≠ P.id) P.Other S) (hread : S.readRound pid r = some S') : Lawful P S' := by
  by_cases hr : r.stream = P.id
  · rcases readRound_cases hread with ⟨-, rfl⟩ | ⟨-, st, S₁, hst, htoken, hwait⟩
    · intro st hst
      exact ((h st hst).setFrame _).returned
    · rw [hr] at hst
      have hcredits := h st hst
      rw [hcredits.sems.1] at htoken hwait
      have hlawful : S₁.streams P.id = some st ∧ S₁.Credits P 0 0 st := by
        rcases htoken with ⟨-, rfl⟩ | ⟨heof, r₁, hpost⟩
        · exact ⟨hst, hcredits⟩
        · -- at the end of the stream the token of the reader counts for nothing
          have hposted := hcredits.postRead hP (fun hnot => absurd (hnot.symm.trans heof) (by simp))
            hpost
          refine ⟨?_, hposted.ofEof heof⟩
          rw [(semPost_files hpost).2.1]
          exact hst
      have hall : Lawful P S₁ := by
        intro st' hst'
        obtain rfl : st = st' := Option.some.inj (hlawful.1.symm.trans hst')
        exact hlawful.2
      exact take_lawful hP hr hall (waitThen_resumes hP.2.1 hlawful.2.used.1 hwait)
  · exact h.local (readRound_local hr hA hread)

/-- A round of `writeToFD`. -/
theorem writeRound_lawful {w : Writer} (hP : Slots P) (h : Lawful P S)
    (hA : Serves (· ≠ P.id) P.Other S) (hwrite : S.writeRound pid w = some S') : Lawful P S' := by
  by_cases hw : w.stream = P.id
  · rcases writeRound_cases hwrite with ⟨-, rfl⟩ | ⟨-, st, hst, hwait⟩
    · intro st hst
      exact (h st hst).setFrame _
    · rw [hw] at hst
      have hcredits := h st hst
      rw [hcredits.sems.2] at hwait
      exact store_lawful hP hw h (waitThen_resumes hP.2.2 hcredits.used.2 hwait)
  · exact h.local (writeRound_local hw hA hwrite)

/-- The start of `writeToFD` forgets the end of the stream. -/
theorem writeToFD_lawful (h : Lawful P S)
    (hok : ∀ st, S.resource fd = some P.id → S.streams P.id = some st → st.eof = true →
      S.valueOf P.readSem = st.dataAvailable)
    (hwrite : S.writeToFD pid fd buf = some S') : Lawful P S' := by
  rcases writeToFD_cases hwrite with ⟨-, rfl⟩ | ⟨stream, st, hstream, hst, rfl⟩
  · exact h
  · by_cases hid : stream = P.id
    · subst hid
      have hcredits := h st hst
      have hdata : S.valueOf P.readSem = st.dataAvailable := by
        cases heof : st.eof with
        | false => simpa using hcredits.data heof
        | true => exact hok st hstream hst heof
      intro st' hst'
      obtain rfl : ({ st with eof := false } : Stream) = st' := setStream_self hst'
      have hopen : S.Credits P 0 0 { st with eof := false } :=
        ⟨hcredits.sems, hcredits.used, hcredits.ring, hcredits.available, hcredits.space,
          hcredits.places, fun _ => by rw [hdata, add_zero], fun _ => hdata ▸ hcredits.available.1,
          fun hnot => absurd hnot (by simp), hcredits.writers, hcredits.fifo⟩
      exact (hopen.setStream _ _).setFrame _
    · have hset : Local (· ≠ P.id) P.Other S (S.setStream stream { st with eof := false }) :=
        .setStream hid hst ⟨rfl, rfl⟩
      exact h.local (hset.trans .setFrame)

/-- `readFromFDAt` leaves the pipe alone when there is nothing to read. -/
theorem readFromFDAt_lawful (h : Lawful P S) (hA : Serves (· ≠ P.id) P.Other S)
    (hok : ∀ st, (S.fileDescriptors fd).isOpen → (S.fileDescriptors fd).mode ≠ .W →
      (S.fileDescriptors fd).resource = some P.id → S.streams P.id = some st →
        st.dataAvailable ≤ 0)
    (hread : S.readFromFDAt pid fd = some S') : Lawful P S' := by
  rcases readFromFDAt_cases hread with rfl | ⟨⟨-, hopen, hmode⟩, stream, st, hstream, hst, hcases⟩
  · exact h
  · by_cases hid : stream = P.id
    · subst hid
      have hempty := hok st hopen hmode hstream hst
      rcases hcases with ⟨⟨hdata, -⟩, -⟩ | ⟨-, hfinish⟩
      · exact absurd hdata (not_lt.mpr hempty)
      · obtain ⟨st₁, hst₁, rfl⟩ := finishReadAt_cases hfinish
        obtain rfl : st = st₁ := Option.some.inj (hst.symm.trans hst₁)
        rw [if_neg fun hboth => absurd hboth.2 (not_lt.mpr hempty)]
        intro st' hst'
        obtain rfl : st = st' := setStream_self hst'
        exact ((h st hst).setStream _ _).setFrame _
    · rcases hcases with ⟨-, hwait⟩ | ⟨-, hfinish⟩
      · refine h.local (waitThen_local (hA _ st hid hst).1 (fun i hi => ?_) hA hwait)
        exact Option.some.inj hi ▸ hid
      · exact h.local (finishReadAt_local hid hfinish)

/-! ## Closing -/

/-- An open write end of the pipe. -/
def WriteEnd (P : Pipe) (S : Machine) (fd : ℤ) : Prop :=
  S.Closable fd ∧ (S.fileDescriptors fd).resource = some P.id ∧ (S.fileDescriptors fd).mode = .W

theorem postTimes_credits {n : ℕ} {semId : ℤ} (hP : Slots P) (h : S.Credits P 0 0 st)
    (heof : st.eof = true) (hsem : semId = P.readSem) (hposts : postTimes n S semId = some S') :
    S'.Credits P 0 0 st := by
  subst hsem
  induction n generalizing S with
  | zero => exact Option.some.inj hposts ▸ h
  | succ n ih =>
      simp only [postTimes, Option.bind_eq_bind, Option.bind_eq_some_iff, Prod.exists] at hposts
      obtain ⟨r, S₁, hpost, hrest⟩ := hposts
      have hposted := h.postRead hP (fun hnot => absurd (hnot.symm.trans heof) (by simp)) hpost
      exact ih (hposted.ofEof heof) hrest

/-- The counts of the ends change, and the end of the stream comes with the last
writer. -/
theorem Credits.ends (h : S.Credits P 0 0 st) {st' : Stream}
    (hsame : st'.buffer = st.buffer ∧ st'.readPos = st.readPos ∧ st'.writePos = st.writePos ∧
      st'.dataAvailable = st.dataAvailable ∧ st'.readSem = st.readSem ∧ st'.writeSem = st.writeSem)
    (heof : st'.eof = false → st.eof = false) (hended : st'.eof = true → st'.writers = 0)
    (hwriters : 0 ≤ st'.writers) : S.Credits P 0 0 st' := by
  obtain ⟨buffer, readPos, writePos, dataAvailable, eof, readers, writers, readSem, writeSem⟩ := st'
  obtain ⟨rfl, rfl, rfl, rfl, rfl, rfl⟩ := hsame
  exact ⟨h.sems, h.used, h.ring, h.available, h.space, h.places, fun hnot => h.data (heof hnot),
    fun hnot => h.bytes (heof hnot), hended, hwriters, h.fifo⟩

/-- **Closing an end** keeps the law, as long as no write end is closed twice. -/
theorem closeFD_lawful {r : Int32} (hP : Slots P) (h : Lawful P S)
    (hA : Serves (· ≠ P.id) P.Other S) (hinput : (S.fileDescriptors stdin).resource ≠ some P.id)
    (hok : S.WriteEnd P fd → ∀ st, S.streams P.id = some st → 0 < st.writers)
    (hclose : S.closeFD fd = some (r, S')) : Lawful P S' := by
  by_cases hid : S.Closable fd ∧ (S.fileDescriptors fd).resource = some P.id
  · obtain ⟨hgood, hid⟩ := hid
    rcases closeFD_cases hclose with ⟨hbad, -, -⟩ | ⟨-, -, id, st, hres, hst, hcases⟩
    · exact absurd hgood hbad
    · obtain rfl : P.id = id := Option.some.inj (hid.symm.trans hres)
      have hend := (hcases.resolve_left fun hin => hinput (hin.1 ▸ hid)).2
      obtain ⟨-, S₁, S₂, hsignal, hfree, rfl⟩ := closeEnd_cases hend
      have hcredits := h st hst
      -- the end that is dropped leaves a count that is not negative
      have hdrop : 0 ≤ (st.dropEnd (S.fileDescriptors fd).mode).writers ∧
          ((st.dropEnd (S.fileDescriptors fd).mode).eof = true →
            (st.dropEnd (S.fileDescriptors fd).mode).writers = 0) ∧
          (st.dropEnd (S.fileDescriptors fd).mode).eof = st.eof := by
        cases hmode : (S.fileDescriptors fd).mode with
        | R => exact ⟨hcredits.writers, hcredits.ended, rfl⟩
        | RW => exact ⟨hcredits.writers, hcredits.ended, rfl⟩
        | W =>
            have hpos := hok ⟨hgood, hid, hmode⟩ st hst
            refine ⟨Int.sub_nonneg_of_le hpos, fun heof => ?_, rfl⟩
            exact absurd (hcredits.ended heof) (by omega)
      have hsame : ∀ mode, (st.dropEnd mode).buffer = st.buffer ∧
          (st.dropEnd mode).readPos = st.readPos ∧ (st.dropEnd mode).writePos = st.writePos ∧
          (st.dropEnd mode).dataAvailable = st.dataAvailable ∧
          (st.dropEnd mode).readSem = st.readSem ∧ (st.dropEnd mode).writeSem = st.writeSem := by
        rintro (_ | _ | _) <;> exact ⟨rfl, rfl, rfl, rfl, rfl, rfl⟩
      have hsame := hsame (S.fileDescriptors fd).mode
      generalize st.dropEnd (S.fileDescriptors fd).mode = st' at *
      obtain ⟨hwriters, hended, heof⟩ := hdrop
      have hsignalled : Lawful P S₁ := by
        rcases signalEof_cases hsignal with ⟨⟨-, hnone⟩, hposts⟩ | ⟨-, rfl⟩
        · have hcalled : S.Credits P 0 0 { st' with eof := true } :=
            hcredits.ends hsame (fun hnot => absurd hnot (by simp))
              (fun _ => le_antisymm hnone hwriters)
              hwriters
          have hposted := postTimes_credits hP (hcalled.setStream P.id _) rfl hcalled.sems.1 hposts
          intro st₁ hst₁
          rw [(postTimes_files hposts).2.1] at hst₁
          obtain rfl := setStream_self hst₁
          exact hposted
        · intro st₁ hst₁
          obtain rfl : st' = st₁ := setStream_self hst₁
          exact (hcredits.ends hsame (fun hnot => heof ▸ hnot) hended hwriters).setStream _ _
      rcases freeStream_cases hfree with ⟨-, _, M, _, M', -, -, rfl⟩ | ⟨-, rfl⟩
      · intro st₁ hst₁
        exact absurd ((Function.update_self _ _ _).symm.trans hst₁) (by simp)
      · intro st₁ hst₁
        exact (hsignalled st₁ hst₁).same rfl rfl
  · refine h.local (closeFD_local (fun i hgood hi => ?_) hA hclose)
    rintro rfl
    exact hid ⟨hgood, hi⟩

/-! ## Steps -/

/-- The descriptors that an event closes. -/
def Closes (S : Machine) : Event → ℤ → Prop
  | .call (.close fd'), fd => fd = fd'
  | .call (.kill p), fd => ((initPid < p ∧ p ≤ maxPid) ∧ (S.sched.processes p).state ≠ EXITED) ∧
      (fd = (S.sched.processes p).fds.1 ∨ fd = (S.sched.processes p).fds.2)
  | .resume, fd => ∃ c, S.sched.currentProcess = some c ∧
      (S.frames c = .exiting .closeIn ∧ fd = (S.sched.processes c).fds.1 ∨
        S.frames c = .exiting .closeOut ∧ fd = (S.sched.processes c).fds.2)
  | _, _ => False

/-- The semaphores of the pipe are used by nobody else. -/
def leavesSems (P : Pipe) : Event → Prop
  | .call (.semWait semId) | .call (.semPost semId) | .call (.semSetValue semId _)
  | .call (.semDestroy semId) => P.Other semId
  | _ => True

/-- A write end is closed while the stream still has a writer. -/
def closesOnce (P : Pipe) (S : Machine) (e : Event) : Prop :=
  (∀ fd st, S.Closes e fd → S.WriteEnd P fd → S.streams P.id = some st → 0 < st.writers) ∧
    ∀ fd fd', S.Closes e fd → S.Closes e fd' → S.WriteEnd P fd → S.WriteEnd P fd' → fd = fd'

/-- `readFromFDAt` finds nothing to read, a write does not forget the end of the
stream while the tokens of the readers differ from the bytes, and no write end is
closed twice. -/
def keepsCredits (P : Pipe) (S : Machine) (e : Event) : Prop :=
  S.closesOnce P e ∧
    match e with
    | .call (.readAt fd) => ∀ st, (S.fileDescriptors fd).isOpen → (S.fileDescriptors fd).mode ≠ .W →
        (S.fileDescriptors fd).resource = some P.id → S.streams P.id = some st →
          st.dataAvailable ≤ 0
    | .call (.write fd _) => ∀ st, S.resource fd = some P.id → S.streams P.id = some st →
        st.eof = true → S.valueOf P.readSem = st.dataAvailable
    | _ => True

/-- As long as the pipe exists its semaphores are its own, and its functions keep the
law. -/
def conserves (P : Pipe) (S : Machine) (e : Event) : Prop :=
  (S.streams P.id).isSome → leavesSems P e ∧ S.keepsCredits P e

/-- The law, and nobody else near the semaphores. -/
structure Intact (P : Pipe) (S : Machine) : Prop where
  slots : Slots P
  made : P.id < S.nextStream
  input : (S.fileDescriptors stdin).resource ≠ some P.id
  lawful : Lawful P S
  others : (S.streams P.id).isSome → ∀ i st, i ≠ P.id → S.streams i = some st → P.Apart st
  frames : (S.streams P.id).isSome → ∀ q, P.Admits (S.frames q)

theorem Intact.serves (h : Intact P S) (hsome : (S.streams P.id).isSome) :
    Serves (· ≠ P.id) P.Other S :=
  fun i st hi hst => h.others hsome i st hi hst

/-- Closing a descriptor opens no other one. -/
theorem closeFD_closable {r : Int32} {fd' : ℤ} (h : S.closeFD fd = some (r, S'))
    (hend : S'.Closable fd') : (S.Closable fd' ∧ S'.fileDescriptors fd' = S.fileDescriptors fd') ∧
      (fd = fd' → fd ≠ stdin → ¬S.Closable fd) := by
  obtain ⟨hrange, hstd, hopen⟩ := hend
  rcases closeFD_fds h with ⟨hno, heq⟩ | ⟨-, heq⟩
  · rw [heq] at hopen ⊢
    exact ⟨⟨⟨hrange, hstd, hopen⟩, rfl⟩, fun _ hin hclosable => hno ⟨hclosable, hin⟩⟩
  · have hne : fd' ≠ fd := by
      rintro rfl
      rw [heq, setOpen_fileDescriptors, Function.update_self] at hopen
      exact absurd hopen (by simp)
    have hsame : S'.fileDescriptors fd' = S.fileDescriptors fd' := by
      rw [heq, setOpen_fileDescriptors, Function.update_of_ne hne]
    rw [hsame] at hopen
    exact ⟨⟨⟨hrange, hstd, hopen⟩, hsame⟩, fun hfd => absurd hfd.symm hne⟩

theorem closeFD_writeEnd {r : Int32} {fd' : ℤ} (h : S.closeFD fd = some (r, S'))
    (hend : S'.WriteEnd P fd') : S.WriteEnd P fd' ∧ (fd = fd' → fd ≠ stdin → ¬S.WriteEnd P fd) := by
  obtain ⟨hgood, hres, hmode⟩ := hend
  obtain ⟨⟨hclosable, hsame⟩, hclosed⟩ := closeFD_closable h hgood
  rw [hsame] at hres hmode
  exact ⟨⟨hclosable, hres, hmode⟩, fun hfd hin hend => hclosed hfd hin hend.1⟩

/-- Closing something else leaves the writers alone. -/
theorem closeFD_writers {r : Int32} (hno : ¬S.WriteEnd P fd) (h : S.closeFD fd = some (r, S'))
    (hst : S'.streams P.id = some st') :
    ∃ st, S.streams P.id = some st ∧ st'.writers = st.writers := by
  by_cases hid : S.Closable fd ∧ (S.fileDescriptors fd).resource = some P.id
  · obtain ⟨hgood, hid⟩ := hid
    have hmode : ∀ st : Stream, (st.dropEnd (S.fileDescriptors fd).mode).writers = st.writers := by
      intro st
      cases hmode : (S.fileDescriptors fd).mode with
      | R => rfl
      | RW => rfl
      | W => exact absurd ⟨hgood, hid, hmode⟩ hno
    rcases closeFD_cases h with ⟨-, -, rfl⟩ | ⟨-, -, id, st, hres, hst₀, ⟨-, rfl⟩ | ⟨-, hend⟩⟩
    · exact ⟨st', hst, rfl⟩
    · obtain rfl : P.id = id := Option.some.inj (hid.symm.trans hres)
      obtain rfl := setStream_self hst
      exact ⟨st, hst₀, rfl⟩
    · obtain rfl : P.id = id := Option.some.inj (hid.symm.trans hres)
      obtain ⟨-, S₁, S₂, hsignal, hfree, rfl⟩ := closeEnd_cases hend
      refine ⟨st, hst₀, ?_⟩
      rw [← hmode st]
      generalize st.dropEnd (S.fileDescriptors fd).mode = dropped at *
      have hkept : S₁.streams P.id = some st' := by
        rcases freeStream_cases hfree with ⟨-, _, M, _, M', -, -, rfl⟩ | ⟨-, rfl⟩
        · change Function.update M'.streams P.id none P.id = some st' at hst
          rw [Function.update_self] at hst
          exact absurd hst (by simp)
        · exact hst
      rcases signalEof_cases hsignal with ⟨-, hposts⟩ | ⟨-, rfl⟩
      · rw [(postTimes_files hposts).2.1] at hkept
        obtain rfl := setStream_self hkept
        rfl
      · obtain rfl := setStream_self hkept
        rfl
  · have hlocal : Local (· ≠ P.id) (fun _ => True) S S' := by
      refine closeFD_local (fun i hgood hi => ?_) (fun _ _ _ _ => ⟨trivial, trivial⟩) h
      rintro rfl
      exact hid ⟨hgood, hi⟩
    rw [hlocal.streams P.id (not_not.mpr rfl)] at hst
    exact ⟨st', hst, rfl⟩

theorem Aside.lawful (h : Lawful P S) (haside : Aside S S') : Lawful P S' := by
  intro st hst
  rw [haside.files.2.1] at hst
  have hcredits := h st hst
  obtain ⟨hused, hvalue⟩ := haside.sems P.readSem hcredits.used.1
  obtain ⟨hused', hvalue'⟩ := haside.sems P.writeSem hcredits.used.2
  have hread : S'.valueOf P.readSem = S.valueOf P.readSem := by unfold valueOf; rw [hvalue]
  have hwrite : S'.valueOf P.writeSem = S.valueOf P.writeSem := by unfold valueOf; rw [hvalue']
  refine hcredits.transfer (haside.history P.id) ⟨hused, hused'⟩ (by rw [hwrite]) ?_ fun heof => ?_
  · rw [hwrite]
    exact hcredits.places
  · rw [hread]
    exact ⟨rfl, hcredits.bytes heof⟩

/-- A new semaphore is none that is in use. -/
theorem semCreate_other {i : ℕ} {name : CString} {value : Int32} {semId : ℤ}
    (hused : (S.sems.sems i).used = true) (hcreate : S.semCreate pid name value = (semId, S')) :
    semId ≠ i ∧ Aside S S' := by
  rcases semCreate_free hcreate with ⟨rfl, rfl⟩ | ⟨j, rfl, -, hfree, -, -, haside⟩
  · exact ⟨by omega, .refl _⟩
  · refine ⟨?_, haside⟩
    rintro heq
    obtain rfl : j = i := by exact_mod_cast heq
    exact absurd (hfree.symm.trans hused) (by simp)

/-- A new pipe takes no semaphore that is in use. -/
theorem createPipe_other {i : ℕ} {fresh : ℕ → UInt8} {r : Int32}
    (hused : (S.sems.sems i).used = true) (hpipe : S.createPipe pid fresh = some (r, S')) :
    ((S'.sems.sems i).used = true ∧ (S'.sems.sems i).value = (S.sems.sems i).value) ∧
      ∀ j st, S'.streams j = some st → S.streams j = some st ∨ st.readSem ≠ i ∧
        st.writeSem ≠ i := by
  rcases createPipe_cases hpipe with ⟨-, rfl | ⟨fd, -, rfl⟩⟩ |
    ⟨-, fd1, fd2, readSem, writeSem, S₁, S₂, -, hread, hwrite, rfl⟩
  · exact ⟨⟨hused, rfl⟩, fun j st hst => .inl hst⟩
  · exact ⟨⟨hused, rfl⟩, fun j st hst => .inl hst⟩
  · obtain ⟨hfirst, haside₁⟩ := semCreate_other (S := S.reserve fd1 fd2) hused hread
    obtain ⟨hused₁, hvalue₁⟩ := haside₁.sems i hused
    obtain ⟨hsecond, haside₂⟩ := semCreate_other hused₁ hwrite
    obtain ⟨hused₂, hvalue₂⟩ := haside₂.sems i hused₁
    refine ⟨⟨hused₂, hvalue₂.trans hvalue₁⟩, fun j st hst => ?_⟩
    change Function.update S₂.streams S.nextStream _ j = some st at hst
    by_cases hj : j = S.nextStream
    · subst hj
      rw [Function.update_self] at hst
      obtain rfl := Option.some.inj hst
      exact .inr ⟨hfirst, hsecond⟩
    · have hstreams : S₂.streams = S.streams :=
        haside₂.files.2.1.trans haside₁.files.2.1
      rw [Function.update_of_ne hj, hstreams] at hst
      exact .inl hst

/-- The stream of the pipe is not the one of a new pipe. -/
theorem createPipe_stream {fresh : ℕ → UInt8} {r : Int32} (hmade : P.id < S.nextStream)
    (hpipe : S.createPipe pid fresh = some (r, S')) : S'.streams P.id = S.streams P.id := by
  rcases createPipe_cases hpipe with ⟨-, rfl | ⟨fd, -, rfl⟩⟩ |
    ⟨-, fd1, fd2, readSem, writeSem, S₁, S₂, -, hread, hwrite, rfl⟩
  · rfl
  · rfl
  · change Function.update S₂.streams S.nextStream _ P.id = _
    have hstreams : S₂.streams = S.streams :=
      ((semCreate_files hread).trans (semCreate_files hwrite)).2.1
    rw [Function.update_of_ne hmade.ne, hstreams]

/-- A new pipe is another one. -/
theorem createPipe_lawful {fresh : ℕ → UInt8} {r : Int32} (h : Lawful P S)
    (hmade : P.id < S.nextStream) (hsome : (S.streams P.id).isSome)
    (hpipe : S.createPipe pid fresh = some (r, S')) :
    Lawful P S' ∧ ∀ i st, S'.streams i = some st → S.streams i = some st ∨ P.Apart st := by
  obtain ⟨st₀, hst₀⟩ := Option.isSome_iff_exists.mp hsome
  obtain ⟨hread, hwrite⟩ := (h st₀ hst₀).used
  obtain ⟨⟨hread', hvalue⟩, hstreams⟩ := createPipe_other hread hpipe
  obtain ⟨⟨hwrite', hvalue'⟩, hstreams'⟩ := createPipe_other hwrite hpipe
  constructor
  · intro st hst
    rw [createPipe_stream hmade hpipe] at hst
    have hcredits := h st hst
    refine hcredits.transfer (createPipe_history hpipe _) ⟨hread', hwrite'⟩ ?_ ?_ fun heof => ?_
    · unfold valueOf
      rw [hvalue']
    · unfold valueOf
      rw [hvalue']
      exact hcredits.places
    · unfold valueOf
      rw [hvalue]
      exact ⟨rfl, hcredits.bytes heof⟩
  · intro i st hst
    rcases hstreams i st hst with hold | ⟨hr, hw⟩
    · exact .inl hold
    · rcases hstreams' i st hst with hold | ⟨hr', hw'⟩
      · exact .inl hold
      · exact .inr ⟨⟨hr, hr'⟩, hw, hw'⟩

/-- Once the stream of the pipe is freed it stays so. -/
theorem uses_some (hmade : P.id < S.nextStream) (huses : S.Uses c e S')
    (hsome : (S'.streams P.id).isSome) : (S.streams P.id).isSome := by
  obtain ⟨st', hst'⟩ := Option.isSome_iff_exists.mp hsome
  rcases huses.local (J := fun _ => True) (fun _ _ _ => trivial) (fun _ _ => trivial) with
    ⟨fresh, r, hpipe⟩ | hlocal
  · have hsame := createPipe_stream hmade hpipe
    rw [hsame] at hst'
    rw [hst']
    rfl
  · obtain ⟨st, hst, -⟩ := hlocal.own P.id st' hst'
    rw [hst]
    rfl

/-- **Every use of semaphores and files keeps the law.** -/
theorem uses_lawful (h : Intact P S) (hsome : (S.streams P.id).isSome) (hok : S.conserves P e)
    (hc : S.sched.currentProcess = some c) (huses : S.Uses c e S') : Lawful P S' := by
  obtain ⟨hleaves, ⟨hends, hsame⟩, hkeeps⟩ := hok hsome
  have hA := h.serves hsome
  cases huses with
  | semWait hwait =>
      refine h.lawful.local (waitThen_local hleaves (fun i hi => ?_) hA hwait)
      exact absurd hi (by simp [AfterWait.stream])
  | semPost hpost => exact h.lawful.local (semPost_local hleaves hpost)
  | semSetValue hset => exact h.lawful.local (semSetValue_local hleaves hset)
  | semDestroy hdestroy => exact h.lawful.local (semDestroy_local hleaves hdestroy)
  | pipe hpipe => exact (createPipe_lawful h.lawful h.made hsome hpipe).1
  | close hclose =>
      exact closeFD_lawful h.slots h.lawful hA h.input
        (fun hend st hst => hends _ st rfl hend hst) hclose
  | @kill pid r₁ r₂ S₁ S₂ _ halive hin hout hend =>
      have hstart : Lawful P (S.killStart pid .leave) :=
        (Aside.killStart S pid .leave).lawful h.lawful
      have hA₀ : Serves (· ≠ P.id) P.Other (S.killStart pid .leave) := hA
      have hfirst := closeFD_lawful h.slots hstart hA₀ h.input
        (fun hend st hst => hends _ st ⟨halive, .inl rfl⟩ hend hst) hin
      have hlocal : Local (fun _ => True) (fun _ => True) (S.killStart pid .leave) S₁ :=
        closeFD_local (fun _ _ _ => trivial) (fun _ _ _ _ => ⟨trivial, trivial⟩) hin
      have hinput₁ : (S₁.fileDescriptors stdin).resource ≠ some P.id := by
        rw [closeFD_resource hin]
        exact h.input
      refine hend.lawful (closeFD_lawful h.slots hfirst (hlocal.serves hA₀) hinput₁ ?_ hout)
      intro hsecond st₁ hst₁
      obtain ⟨hwas, hclosed⟩ := closeFD_writeEnd hin hsecond
      by_cases hboth : (S.killStart pid .leave).WriteEnd P (S.sched.processes pid).fds.1
      · -- two write ends would be one, which is closed by now
        have heq := hsame _ _ ⟨halive, .inl rfl⟩ ⟨halive, .inr rfl⟩ hboth hwas
        refine absurd hboth (hclosed heq ?_)
        rintro hin
        exact h.input (hin ▸ hboth.2.1)
      · obtain ⟨st, hst, hwriters⟩ := closeFD_writers hboth hin hst₁
        rw [hwriters]
        exact hends _ st ⟨halive, .inr rfl⟩ hwas hst
  | closeIn hf hclose =>
      have hlawful := closeFD_lawful h.slots h.lawful hA h.input
        (fun hend st hst => hends _ st ⟨c, hc, .inl ⟨hf, rfl⟩⟩ hend hst) hclose
      exact fun st hst => (hlawful st hst).setFrame _
  | closeOut hf hclose =>
      have hlawful := closeFD_lawful h.slots h.lawful hA h.input
        (fun hend st hst => hends _ st ⟨c, hc, .inr ⟨hf, rfl⟩⟩ hend hst) hclose
      exact fun st hst => (hlawful st hst).setFrame _
  | read hread =>
      rcases readFromFD_cases hread with rfl | ⟨-, stream, -, rfl⟩
      · exact h.lawful
      · exact fun st hst => (h.lawful st hst).setFrame _
  | write hwrite =>
      exact writeToFD_lawful h.lawful (fun st hres hst heof => hkeeps st hres hst heof) hwrite
  | readAt hread =>
      exact readFromFDAt_lawful h.lawful hA
        (fun st hopen hmode hres hst => hkeeps st hopen hmode hres hst) hread
  | reading hf hread => exact readRound_lawful h.slots h.lawful hA hread
  | writing hf hwrite => exact writeRound_lawful h.slots h.lawful hA hwrite
  | @woken semId k taken S₁ _ hf hloop hnext =>
      have hadmits := h.frames hsome c
      rw [hf] at hadmits
      exact resumes_lawful h.slots hadmits h.lawful hA ⟨taken, S₁, hloop, hnext⟩

/-- Frames that follow are those of the pipe, or of others. -/
theorem follows_admits {f : Frame} (h : Intact P S) (hsome : (S.streams P.id).isSome)
    (hok : S.conserves P e) (hf : S.Follows c e f) : P.Admits f := by
  obtain ⟨hleaves, -, hkeeps⟩ := hok hsome
  have hother : ∀ {i : ℕ} {st : Stream}, i ≠ P.id → S.streams i = some st →
      (0 ≤ st.readSem → P.Other st.readSem.toNat) ∧
        (0 ≤ st.writeSem → P.Other st.writeSem.toNat) := by
    intro i st hi hst
    obtain ⟨hread, hwrite⟩ := h.others hsome i st hi hst
    constructor
    · intro hpos
      rw [Pipe.Other, Int.toNat_of_nonneg hpos]
      exact hread
    · intro hpos
      rw [Pipe.Other, Int.toNat_of_nonneg hpos]
      exact hwrite
  have hreader : ∀ {r : Reader}, (S.frames c = .reading r ∨
      ∃ semId, S.frames c = .semWait semId (.take r)) → r.stream = P.id → r.fd ≠ stdin := by
    rintro r (hframe | ⟨semId, hframe⟩) hr
    · have hadmits := h.frames hsome c
      rw [hframe] at hadmits
      exact hadmits hr
    · have hadmits := h.frames hsome c
      rw [hframe] at hadmits
      exact (hadmits.resolve_right fun hno => hno.1 hr).2.2
  cases hf with
  | idle hidle => exact P.admits_idle hidle
  | @semWait semId hpos =>
      change P.Other semId.toNat
      rw [Int.toNat_of_nonneg hpos]
      exact hleaves
  | read hfd hres => exact fun _ => hfd
  | write hres => trivial
  | @readAt fd stream st hres hopen hst hdata hpos =>
      have hne : stream ≠ P.id := by
        rintro rfl
        exact absurd hdata (not_lt.mpr (hkeeps st hopen.1 hopen.2 hres hst))
      exact ⟨hne, (hother hne hst).1 hpos⟩
  | @take r st hframe hst hpos =>
      by_cases hr : r.stream = P.id
      · rw [hr] at hst
        refine .inl ⟨hr, ?_, hreader (.inl hframe) hr⟩
        rw [(h.lawful st hst).sems.1, Int.toNat_natCast]
      · exact .inr ⟨hr, (hother hr hst).1 hpos⟩
  | taken n hframe =>
      intro hr
      have hfd := hreader hframe hr
      exact hfd
  | @store w st hframe hst hpos =>
      by_cases hw : w.stream = P.id
      · rw [hw] at hst
        refine .inl ⟨hw, ?_⟩
        rw [(h.lawful st hst).sems.2, Int.toNat_natCast]
      · exact .inr ⟨hw, (hother hw hst).2 hpos⟩
  | stored n hframe => trivial

theorem step_some (hmade : P.id < S.nextStream) (hstep : S.Step e S')
    (hsome : (S'.streams P.id).isSome) : (S.streams P.id).isSome := by
  rcases step_uses hstep with haside | ⟨c, hc, huses⟩
  · rwa [haside.files.2.1] at hsome
  · exact uses_some hmade huses hsome

/-- **Every step keeps the law.** -/
theorem intact_step (h : Intact P S) (hok : S.conserves P e) (hstep : S.Step e S') :
    Intact P S' := by
  refine ⟨h.slots, h.made.trans_le (step_next hstep), ?_, ?_, fun hsome i st' hi hst' => ?_,
    fun hsome q => ?_⟩
  · rw [standard_step (by decide) hstep]
    exact h.input
  · intro st hst
    have hsome := step_some h.made hstep (by rw [hst]; rfl)
    rcases step_uses hstep with haside | ⟨c, hc, huses⟩
    · exact haside.lawful h.lawful st hst
    · exact uses_lawful h hsome hok hc huses st hst
  · have hsome := step_some h.made hstep hsome
    rcases step_uses hstep with haside | ⟨c, hc, huses⟩
    · rw [haside.files.2.1] at hst'
      exact h.others hsome i st' hi hst'
    · rcases huses.local (J := fun _ => True) (fun _ _ _ => trivial) (fun _ _ => trivial) with
        ⟨fresh, r, hpipe⟩ | hlocal
      · rcases (createPipe_lawful h.lawful h.made hsome hpipe).2 i st' hst' with hst | hapart
        · exact h.others hsome i st' hi hst
        · exact hapart
      · obtain ⟨st, hst, hread, hwrite⟩ := hlocal.own i st' hst'
        unfold Pipe.Apart
        rw [hread, hwrite]
        exact h.others hsome i st hi hst
  · have hsome := step_some h.made hstep hsome
    obtain ⟨c, hmoves⟩ := step_moves hstep
    rcases hmoves q with heq | hidle | ⟨rfl, hfollows⟩
    · rw [heq]
      exact h.frames hsome q
    · exact P.admits_idle hidle
    · exact follows_admits h hsome hok hfollows

/-! ## Every run -/

/-- A call of `createPipe` makes the pipe, and both its semaphores. -/
def Makes (P : Pipe) (S S' : Machine) : Prop :=
  ∃ c fresh, S.Step (.call (.pipe fresh)) S' ∧ S.createPipe c fresh = some (0, S') ∧
    P.id = S.nextStream ∧
      S'.streams P.id = some (newStream fresh (P.readSem : ℤ) (P.writeSem : ℤ))

/-- Nobody else uses the semaphores. -/
structure Sole (P : Pipe) (S : Machine) : Prop where
  streams : ∀ i st, i ≠ P.id → S.streams i = some st → P.Apart st
  frames : ∀ q semId k, S.frames q = .semWait semId k → P.Other semId

/-- The two semaphores of a new pipe. -/
theorem makes_sems (hmakes : Makes P S S') : Slots P ∧
    ((S'.sems.sems P.readSem).used = true ∧ (S'.sems.sems P.writeSem).used = true) ∧
      S'.valueOf P.readSem = 0 ∧ S'.valueOf P.writeSem = 2048 := by
  obtain ⟨c, fresh, -, hpipe, hid, hstream⟩ := hmakes
  rcases createPipe_cases hpipe with ⟨hr, -⟩ |
    ⟨-, fd1, fd2, readSem, writeSem, S₁, S₂, -, hread, hwrite, rfl⟩
  · exact absurd hr (by decide)
  · change Function.update S₂.streams S.nextStream _ P.id = _ at hstream
    rw [hid, Function.update_self, Option.some.injEq] at hstream
    obtain rfl : readSem = P.readSem := congrArg Stream.readSem hstream
    obtain rfl : writeSem = P.writeSem := congrArg Stream.writeSem hstream
    rcases semCreate_free hread with ⟨hnone, -⟩ | ⟨i, hi, hlt, -, hused, hvalue, -⟩
    · exact absurd hnone (by omega)
    · obtain rfl : i = P.readSem := by exact_mod_cast hi.symm
      rcases semCreate_free hwrite with ⟨hnone, -⟩ | ⟨j, hj, hlt', hfree, hused', hvalue', haside⟩
      · exact absurd hnone (by omega)
      · obtain rfl : j = P.writeSem := by exact_mod_cast hj.symm
        have hne : P.readSem ≠ P.writeSem := by
          intro heq
          rw [heq] at hused
          exact absurd (hused.symm.trans hfree) (by simp)
        obtain ⟨hkept, hsame⟩ := haside.sems _ hused
        refine ⟨⟨hne, hlt, hlt'⟩, ⟨hkept, hused'⟩, ?_, ?_⟩
        · change ((S₂.sems.sems P.readSem).value).toInt = 0
          rw [hsame, hvalue]
          rfl
        · change ((S₂.sems.sems P.writeSem).value).toInt = 2048
          rw [hvalue']
          rfl

/-- **A new pipe obeys the law.** -/
theorem intact_makes (hnamed : S.Named) (hinput : (S.fileDescriptors stdin).resource = some 0)
    (hmakes : Makes P S S') (hsole : Sole P S') : Intact P S' := by
  obtain ⟨hslots, hused, hread, hwrite⟩ := makes_sems hmakes
  obtain ⟨c, fresh, hstep, hpipe, hid, hstream⟩ := hmakes
  have hnext : S'.nextStream = S.nextStream + 1 :=
    ((createPipe_next hpipe).resolve_left fun hno => absurd hno.1 (by decide)).2
  refine ⟨hslots, by omega, ?_, ?_, fun _ => hsole.streams, fun _ q => ?_⟩
  · rw [standard_step (by decide) hstep, hinput, hid]
    exact fun heq => absurd (Option.some.inj heq) hnamed.first.ne
  · intro st hst
    obtain rfl := Option.some.inj (hstream.symm.trans hst)
    have hempty : S'.history P.id = [] := by
      rw [createPipe_history hpipe, hid]
      exact hnamed.history _ (le_refl _)
    have hsize : 0 < bufferSize ∧ (0 : ℤ) ≤ bufferSize := by decide
    refine ⟨⟨rfl, rfl⟩, hused, ⟨hsize.1, rfl⟩, ⟨le_refl _, hsize.2⟩, ?_, ?_, fun _ => ?_,
      fun _ => ?_, fun heof => absurd heof (by simp [newStream]), zero_le_one, ?_⟩
    · rw [hwrite]
      rfl
    · rw [hwrite]
      decide
    · rw [hread]
      rfl
    · rw [hread]
    · unfold storedBytes tookBytes
      rw [hempty]
      rfl
  · -- nobody can be busy with a stream that was just made
    have hnobody : (S'.frames q).stream ≠ some P.id := by
      rw [createPipe_frames hpipe]
      intro hq
      exact absurd (hnamed.frames q P.id hq) (by omega)
    have hsem := hsole.frames q
    generalize S'.frames q = f at hnobody hsem
    cases f with
    | semWait semId k =>
        have hother := hsem semId k rfl
        have hstream : k.stream ≠ some P.id := hnobody
        cases k with
        | done => exact hother
        | take r => exact .inr ⟨fun hr => hstream (congrArg some hr), hother⟩
        | store w => exact .inr ⟨fun hw => hstream (congrArg some hw), hother⟩
        | readAt stream pos => exact ⟨fun hs => hstream (congrArg some hs), hother⟩
    | reading r => exact fun hr => absurd (congrArg some hr) hnobody
    | _ => trivial

theorem intact_run (h : Reaches Step (conserves P) S S') (hS : Intact P S) : Intact P S' :=
  h.invariant hS fun _ _ _ hM hok hstep => intact_step hM hok hstep

/-- The law as the code's own variables show it: tokens are bytes, free places are
places, the indices are as far apart as there are bytes, and what was read was
written. -/
structure Conserved (P : Pipe) (S : Machine) (st : Stream) : Prop where
  data : S.valueOf P.readSem = st.dataAvailable
  space : S.valueOf P.writeSem + st.dataAvailable = bufferSize
  indices : ((st.writePos : ℤ) - st.readPos) % bufferSize = st.dataAvailable % bufferSize
  written : S.tookBytes P.id <+: S.storedBytes P.id

theorem Credits.indices (h : S.Credits P readTokens writeTokens st) :
    ((st.writePos : ℤ) - st.readPos) % bufferSize = st.dataAvailable % bufferSize := by
  obtain ⟨-, hwrite⟩ := h.ring
  have hpos := h.available.1
  rw [hwrite]
  push_cast
  rw [Int.toNat_of_nonneg hpos, Int.sub_emod, Int.emod_emod_of_dvd _ (dvd_refl _), ← Int.sub_emod]
  congr 1
  omega

/-- **A pipe conserves its credits** in every state with `eof` clear that is reached
after it was made, if nobody else uses its semaphores, nothing is read by
`readFromFDAt`, no write forgets the end of the stream while the tokens differ from
the bytes, and no write end is closed twice. -/
theorem pipe_conserves (nodes blocks : ℕ → Bool) (P : Pipe) (S₀ S₁ S : Machine)
    (h₀ : Reaches Step always (boot nodes blocks) S₀) (hmakes : Makes P S₀ S₁) (hsole : Sole P S₁)
    (h : Reaches Step (conserves P) S₁ S) (st : Stream) (hst : S.streams P.id = some st)
    (heof : st.eof = false) : S.Conserved P st := by
  have hinput : (S₀.fileDescriptors stdin).resource = some 0 := by
    rw [standard_run h₀ (by decide)]
    rfl
  have hcredits := (intact_run h (intact_makes (named_run h₀) hinput hmakes hsole)).lawful st hst
  refine ⟨?_, ?_, hcredits.indices, ?_⟩
  · simpa using hcredits.data heof
  · simpa using hcredits.space
  · rw [hcredits.fifo]
    exact List.prefix_append _ _

/-! ## Two runs -/

/-- The first pipe of the shell. -/
def firstPipe : Pipe := ⟨1, 3, 4⟩

/-- What the shell finds after its first pipe. -/
theorem makes_boot (h : booted.step (.call (.pipe fun _ => 0)) = some S) :
    Makes firstPipe booted S ∧ Sole firstPipe S := by
  have hcall : booted.step (.call (.pipe fun _ => 0)) =
      (booted.createPipe 2 fun _ => 0).map Prod.snd := by
    have hshell : booted.sched.currentProcess = some 2 ∧ booted.frames 2 = .user := by
      decide +kernel
    unfold step
    rw [hshell.1]
    dsimp only
    rw [if_pos hshell.2]
    rfl
  have hsems : (booted.createPipe 2 fun _ => 0).map (fun x => (x.1,
      (x.2.streams 1).map fun st => (st.readSem, st.writeSem))) = some (0, some (3, 4)) := by
    decide +kernel
  have hnext : booted.nextStream = 1 := by decide +kernel
  have hfiles : SameFiles (off (fun _ => true) fun _ => true) booted :=
    (createProcess_files _ _).trans (createProcess_files _ _)
  rw [hcall] at h
  obtain ⟨⟨r, M⟩, hpipe, rfl⟩ := Option.map_eq_some_iff.mp h
  rw [hpipe, Option.map_some, Option.some.injEq, Prod.mk.injEq] at hsems
  obtain ⟨rfl, hsems⟩ := hsems
  rcases createPipe_cases hpipe with ⟨hr, -⟩ |
    ⟨-, fd1, fd2, readSem, writeSem, S₁, S₂, -, hread, hwrite, rfl⟩
  · exact absurd hr (by decide)
  · have hstreams : S₂.streams = booted.streams :=
      ((semCreate_files hread).trans (semCreate_files hwrite)).2.1
    have hnew : ((S₂.setStream booted.nextStream (newStream (fun _ => 0) readSem writeSem)).withEnds
        fd1 fd2 booted.nextStream).streams 1 = some (newStream (fun _ => 0) readSem writeSem) := by
      change Function.update S₂.streams booted.nextStream _ 1 = _
      rw [hnext]
      exact Function.update_self _ _ _
    dsimp only at hsems ⊢
    rw [hnew, Option.map_some, Option.some.injEq, Prod.mk.injEq] at hsems
    obtain ⟨rfl, rfl⟩ := hsems
    refine ⟨⟨2, _, hcall.trans (by rw [hpipe]; rfl), hpipe, hnext.symm, hnew⟩,
      fun i st hi hst => ?_, fun q semId k hq => ?_⟩
    · change Function.update S₂.streams booted.nextStream _ i = some st at hst
      have hi : i ≠ 1 := hi
      rw [hnext, Function.update_of_ne hi, hstreams, hfiles.2.1] at hst
      simp only [off] at hst
      split at hst
      · obtain rfl := Option.some.inj hst
        exact ⟨⟨by decide, by decide⟩, by decide, by decide⟩
      · exact absurd hst (by simp)
    · change S₂.frames q = _ at hq
      have hframes := createPipe_frames hpipe
      change S₂.frames = booted.frames at hframes
      rw [hframes, show booted.frames q = .user from boot_frames q] at hq
      exact absurd hq (by simp)

/-- Two bytes into the first pipe, and one out of it. -/
def relays : List Event :=
  [.call (.write 4 [65, 66]), .resume, .resume, .resume, .call (.read 3 1), .resume, .resume]

/-- What the shell does while it writes and reads: the pipe is open, and nobody ends. -/
def relaying (S : Machine) : Event → Bool
  | .call (.write _ _) => (S.streams 1).map (fun st => (st.eof, st.writers)) = some (false, 1)
  | .call (.read _ _) => true
  | .resume =>
      match S.frames 2 with
      | .exiting _ => false
      | _ => S.sched.currentProcess = some 2
  | _ => false

theorem relaying_open (h : S.relaying (.call (.write fd bytes)) = true) {st : Stream}
    (hst : S.streams 1 = some st) : st.eof = false ∧ st.writers = 1 := by
  simpa [relaying, hst] using h

theorem relaying_leaves (h : S.relaying e = true) : leavesSems firstPipe e := by
  unfold relaying at h
  split at h <;> trivial

/-- Nobody closes anything. -/
theorem relaying_closes (h : S.relaying e = true) : ¬S.Closes e fd := by
  intro hcloses
  unfold relaying at h
  split at h
  · exact hcloses
  · exact hcloses
  · obtain ⟨c, hc, hframe⟩ := hcloses
    split at h
    · simp at h
    · rename_i hworks
      obtain rfl : 2 = c := Option.some.inj ((of_decide_eq_true h).symm.trans hc)
      rcases hframe with ⟨hf, -⟩ | ⟨hf, -⟩ <;> exact hworks _ hf
  · simp at h

theorem relay_boot : ∃ S₁ S st, (Makes firstPipe booted S₁ ∧ Sole firstPipe S₁) ∧
    Reaches Step (fun S e => S.relaying e = true) S₁ S ∧ S.streams 1 = some st ∧
      (st.eof = false ∧ st.dataAvailable = 1) ∧ S.storedBytes 1 = [65, 66] ∧
        S.tookBytes 1 = [65] := by
  have hend : ((booted.step (.call (.pipe fun _ => 0))).bind fun S =>
      exec (fun S e => if S.relaying e = true then S.step e else none) S relays).map (fun S =>
        ((S.streams 1).map fun st => (st.eof, st.dataAvailable), S.storedBytes 1,
          S.tookBytes 1)) = some (some (false, 1), [65, 66], [65]) := by
    decide +kernel
  obtain ⟨S, hS, hlast⟩ := Option.map_eq_some_iff.mp hend
  obtain ⟨S₁, h₁, hrun⟩ := Option.bind_eq_some_iff.mp hS
  simp only [Prod.mk.injEq] at hlast
  obtain ⟨hstream, hstored, htook⟩ := hlast
  obtain ⟨st, hst, hdata⟩ := Option.map_eq_some_iff.mp hstream
  rw [Prod.mk.injEq] at hdata
  exact ⟨S₁, S, st, makes_boot h₁, exec_guarded hrun, hst, hdata, hstored, htook⟩

/-- Of two bytes written one was read, and there is one token for the other one. -/
theorem pipe_conserves_relay : ∃ S₁ S st, Makes firstPipe booted S₁ ∧
    Reaches Step (conserves firstPipe) S₁ S ∧ S.streams 1 = some st ∧ st.dataAvailable = 1 ∧
      S.tookBytes 1 = [65] ∧ S.Conserved firstPipe st := by
  obtain ⟨S₁, S, st, ⟨hmakes, hsole⟩, hrun, hst, ⟨heof, hdata⟩, -, htook⟩ := relay_boot
  have hrun' : Reaches Step (conserves firstPipe) S₁ S := by
    refine hrun.mono fun M e h _ => ⟨relaying_leaves h, ⟨fun fd st' hcloses =>
      absurd hcloses (relaying_closes h), fun fd fd' hcloses =>
        absurd hcloses (relaying_closes h)⟩, ?_⟩
    cases e with
    | call call =>
        cases call with
        | write fd bytes =>
            intro st' _ hst' heof'
            exact absurd ((relaying_open h hst').1.symm.trans heof') (by decide)
        | readAt => exact absurd h (by simp [relaying])
        | _ => trivial
    | _ => trivial
  exact ⟨S₁, S, st, hmakes, hrun', hst, hdata, htook,
    pipe_conserves _ _ firstPipe booted S₁ S (Reaches.refl _) hmakes hsole hrun' st hst heof⟩

/-- **`readFromFDAt` takes a byte and keeps its place.** -/
theorem readAt_keeps_place : ¬∀ nodes blocks P S₀ S₁ S,
    Reaches Step always (boot nodes blocks) S₀ → Makes P S₀ S₁ → Sole P S₁ →
      Reaches Step (fun S e => (S.streams P.id).isSome → leavesSems P e) S₁ S →
        ∀ st, S.streams P.id = some st → st.eof = false → S.Conserved P st := by
  intro hall
  obtain ⟨S₁, h₁⟩ := Option.isSome_iff_exists.mp (by decide +kernel :
    (booted.step (.call (.pipe fun _ => 0))).isSome)
  obtain ⟨S, hS⟩ := Option.isSome_iff_exists.mp (by decide +kernel :
    ((booted.step (.call (.pipe fun _ => 0))).bind fun S =>
      exec step S [.call (.write 4 [65]), .resume, .resume, .call (.readAt 3)]).isSome)
  have hend : ((booted.step (.call (.pipe fun _ => 0))).bind fun S =>
      exec step S [.call (.write 4 [65]), .resume, .resume, .call (.readAt 3)]).map (fun S =>
        ((S.streams 1).map fun st => (st.eof, st.dataAvailable), S.valueOf 4)) =
          some (some (false, 0), 2047) := by
    decide +kernel
  rw [hS] at hend
  rw [h₁, Option.bind_some] at hS
  rw [Option.map_some, Option.some.injEq, Prod.mk.injEq] at hend
  obtain ⟨st, hst, hdata⟩ := Option.map_eq_some_iff.mp hend.1
  rw [Prod.mk.injEq] at hdata
  obtain ⟨hmakes, hsole⟩ := makes_boot h₁
  have hrun : Reaches Step (fun S e => (S.streams firstPipe.id).isSome → leavesSems firstPipe e)
      S₁ S := by
    refine exec_always hS fun e he M _ => ?_
    simp only [List.mem_cons, List.not_mem_nil, or_false] at he
    rcases he with rfl | rfl | rfl | rfl <;> trivial
  have hspace := (hall _ _ firstPipe booted S₁ S (Reaches.refl _) hmakes hsole hrun st hst
    hdata.1).space
  have hvalue : S.valueOf firstPipe.writeSem = 2047 := hend.2
  rw [hvalue, hdata.2] at hspace
  exact absurd hspace (by decide)

end Machine

end BareKernel.Kernel
