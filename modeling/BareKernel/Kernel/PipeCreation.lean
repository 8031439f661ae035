import BareKernel.Kernel.Descriptors
import BareKernel.Kernel.SemaphoreNames

/-!
# Making a pipe, or nothing

`createPipe` takes two descriptors, a block and two semaphores, one after another. It does not give
the first descriptor back when there is no second one, and it looks neither at the block nor at the
semaphores. Where nothing of this happens it is all or nothing.
-/

namespace BareKernel.Kernel

namespace SemTable

variable {T : SemTable} {pid : ℤ} {name : CString} {value : Int32} {waiting : WaitQueue}
  {semId i : ℕ}

/-- `semCreate` finds the slot for the name. -/
def Offers (T : SemTable) (name : CString) (semId : ℕ) : Prop :=
  T.findSemByName name = none ∧ T.findFreeSem = some semId

/-- The table in which the slot has got its name and its value. -/
def withSem (T : SemTable) (pid : ℤ) (name : CString) (value : Int32) (semId : ℕ) : SemTable :=
  T.setSem semId ((T.sems semId).fill pid name value .null)

theorem offers_free (h : T.Offers name semId) : semId < maxSems ∧ (T.sems semId).used = false := by
  obtain ⟨-, hfree⟩ := h
  have hmem := List.mem_of_find?_eq_some hfree
  have hunused := List.find?_some hfree
  exact ⟨List.mem_range.mp hmem, by simpa using hunused⟩

/-- The queue of the waiters is not looked at in a search. -/
theorem offers_fill (waiting : WaitQueue) :
    (T.setSem i ((T.sems i).fill pid name value waiting)).Offers =
      (T.withSem pid name value i).Offers := by
  have hsame : ∀ j, ((T.setSem i ((T.sems i).fill pid name value waiting)).sems j).used =
        ((T.withSem pid name value i).sems j).used ∧
      ((T.setSem i ((T.sems i).fill pid name value waiting)).sems j).value =
        ((T.withSem pid name value i).sems j).value ∧
      ((T.setSem i ((T.sems i).fill pid name value waiting)).sems j).name =
        ((T.withSem pid name value i).sems j).name := by
    intro j
    unfold withSem
    by_cases hj : j = i
    · subst hj
      rw [setSem_sems_self, setSem_sems_self]
      unfold Sem.fill Sem.setOpened
      dsimp only
      split <;> exact ⟨rfl, rfl, rfl⟩
    · rw [setSem_sems_of_ne hj, setSem_sems_of_ne hj]
      exact ⟨rfl, rfl, rfl⟩
  have hbyte : ∀ j k, (T.setSem i ((T.sems i).fill pid name value waiting)).nameByte j k =
      (T.withSem pid name value i).nameByte j k := by
    intro j k
    unfold nameByte byteBehind
    rw [(hsame j).2.2, (hsame (j + 1)).2.1]
    rfl
  have hcmp :
      ∀ j bytes k, (T.setSem i ((T.sems i).fill pid name value waiting)).strcmpFrom j bytes k =
      (T.withSem pid name value i).strcmpFrom j bytes k := by
    intro j bytes
    induction bytes with
    | nil => exact fun k => by unfold strcmpFrom; rw [hbyte]
    | cons b bytes ih => exact fun k => by unfold strcmpFrom; rw [hbyte, ih]
  funext other semId
  unfold Offers findSemByName findFreeSem
  simp only [hcmp, (hsame _).1]

/-- A name that fits is created in the slot that is offered. -/
theorem semCreate_offers (hlength : name.bytes.length ≤ sMaxNameLength) :
    T.semCreate pid name value waiting =
      (some semId, T.setSem semId ((T.sems semId).fill pid name value waiting)) ↔
        T.Offers name semId := by
  constructor
  · intro h
    rcases semCreate_cases T pid name value waiting with hnone | ⟨j, -, hname, hfree, heq⟩
    · rw [hnone] at h
      cases h
    · rw [heq] at h
      obtain rfl := Option.some.inj (Prod.mk.inj h).1
      exact ⟨hname, hfree⟩
  · rintro ⟨hname, hfree⟩
    unfold semCreate
    rw [if_neg (by rw [hname]; simp; omega), hfree]

end SemTable

theorem itoaDigits_length : ∀ {fuel value : ℕ} {digits : List UInt8},
    (itoaDigits fuel value digits).length ≤ digits.length + fuel
  | 0, _, _ => Nat.le_refl _
  | fuel + 1, value, digits => by
      unfold itoaDigits
      dsimp only
      split
      · rw [List.length_cons]
        omega
      · have hrest := @itoaDigits_length fuel (value / 10) (UInt8.ofNat (value % 10 + 48) :: digits)
        rw [List.length_cons] at hrest
        omega

theorem itoa_length (value : ℕ) : (itoa value).bytes.length ≤ sMaxNameLength :=
  itoaDigits_length.trans (by decide)

namespace Machine

variable {S S' S₁ : Machine} {pid fd fd1 fd2 : ℤ} {fresh : ℕ → UInt8}

/-! ## The descriptors -/

/-- The lowest descriptor that is free. -/
def Lowest (S : Machine) (fd : ℤ) : Prop := S.Unused fd ∧ ∀ other, S.Unused other → fd ≤ other

theorem getAvailableFD_lowest : S.getAvailableFD.1 = some fd ↔ S.Lowest fd := by
  have hfind : S.getAvailableFD.1 = ((List.range 1021).find? fun i : ℕ =>
      !(S.fileDescriptors ((i : ℤ) + 3)).isOpen).map fun i : ℕ => (i : ℤ) + 3 := by
    unfold getAvailableFD
    generalize List.range 1021 = slots
    dsimp only
    rw [List.find?_map, Function.comp_def]
    cases slots.find? fun i : ℕ => !(S.fileDescriptors ((i : ℤ) + 3)).isOpen <;> rfl
  rw [hfind, Option.map_eq_some_iff]
  constructor
  · rintro ⟨i, hi, rfl⟩
    rw [List.find?_range_eq_some] at hi
    obtain ⟨hclosed, hmem, hbefore⟩ := hi
    rw [List.mem_range] at hmem
    refine ⟨⟨⟨by omega, by unfold maxFds; omega⟩, by simpa using hclosed⟩, fun other hother => ?_⟩
    obtain ⟨⟨hlow, hhigh⟩, hopen⟩ := hother
    by_contra hlt
    have hno := hbefore (other - 3).toNat (by omega)
    rw [show ((other - 3).toNat : ℤ) + 3 = other by omega, hopen] at hno
    exact absurd hno (by decide)
  · rintro ⟨⟨⟨hlow, hhigh⟩, hopen⟩, hleast⟩
    have hfd : ((fd - 3).toNat : ℤ) + 3 = fd := by omega
    refine ⟨(fd - 3).toNat, ?_, hfd⟩
    rw [List.find?_range_eq_some, List.mem_range, hfd, hopen]
    unfold maxFds at hhigh
    refine ⟨rfl, by omega, fun j hj => ?_⟩
    by_contra hclosed
    rw [Bool.not_eq_true, Bool.not_eq_false', Bool.not_eq_true'] at hclosed
    have hle := hleast (j + 3) ⟨⟨by omega, by unfold maxFds; omega⟩, hclosed⟩
    omega

theorem getAvailableFD_none : S.getAvailableFD.1 = none ↔ ∀ fd, ¬S.Unused fd := by
  constructor
  · intro hnone fd hfd
    rcases getAvailableFD_cases (S := S) with h | ⟨found, hfound, h⟩
    · unfold getAvailableFD at h
      dsimp only at h
      split at h
      · rename_i hall
        rw [List.find?_eq_none] at hall
        obtain ⟨⟨hlow, hhigh⟩, hopen⟩ := hfd
        unfold maxFds at hhigh
        have hno :=
          hall fd (List.mem_map.mpr ⟨(fd - 3).toNat, List.mem_range.mpr (by omega), by omega⟩)
        rw [hopen] at hno
        exact hno rfl
      · cases h
    · rw [h] at hnone
      cases hnone
  · intro hall
    rcases getAvailableFD_cases (S := S) with h | ⟨found, hfound, -⟩
    · rw [h]
    · exact absurd hfound (hall found)

theorem getAvailableFD_state (h : S.getAvailableFD.1 = some fd) :
    S.getAvailableFD = (some fd, S.setOpen fd true) := by
  rcases getAvailableFD_cases (S := S) with hnone | ⟨found, -, heq⟩
  · rw [hnone] at h
    cases h
  · rw [heq] at h ⊢
    obtain rfl := Option.some.inj h
    rfl

/-! ## The law -/

/-- What `createPipe` writes into `fds`. -/
def pipeFds (S : Machine) : Option (ℤ × ℤ) :=
  S.getAvailableFD.1.bind fun fd1 => S.getAvailableFD.2.getAvailableFD.1.map fun fd2 => (fd1, fd2)

/-- Two semaphores of their own for the two ends. -/
structure NewSems (S S' : Machine) (st : Stream) (readSem writeSem : ℕ) : Prop where
  ends : st.readSem = readSem ∧ st.writeSem = writeSem
  distinct : readSem ≠ writeSem
  inside : readSem < maxSems ∧ writeSem < maxSems
  unused : (S.sems.sems readSem).used = false ∧ (S.sems.sems writeSem).used = false
  used : (S'.sems.sems readSem).used = true ∧ (S'.sems.sems writeSem).used = true
  values : (S'.sems.sems readSem).value = 0 ∧ (S'.sems.sems writeSem).value = 2048

/-- The stream is empty and has one end of each kind. -/
structure NewPipe (S S' : Machine) (st : Stream) : Prop where
  empty : st.readPos = 0 ∧ st.writePos = 0 ∧ st.dataAvailable = 0 ∧ st.eof = false
  counts : st.readers = 1 ∧ st.writers = 1
  sems : ∃ readSem writeSem, NewSems S S' st readSem writeSem

/-- The pipe has been made. -/
structure PipeMade (S S' : Machine) (fd1 fd2 : ℤ) : Prop where
  fds : S.pipeFds = some (fd1, fd2)
  distinct : fd1 ≠ fd2
  closed : (S.fileDescriptors fd1).isOpen = false ∧ (S.fileDescriptors fd2).isOpen = false
  ends : S'.fileDescriptors fd1 = ⟨true, some S.nextStream, .R⟩ ∧
    S'.fileDescriptors fd2 = ⟨true, some S.nextStream, .W⟩
  allocated : S'.nextStream = S.nextStream + 1
  stream : ∃ st, S'.streams S.nextStream = some st ∧ NewPipe S S' st

/-- The call returns 0 and has made a pipe, or it returns a negative value and nothing has
happened. -/
def PipeOrNothing (S : Machine) (pid : ℤ) (fresh : ℕ → UInt8) : Prop :=
  ∃ r S', S.createPipe pid fresh = some (r, S') ∧ (r = 0 → ∃ fd1 fd2, PipeMade S S' fd1 fd2) ∧
    (r ≠ 0 → r < 0 ∧ S' = S)

/-- Everything the pipe needs is there: two descriptors, a block, and two semaphores, the second
of them after the first has got its name. -/
structure PipeReady (S : Machine) (pid fd1 fd2 : ℤ) (readSem writeSem : ℕ) : Prop where
  first : S.Lowest fd1
  second : (S.setOpen fd1 true).Lowest fd2
  block : S.sched.blocks 0 = true
  reads : S.sems.Offers (itoa fd1.toNat) readSem
  writes : (S.sems.withSem pid (itoa fd1.toNat) 0 readSem).Offers (itoa fd2.toNat) writeSem

theorem semCreate_some {name : CString} {value : Int32} {semId : ℕ}
    (h : (S.semCreate pid name value).1 = semId) :
    ∃ waiting, S.sems.semCreate pid name value waiting = (some semId,
        S.sems.setSem semId ((S.sems.sems semId).fill pid name value waiting)) ∧
      (S.semCreate pid name value).2.sems =
        S.sems.setSem semId ((S.sems.sems semId).fill pid name value waiting) := by
  unfold semCreate at h ⊢
  dsimp only at h ⊢
  generalize (if S.sched.blocks 0 = true then WaitQueue.queue [] else WaitQueue.null) = waiting at *
  rcases SemTable.semCreate_cases S.sems pid name value waiting with hnone | ⟨j, -, -, -, heq⟩
  · rw [hnone] at h
    exact absurd h (by dsimp only; omega)
  · rw [heq] at h ⊢
    obtain rfl : j = semId := Int.ofNat.inj h
    exact ⟨waiting, heq, rfl⟩

/-! ## The outcomes -/

theorem createPipe_none (h : S.getAvailableFD.1 = none) :
    S.createPipe pid fresh = some (-1, S) := by
  have hstate : S.getAvailableFD = (none, S) := by
    rcases getAvailableFD_cases (S := S) with hnone | ⟨fd, -, heq⟩
    · exact hnone
    · rw [heq] at h
      cases h
  unfold createPipe
  rw [hstate]
  dsimp only
  rw [hstate]

theorem createPipe_one (h1 : S.getAvailableFD.1 = some fd1)
    (h2 : (S.setOpen fd1 true).getAvailableFD.1 = none) :
    S.createPipe pid fresh = some (-1, S.setOpen fd1 true) := by
  have hstate : (S.setOpen fd1 true).getAvailableFD = (none, S.setOpen fd1 true) := by
    rcases getAvailableFD_cases (S := S.setOpen fd1 true) with hnone | ⟨fd, -, heq⟩
    · exact hnone
    · rw [heq] at h2
      cases h2
  unfold createPipe
  rw [getAvailableFD_state h1]
  dsimp only
  rw [hstate]

/-- The first semaphore of a pipe, and the state with it. -/
def firstSem (S : Machine) (pid fd1 fd2 : ℤ) : ℤ × Machine :=
  (S.reserve fd1 fd2).semCreate pid (itoa fd1.toNat) 0

def secondSem (S : Machine) (pid fd1 fd2 : ℤ) : ℤ × Machine :=
  (S.firstSem pid fd1 fd2).2.semCreate pid (itoa fd2.toNat) 2048

theorem createPipe_two (h1 : S.getAvailableFD.1 = some fd1)
    (h2 : (S.setOpen fd1 true).getAvailableFD.1 = some fd2) :
    S.createPipe pid fresh = if S.sched.blocks 0 = true then
      some (0, ((S.secondSem pid fd1 fd2).2.setStream S.nextStream
        (newStream fresh (S.firstSem pid fd1 fd2).1 (S.secondSem pid fd1 fd2).1)).withEnds fd1 fd2
          S.nextStream) else none := by
  unfold createPipe
  rw [getAvailableFD_state h1]
  dsimp only
  rw [getAvailableFD_state h2]
  dsimp only
  by_cases hblock : S.sched.blocks 0 = true
  · rw [if_pos hblock, if_neg (by simp [setOpen_sched, hblock])]
    rfl
  · rw [if_neg hblock, if_pos (by simp [setOpen_sched, hblock])]

theorem pipeFds_two (h1 : S.getAvailableFD.1 = some fd1)
    (h2 : (S.setOpen fd1 true).getAvailableFD.1 = some fd2) : S.pipeFds = some (fd1, fd2) := by
  unfold pipeFds
  rw [getAvailableFD_state h1, Option.bind_some]
  dsimp only
  rw [h2]
  rfl

/-- Both semaphores are there exactly when both names have a slot. -/
theorem secondSem_offers {readSem writeSem : ℕ} :
    ((S.firstSem pid fd1 fd2).1 = readSem ∧ (S.secondSem pid fd1 fd2).1 = writeSem) ↔
      S.sems.Offers (itoa fd1.toNat) readSem ∧
        (S.sems.withSem pid (itoa fd1.toNat) 0 readSem).Offers (itoa fd2.toNat) writeSem := by
  constructor
  · rintro ⟨hread, hwrite⟩
    obtain ⟨waiting, hfirst, hsems⟩ := semCreate_some hread
    obtain ⟨waiting', hsecond, -⟩ := semCreate_some hwrite
    change (S.firstSem pid fd1 fd2).2.sems = _ at hsems
    rw [hsems] at hsecond
    have hoffers := (SemTable.semCreate_offers (itoa_length _)).mp hsecond
    rw [SemTable.offers_fill] at hoffers
    exact ⟨(SemTable.semCreate_offers (itoa_length _)).mp hfirst, hoffers⟩
  · rintro ⟨hread, hwrite⟩
    have hfirst : (S.firstSem pid fd1 fd2).1 = readSem := by
      unfold firstSem semCreate
      dsimp only
      have hsems : (S.reserve fd1 fd2).sems = S.sems := rfl
      rw [hsems, (SemTable.semCreate_offers (itoa_length _)).mpr hread]
    refine ⟨hfirst, ?_⟩
    obtain ⟨waiting, -, hsems⟩ := semCreate_some hfirst
    rw [← SemTable.offers_fill waiting] at hwrite
    change (S.firstSem pid fd1 fd2).2.sems = _ at hsems
    unfold secondSem semCreate
    dsimp only
    rw [hsems]
    change SemTable.Offers (S.sems.setSem _ _) _ _ at hwrite
    have hsame : (S.reserve fd1 fd2).sems = S.sems := rfl
    rw [hsame, (SemTable.semCreate_offers (itoa_length _)).mpr hwrite]

/-- With everything there, the pipe is made. -/
theorem PipeReady.made {readSem writeSem : ℕ} (h : S.PipeReady pid fd1 fd2 readSem writeSem) :
    ∃ S', S.createPipe pid fresh = some (0, S') ∧ PipeMade S S' fd1 fd2 := by
  have h1 := getAvailableFD_lowest.mpr h.first
  have h2 := getAvailableFD_lowest.mpr h.second
  obtain ⟨hread, hwrite⟩ := secondSem_offers.mpr ⟨h.reads, h.writes⟩
  have hne : fd1 ≠ fd2 := by
    rintro rfl
    have hclosed := h.second.1.2
    rw [setOpen_fileDescriptors, Function.update_self] at hclosed
    cases hclosed
  have hclosed : (S.fileDescriptors fd2).isOpen = false := by
    have hunused := h.second.1.2
    rwa [setOpen_fileDescriptors, Function.update_of_ne (Ne.symm hne)] at hunused
  obtain ⟨waiting, -, hsems⟩ := semCreate_some hread
  obtain ⟨waiting', -, hsems'⟩ := semCreate_some hwrite
  change (S.firstSem pid fd1 fd2).2.sems = S.sems.setSem _ _ at hsems
  change (S.secondSem pid fd1 fd2).2.sems = _ at hsems'
  obtain ⟨hinside, hunused⟩ := SemTable.offers_free h.reads
  obtain ⟨hinside', hunused'⟩ := SemTable.offers_free h.writes
  have hdistinct : readSem ≠ writeSem := by
    rintro rfl
    unfold SemTable.withSem at hunused'
    rw [SemTable.setSem_sems_self, Sem.fill] at hunused'
    rw [(SemTable.setOpened_eq _ _ _).2.1] at hunused'
    cases hunused'
  have hother : (S.sems.sems writeSem).used = false := by
    unfold SemTable.withSem at hunused'
    rwa [SemTable.setSem_sems_of_ne (Ne.symm hdistinct)] at hunused'
  have hfill : ∀ (s : Sem) name value w, (s.fill pid name value w).used = true ∧
      (s.fill pid name value w).value = value := by
    intro s name value w
    unfold Sem.fill
    rw [(SemTable.setOpened_eq _ _ _).1, (SemTable.setOpened_eq _ _ _).2.1]
    exact ⟨rfl, rfl⟩
  rw [createPipe_two h1 h2, if_pos h.block]
  refine ⟨_, rfl, pipeFds_two h1 h2, hne, ⟨h.first.1.2, hclosed⟩, ⟨?_, ?_⟩, ?_, ?_⟩
  · exact (Function.update_of_ne hne _ _).trans (Function.update_self _ _ _)
  · exact Function.update_self _ _ _
  · have hsame : SameFiles (S.reserve fd1 fd2) (S.secondSem pid fd1 fd2).2 :=
      (semCreate_files rfl).trans (semCreate_files rfl)
    exact hsame.2.2
  · refine ⟨_, Function.update_self _ _ _, ⟨rfl, rfl, rfl, rfl⟩, ⟨rfl, rfl⟩, readSem, writeSem,
      ⟨hread, hwrite⟩, hdistinct, ⟨hinside, hinside'⟩, ⟨hunused, hother⟩, ?_, ?_⟩
    · change ((S.secondSem pid fd1 fd2).2.sems.sems readSem).used = true ∧
        ((S.secondSem pid fd1 fd2).2.sems.sems writeSem).used = true
      rw [hsems', SemTable.setSem_sems_self, SemTable.setSem_sems_of_ne hdistinct, hsems,
        SemTable.setSem_sems_self]
      exact ⟨(hfill _ _ _ _).1, (hfill _ _ _ _).1⟩
    · change ((S.secondSem pid fd1 fd2).2.sems.sems readSem).value = 0 ∧
        ((S.secondSem pid fd1 fd2).2.sems.sems writeSem).value = 2048
      rw [hsems', SemTable.setSem_sems_self, SemTable.setSem_sems_of_ne hdistinct, hsems,
        SemTable.setSem_sems_self]
      exact ⟨(hfill _ _ _ _).2, (hfill _ _ _ _).2⟩

/-- **`createPipe` is all or nothing** exactly when no descriptor is free, or two are and the block
and both semaphores can be had. -/
theorem createPipe_orNothing (S : Machine) (pid : ℤ) (fresh : ℕ → UInt8) :
    PipeOrNothing S pid fresh ↔ (∀ fd, ¬S.Unused fd) ∨
      ∃ fd1 fd2 readSem writeSem, S.PipeReady pid fd1 fd2 readSem writeSem := by
  constructor
  · rintro ⟨r, S', hcall, hmade, hnothing⟩
    cases h1 : S.getAvailableFD.1 with
    | none => exact .inl (getAvailableFD_none.mp h1)
    | some fd1 =>
        right
        cases h2 : (S.setOpen fd1 true).getAvailableFD.1 with
        | none =>
            -- the first descriptor stays open
            rw [createPipe_one h1 h2] at hcall
            obtain ⟨rfl, rfl⟩ := Prod.mk.inj (Option.some.inj hcall)
            have hopen := congrArg (fun M : Machine => (M.fileDescriptors fd1).isOpen)
              (hnothing (by decide)).2
            rw [setOpen_fileDescriptors, Function.update_self,
              (getAvailableFD_lowest.mp h1).1.2] at hopen
            cases hopen
        | some fd2 =>
            rw [createPipe_two h1 h2] at hcall
            by_cases hblock : S.sched.blocks 0 = true
            · rw [if_pos hblock] at hcall
              obtain ⟨rfl, rfl⟩ := Prod.mk.inj (Option.some.inj hcall)
              obtain ⟨fd1', fd2', hpipe⟩ := hmade rfl
              obtain ⟨st, hst, -, -, readSem, writeSem, hsems⟩ := hpipe.stream
              have hnew := Option.some.inj (hst.symm.trans (Function.update_self _ _ _))
              have hends := hsems.ends
              rw [hnew] at hends
              obtain ⟨hreads, hwrites⟩ := secondSem_offers.mp hends
              exact ⟨fd1, fd2, readSem, writeSem, getAvailableFD_lowest.mp h1,
                getAvailableFD_lowest.mp h2, hblock, hreads, hwrites⟩
            · rw [if_neg hblock] at hcall
              cases hcall
  · rintro (hnone | ⟨fd1, fd2, readSem, writeSem, hready⟩)
    · exact ⟨-1, S, createPipe_none (getAvailableFD_none.mpr hnone), fun h => absurd h (by decide),
        fun _ => ⟨by decide, rfl⟩⟩
    · obtain ⟨S', hcall, hpipe⟩ := hready.made
      exact ⟨0, S', hcall, fun _ => ⟨fd1, fd2, hpipe⟩, fun h => absurd rfl h⟩

/-- Descriptor 1023 is the last that is free. -/
def crowdedTable : Machine :=
  { booted with
    fileDescriptors := fun fd =>
      if fd = 1023 then ⟨false, none, .R⟩ else if fd = 0 then ⟨true, some 0, .RW⟩
        else ⟨true, none, .W⟩ }

theorem crowdedTable_unused {other : ℤ} (h : crowdedTable.Unused other) : other = 1023 := by
  obtain ⟨⟨hlow, -⟩, hclosed⟩ := h
  by_contra hne
  have hzero : other ≠ 0 := by omega
  change (if other = 1023 then (⟨false, none, .R⟩ : FD)
    else if other = 0 then ⟨true, some 0, .RW⟩ else ⟨true, none, .W⟩).isOpen = false at hclosed
  rw [if_neg hne, if_neg hzero] at hclosed
  cases hclosed

/-- The last descriptor is not given back. -/
theorem createPipe_keeps_descriptor : ¬PipeOrNothing crowdedTable 2 fun _ => 0 := by
  have hunused : crowdedTable.Unused 1023 := ⟨⟨by decide, by decide⟩, rfl⟩
  have h1 : crowdedTable.getAvailableFD.1 = some 1023 :=
    getAvailableFD_lowest.mpr ⟨hunused, fun other hother => (crowdedTable_unused hother).ge⟩
  have h2 : (crowdedTable.setOpen 1023 true).getAvailableFD.1 = none := by
    rw [getAvailableFD_none]
    rintro other ⟨hrange, hclosed⟩
    by_cases hother : other = 1023
    · subst hother
      cases hclosed
    · rw [setOpen_fileDescriptors, Function.update_of_ne hother] at hclosed
      exact hother (crowdedTable_unused ⟨hrange, hclosed⟩)
  rintro ⟨r, S', hcall, -, hnothing⟩
  rw [createPipe_one h1 h2] at hcall
  obtain ⟨rfl, rfl⟩ := Prod.mk.inj (Option.some.inj hcall)
  have hopen :=
    congrArg (fun M : Machine => (M.fileDescriptors 1023).isOpen) (hnothing (by decide)).2
  cases hopen

end Machine

end BareKernel.Kernel
