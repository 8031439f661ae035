import BareKernel.Kernel.CreateProcess
import BareKernel.Userland.CommandLine

/-!
# Lists of processes

`getProcessesInformation` copies the blocks of the live processes into a block of the heap, and ends
them with an entry whose PID is `NONPID`. Four commands of the shell ask for such a list. The model
keeps of a command which entries it reads, what it asks of the heap, and whom it kills.
-/

namespace BareKernel.Shell

open Kernel ProcessState

/-! ## The list -/

/-- An entry of the list: a copy of a block of the table. -/
structure ProcessInfo where
  pid : ℤ
  block : Process
deriving DecidableEq, Repr

/-- `sizeof(Process)`. -/
def processSize : UInt32 := 128

/-- The live processes, in the order of the table. -/
def livePids (processes : ℤ → Process) : List ℤ :=
  pids.filter fun pid => (processes pid).state ≠ EXITED

def getProcessesCount (processes : ℤ → Process) : ℕ := (livePids processes).length

/-- The entry before it is filled; two of its fields keep what the block of the heap held. -/
def clearEntry (old : ProcessInfo) : ProcessInfo where
  pid := nonPid
  block :=
    { old.block with
      name := []
      argc := 0
      priority := 0
      foreground := 0
      entryPoint := 0
      state := EXITED
      waitReturnValue := 0
      waitPid := nonPid
      fds := (0, 1) }

def copyEntry (processes : ℤ → Process) (pid : ℤ) : ProcessInfo := ⟨pid, processes pid⟩

/-- The second loop, from the slot of the first of the given PIDs and the entry `ansIndex` on. -/
def copyLive (processes : ℤ → Process) (count : ℕ) :
    List ℤ → ℕ → (ℕ → ProcessInfo) → ℕ → ProcessInfo
  | [], _, ans => ans
  | pid :: rest, ansIndex, ans =>
      if ansIndex < count ∧ (processes pid).state ≠ EXITED then
        copyLive processes count rest (ansIndex + 1)
          (Function.update ans ansIndex (copyEntry processes pid))
      else copyLive processes count rest ansIndex ans

/-- What stands from the address of the list on; `memory` is what stood there before. -/
def getProcessesInformation (processes : ℤ → Process) (memory : ℕ → ProcessInfo) :
    ℕ → ProcessInfo :=
  let count := getProcessesCount processes
  copyLive processes count pids 0 fun i => if i ≤ count then clearEntry (memory i) else memory i

/-- `(count + 1) * sizeof(Process)`. -/
def listSize (processes : ℤ → Process) : UInt32 :=
  UInt32.ofNat (getProcessesCount processes + 1) * processSize

section Lists

variable {processes : ℤ → Process} {count : ℕ}

theorem copyLive_spec : ∀ {rest : List ℤ} {i : ℕ} {ans : ℕ → ProcessInfo},
    i + (rest.filter fun pid => (processes pid).state ≠ EXITED).length ≤ count → ∀ j,
      copyLive processes count rest i ans j =
        if i ≤ j then
          (((rest.filter fun pid => (processes pid).state ≠ EXITED)[j - i]?).map
            (copyEntry processes)).getD (ans j)
        else ans j := by
  intro rest
  induction rest with
  | nil =>
      intro i ans _ j
      split <;> rfl
  | cons pid rest ih =>
      intro i ans hcount j
      unfold copyLive
      by_cases hlive : (processes pid).state ≠ EXITED
      · have hfilter : (pid :: rest).filter (fun pid => (processes pid).state ≠ EXITED) =
            pid :: rest.filter fun pid => (processes pid).state ≠ EXITED :=
          List.filter_cons_of_pos (decide_eq_true hlive)
        rw [hfilter, List.length_cons] at hcount
        rw [if_pos ⟨by omega, hlive⟩, ih (by omega), hfilter]
        by_cases hj : j = i
        · subst hj
          rw [if_neg (by omega), if_pos le_rfl, Function.update_self, Nat.sub_self]
          rfl
        · rw [Function.update_of_ne hj]
          by_cases hle : i ≤ j
          · rw [if_pos (by omega), if_pos hle, show j - i = j - (i + 1) + 1 by omega,
              List.getElem?_cons_succ]
          · rw [if_neg (by omega), if_neg hle]
      · have hfilter : (pid :: rest).filter (fun pid => (processes pid).state ≠ EXITED) =
            rest.filter fun pid => (processes pid).state ≠ EXITED :=
          List.filter_cons_of_neg (by simpa using hlive)
        rw [hfilter] at hcount ⊢
        rw [if_neg fun h => hlive h.2, ih hcount]

/-- The list holds exactly the live processes, in the order of their PIDs, and one entry more, with
`NONPID`. What stands behind it is as it was. -/
structure Listed (processes : ℤ → Process) (memory entries : ℕ → ProcessInfo) : Prop where
  live : (List.range (getProcessesCount processes)).map entries =
    (livePids processes).map (copyEntry processes)
  ordered : (livePids processes).Pairwise (· < ·)
  terminator : (entries (getProcessesCount processes)).pid = nonPid
  behind : ∀ i > getProcessesCount processes, entries i = memory i

theorem pids_ordered : pids.Pairwise (· < ·) := by
  unfold pids
  rw [List.pairwise_map]
  refine List.pairwise_lt_range.imp fun {a b} h => ?_
  omega

/-- **What `getProcessesInformation` returns.** -/
theorem getProcessesInformation_listed (processes : ℤ → Process) (memory : ℕ → ProcessInfo) :
    Listed processes memory (getProcessesInformation processes memory) := by
  have hspec : ∀ j, getProcessesInformation processes memory j =
      (((livePids processes)[j]?).map (copyEntry processes)).getD
        (if j ≤ getProcessesCount processes then clearEntry (memory j) else memory j) := by
    intro j
    have h := @copyLive_spec processes (getProcessesCount processes) pids 0
      (fun i => if i ≤ getProcessesCount processes then clearEntry (memory i) else memory i)
      (by rw [Nat.zero_add]; exact le_rfl) j
    rw [if_pos (Nat.zero_le j), Nat.sub_zero] at h
    exact h
  refine ⟨?_, pids_ordered.filter _, ?_, fun i hi => ?_⟩
  · apply List.ext_getElem?
    intro j
    rw [List.getElem?_map, List.getElem?_map]
    rcases Nat.lt_or_ge j (livePids processes).length with hlt | hge
    · have hcount : j < getProcessesCount processes := hlt
      rw [List.getElem?_range hcount, Option.map_some, hspec, List.getElem?_eq_getElem hlt]
      rfl
    · rw [List.getElem?_eq_none (by rwa [List.length_range]), List.getElem?_eq_none hge]
      rfl
  · have hnone : (livePids processes)[getProcessesCount processes]? = none :=
      List.getElem?_eq_none le_rfl
    rw [hspec, hnone, if_pos le_rfl]
    rfl
  · have hout : getProcessesCount processes < i := hi
    rw [hspec, List.getElem?_eq_none (Nat.le_of_lt hout), if_neg (by omega)]
    rfl

end Lists

/-! ## The commands -/

/-- The macro `toupper`. -/
def toupper (c : UInt8) : UInt8 := if 97 ≤ c ∧ c ≤ 122 then c - 32 else c

/-- The result of `strcasecmp` is 0. -/
def sameIgnoringCase : CStr → CStr → Bool
  | [], [] => true
  | a :: as, b :: bs => toupper a = toupper b && sameIgnoringCase as bs
  | _, _ => false

/-- The loop of `satoi`, in the arithmetic of `int64_t`. -/
def satoiDigits : CStr → Int64 → Int64
  | [], res => res
  | c :: cs, res =>
      if c < 48 ∨ c > 57 then 0 else satoiDigits cs (res * 10 + (c - 48).toUInt64.toInt64)

def satoi (str : CStr) : Int64 :=
  match str with
  | 45 :: digits => satoiDigits digits 0 * -1
  | digits => satoiDigits digits 0

/-- What a command finds when it asks for a list: the process it runs in, the table, what stands in
memory from the block of the list on, and the heap. -/
structure Env (σ : Type) where
  self : ℤ
  processes : ℤ → Process
  memory : ℕ → ProcessInfo
  session : Session σ

/-- What a command did with one list: the entries it read, how many there are, and the processes it
killed. What a `kill` gives back belongs to the process that is killed. -/
structure Use (σ : Type) where
  reads : List ℕ
  length : ℕ
  killed : List ℤ
  client : Client σ

namespace Env

variable {σ : Type} (M : Manager σ) (E : Env σ)

def entries : ℕ → ProcessInfo := getProcessesInformation E.processes E.memory

/-- The command is done without a list. -/
def without (killed : List ℤ) : Use σ := ⟨[], 0, killed, .start E.session⟩

/-- The entries that are read by a loop that goes on until one of them stops it. -/
def scan (stop : ProcessInfo → Bool) : ℕ → ℕ → Option (List ℕ)
  | 0, _ => none
  | fuel + 1, i => if stop (E.entries i) then some [i] else (scan stop fuel (i + 1)).map (i :: ·)

/-- The list is asked for, and `body` goes on with its address. -/
def withList (body : ℕ → Client σ → Option (Use σ)) : Option (Use σ) :=
  ((Client.start E.session).alloc M (listSize E.processes)).bind fun (p, k) =>
    if p = NULL then some ⟨[], 0, [], k⟩ else body p k

def ends (e : ProcessInfo) : Bool := e.pid = nonPid

def ps (fuel : ℕ) : Option (Use σ) :=
  E.withList M fun p k => (E.scan ends fuel 0).bind fun reads => (k.free M p).map fun k =>
    ⟨reads, getProcessesCount E.processes + 1, [], k⟩

/-- `kill all`: neither `init` nor the shell is killed, and the list is not given back. -/
def killAll (fuel : ℕ) : Option (Use σ) :=
  E.withList M fun _ k => (E.scan ends fuel 0).map fun reads =>
    ⟨reads, getProcessesCount E.processes + 1,
      (reads.map fun i => (E.entries i).pid).filter fun pid =>
        pid ≠ nonPid ∧ pid ≠ initPid ∧ pid ≠ E.self, k⟩

def allWord : CStr := [97, 108, 108]

def killCmd (argv : List CStr) (fuel : ℕ) : Option (Use σ) :=
  match argv[1]? with
  | none => some (E.without [])
  | some arg =>
      if sameIgnoringCase arg allWord then E.killAll M fuel
      else
        let pid := (satoi arg).toInt
        if pid ≤ 0 ∨ pid = initPid ∨ pid = E.self then some (E.without [])
          else some (E.without [pid])

/-- `block`: the loop looks for a PID of 0 as its end, and the list is not given back. -/
def blockCmd (argv : List CStr) (fuel : ℕ) : Option (Use σ) :=
  match argv[1]? with
  | none => some (E.without [])
  | some arg =>
      let pid := (satoi arg).toInt
      if pid ≤ 0 ∨ pid = initPid ∨ pid = E.self then some (E.without [])
      else
        E.withList M fun _ k => (E.scan (fun e => e.pid = 0 ∨ e.pid = pid) fuel 0).map fun reads =>
          ⟨reads, getProcessesCount E.processes + 1, [], k⟩

/-- A round of `loop_ps`, which stops at the shell. -/
def loopPsRound (fuel : ℕ) : Option (Use σ) :=
  E.withList M fun p k => (E.scan (fun e => ends e || e.pid = shellPid) fuel 0).bind fun reads =>
    (k.free M p).map fun k => ⟨reads, getProcessesCount E.processes + 1, [], k⟩

end Env

/-- The commands that ask for a list. -/
inductive ListCommand : Type where
  | ps
  | kill
  | block
  | loopPs
deriving DecidableEq, Repr

/-- `loop_ps` asks for a list in each of its 20 rounds, and finds what the other processes did in
between. -/
def runCommand {σ : Type} (M : Manager σ) (rounds : ℕ → Env σ) (fuel : ℕ) (argv : List CStr) :
    ListCommand → Option (List (Use σ))
  | .ps => ((rounds 0).ps M fuel).map ([·])
  | .kill => ((rounds 0).killCmd M argv fuel).map ([·])
  | .block => ((rounds 0).blockCmd M argv fuel).map ([·])
  | .loopPs => (List.range 20).mapM fun n => (rounds n).loopPsRound M fuel

/-! ## The law -/

/-- Only entries of the list were read, and what was obtained has been given back. -/
structure Use.Clean {σ : Type} (u : Use σ) : Prop where
  inside : ∀ i ∈ u.reads, i < u.length
  released : (u.client.freed.filter fun p => p ≠ NULL).Perm u.client.obtained

/-- Every list is right, the command returns, and it was clean with every list it got. -/
def UsesLists {σ : Type} (M : Manager σ) (rounds : ℕ → Env σ) (argv : List CStr)
    (c : ListCommand) : Prop :=
  (∀ n, Listed (rounds n).processes (rounds n).memory (rounds n).entries) ∧
    ∃ fuel uses, runCommand M rounds fuel argv c = some uses ∧ ∀ u ∈ uses, u.Clean

/-- The command does not get as far as the list. -/
def Declines (self : ℤ) (argv : List CStr) : ListCommand → Prop
  | .kill => ∀ arg, argv[1]? = some arg → sameIgnoringCase arg Env.allWord = false
  | .block => ∀ arg, argv[1]? = some arg →
      (satoi arg).toInt ≤ 0 ∨ (satoi arg).toInt = initPid ∨ (satoi arg).toInt = self
  | _ => False

/-- The heap has no block for the list. -/
def Refuses {σ : Type} (M : Manager σ) (E : Env σ) : Prop :=
  ∃ s, E.session.alloc M (listSize E.processes) = some (NULL, s)

section Facts

variable {σ : Type} {M : Manager σ} {ok : UInt32 → Prop} {I : Session σ → Prop} {E : Env σ}

theorem Env.listed (E : Env σ) : Listed E.processes E.memory E.entries :=
  getProcessesInformation_listed E.processes E.memory

/-- A loop that is stopped at the entry `m`, and not before. -/
theorem scan_stops {stop : ProcessInfo → Bool} {m : ℕ} (hstop : stop (E.entries m) = true) :
    ∀ {d i : ℕ}, i + d = m → (∀ j, i ≤ j → j < m → stop (E.entries j) = false) →
      E.scan stop (d + 1) i = some (List.range' i (d + 1)) := by
  intro d
  induction d with
  | zero =>
      intro i hi _
      obtain rfl : i = m := hi
      unfold Env.scan
      rw [if_pos hstop]
      rfl
  | succ d ih =>
      intro i hi hgo
      rw [Env.scan, if_neg (by rw [hgo i le_rfl (by omega)]; decide),
        ih (by omega) fun j hj hlt => hgo j (by omega) hlt]
      rfl

/-- Where a loop stops that stops at the terminator, or before: it reads no entry behind it. -/
theorem scan_inside {stop : ProcessInfo → Bool}
    (hstop : ∀ e : ProcessInfo, e.pid = nonPid → stop e = true) :
    ∃ fuel reads, E.scan stop fuel 0 = some reads ∧
      fuel ≤ getProcessesCount E.processes + 1 ∧
        ∀ i ∈ reads, i < getProcessesCount E.processes + 1 := by
  classical
  have hlast : stop (E.entries (getProcessesCount E.processes)) = true :=
    hstop _ E.listed.terminator
  have hex : ∃ m, stop (E.entries m) = true := ⟨_, hlast⟩
  have hfirst := Nat.find_spec hex
  have hmin : ∀ j, 0 ≤ j → j < Nat.find hex → stop (E.entries j) = false := fun j _ hj => by
    simpa using Nat.find_min hex hj
  have hle : Nat.find hex ≤ getProcessesCount E.processes := Nat.find_min' hex hlast
  refine ⟨Nat.find hex + 1, _, scan_stops hfirst (Nat.zero_add _) hmin, by omega, fun i hi => ?_⟩
  rw [List.mem_range'_1] at hi
  omega

/-- More rounds than needed change nothing. -/
theorem scan_mono {stop : ProcessInfo → Bool} : ∀ {fuel more i : ℕ} {reads : List ℕ},
    fuel ≤ more → E.scan stop fuel i = some reads → E.scan stop more i = some reads
  | 0, _, _, _, _, h => by cases h
  | fuel + 1, 0, _, _, hle, _ => absurd hle (by omega)
  | fuel + 1, more + 1, i, reads, hle, h => by
      unfold Env.scan at h ⊢
      split
      · rename_i hstop
        rw [if_pos hstop] at h
        exact h
      · rename_i hgo
        rw [if_neg hgo] at h
        obtain ⟨rest, hrest, rfl⟩ := Option.map_eq_some_iff.mp h
        rw [scan_mono (by omega) hrest]
        rfl

theorem count_le (processes : ℤ → Process) : getProcessesCount processes ≤ 100 := by
  have hle : (livePids processes).length ≤ pids.length := List.length_filter_le _ _
  have hlength : pids.length = 100 := by
    unfold pids
    rw [List.length_map, List.length_range]
  exact hle.trans hlength.le

/-- What comes of asking for a list. -/
theorem withList_cases (hM : Honest M ok I) (hI : I E.session) (hok : ok (listSize E.processes))
    (body : ℕ → Client σ → Option (Use σ)) :
    (Refuses M E ∧ ∃ k, E.withList M body = some ⟨[], 0, [], k⟩ ∧ k.freed = [] ∧ k.obtained = []) ∨
      ¬Refuses M E ∧ ∃ p k, p ≠ NULL ∧ E.withList M body = body p k ∧ k.freed = [] ∧
        k.obtained = [p] ∧ ∃ k', k.free M p = some k' ∧ k'.freed = [p] ∧ k'.obtained = [p] := by
  obtain ⟨p, t, halloc, ht, -, hserved⟩ := hM.alloc hI hok
  have hcall : (Client.start E.session).alloc M (listSize E.processes) =
      some (p, ⟨t, if p = NULL then [] else [p], [], []⟩) := by
    unfold Client.alloc Client.start
    rw [halloc]
    rfl
  unfold Env.withList
  rw [hcall, Option.bind_some]
  by_cases hp : p = NULL
  · subst hp
    exact .inl ⟨⟨t, halloc⟩, _, rfl, rfl, rfl⟩
  · right
    refine ⟨fun hrefuses => ?_, p, ⟨t, [p], [], []⟩, hp, ?_, rfl, rfl, ?_⟩
    · obtain ⟨s, hs⟩ := hrefuses
      exact hp (Prod.mk.inj (Option.some.inj (halloc.symm.trans hs))).1
    · dsimp only
      rw [if_neg hp, if_neg hp]
    · have hlive := Session.alloc_live halloc
      rw [if_neg hp] at hlive
      have hmem : p ∈ t.live.map Prod.fst := by
        rw [hlive]
        exact List.mem_cons_self
      obtain ⟨u, hfree, -⟩ := hM.free ht hmem
      refine ⟨⟨u, [p], [p], []⟩, ?_, rfl, rfl⟩
      unfold Client.free
      rw [hfree]
      rfl

/-- **A list that is given back** is used cleanly. -/
theorem release_clean (hM : Honest M ok I) (hI : I E.session) (hok : ok (listSize E.processes))
    {stop : ProcessInfo → Bool} (hstop : ∀ e : ProcessInfo, e.pid = nonPid → stop e = true) :
    ∃ u : Use σ, (E.withList M fun p k => (E.scan stop 101 0).bind fun reads =>
      (k.free M p).map fun k => ⟨reads, getProcessesCount E.processes + 1, [], k⟩) = some u ∧
        u.Clean := by
  obtain ⟨fuel, reads, hscan, hfuel, hinside⟩ := scan_inside (E := E) hstop
  have hcount := count_le E.processes
  have hreads := scan_mono (show fuel ≤ 101 by omega) hscan
  rw [hreads]
  rcases withList_cases hM hI hok (fun p k => (some reads).bind fun reads =>
      (k.free M p).map fun k => (⟨reads, getProcessesCount E.processes + 1, [], k⟩ : Use σ)) with
    ⟨-, k, hcall, hfreed, hobtained⟩ | ⟨-, p, k, hp, hcall, -, -, k', hfree, hfreed, hobtained⟩
  · refine ⟨_, hcall, fun i hi => absurd hi List.not_mem_nil, ?_⟩
    dsimp only
    rw [hfreed, hobtained]
    exact List.Perm.nil
  · rw [hcall, Option.bind_some, hfree]
    refine ⟨_, rfl, hinside, ?_⟩
    dsimp only
    rw [hfreed, hobtained]
    simp [hp]

/-- **A list that is kept** is not, unless there is none. -/
theorem keep_clean (hM : Honest M ok I) (hI : I E.session) (hok : ok (listSize E.processes))
    {a : Option (List ℕ × List ℤ)} {u : Use σ}
    (hu : (E.withList M fun _ k => a.map fun a =>
      ⟨a.1, getProcessesCount E.processes + 1, a.2, k⟩) = some u)
    (hclean : u.Clean) : Refuses M E := by
  rcases withList_cases hM hI hok (fun _ k => a.map fun a =>
      (⟨a.1, getProcessesCount E.processes + 1, a.2, k⟩ : Use σ)) with
    ⟨hrefuses, -⟩ | ⟨-, p, k, hp, hcall, hfreed, hobtained, -⟩
  · exact hrefuses
  · exfalso
    rw [hcall] at hu
    obtain ⟨a, -, rfl⟩ := Option.map_eq_some_iff.mp hu
    have hperm := hclean.released
    dsimp only at hperm
    rw [hfreed, hobtained] at hperm
    exact absurd hperm.length_eq (by simp)

theorem killAll_clean (hM : Honest M ok I) (hI : I E.session) (hok : ok (listSize E.processes))
    {t : ℕ} {u : Use σ} (hu : E.killAll M t = some u) (hclean : u.Clean) : Refuses M E := by
  have hkeep : E.killAll M t = E.withList M fun _ k => ((E.scan Env.ends t 0).map fun reads =>
      (reads, (reads.map fun i => (E.entries i).pid).filter fun pid =>
        pid ≠ nonPid ∧ pid ≠ initPid ∧ pid ≠ E.self)).map fun a =>
          ⟨a.1, getProcessesCount E.processes + 1, a.2, k⟩ := by
    unfold Env.killAll
    simp only [Option.map_map]
    rfl
  exact keep_clean hM hI hok (hkeep ▸ hu) hclean

theorem block_clean (hM : Honest M ok I) (hI : I E.session) (hok : ok (listSize E.processes))
    {argv : List CStr} {arg : CStr} {t : ℕ} {u : Use σ} (harg : argv[1]? = some arg)
    (hpid : ¬((satoi arg).toInt ≤ 0 ∨ (satoi arg).toInt = initPid ∨ (satoi arg).toInt = E.self))
    (hu : E.blockCmd M argv t = some u) (hclean : u.Clean) : Refuses M E := by
  have hkeep : E.blockCmd M argv t = E.withList M fun _ k =>
      ((E.scan (fun e => e.pid = 0 ∨ e.pid = (satoi arg).toInt) t 0).map fun reads =>
        (reads, [])).map fun a => ⟨a.1, getProcessesCount E.processes + 1, a.2, k⟩ := by
    unfold Env.blockCmd
    rw [harg]
    dsimp only
    rw [if_neg hpid]
    simp only [Option.map_map]
    rfl
  exact keep_clean hM hI hok (hkeep ▸ hu) hclean

theorem refused_clean (hM : Honest M ok I) (hI : I E.session) (hok : ok (listSize E.processes))
    (hrefuses : Refuses M E) (body : ℕ → Client σ → Option (Use σ)) :
    ∃ u : Use σ, E.withList M body = some u ∧ u.Clean := by
  rcases withList_cases hM hI hok body with ⟨-, k, hcall, hfreed, hobtained⟩ | ⟨hno, -⟩
  · refine ⟨_, hcall, fun i hi => absurd hi List.not_mem_nil, ?_⟩
    dsimp only
    rw [hfreed, hobtained]
    exact List.Perm.nil
  · exact absurd hrefuses hno

theorem without_clean (E : Env σ) (killed : List ℤ) : (E.without killed).Clean :=
  ⟨fun _ hi => absurd hi List.not_mem_nil, List.Perm.nil⟩

theorem mapM_clean {rounds : ℕ → Option (Use σ)} : ∀ {l : List ℕ},
    (∀ n, ∃ u, rounds n = some u ∧ u.Clean) → ∃ uses, l.mapM rounds = some uses ∧
      ∀ u ∈ uses, u.Clean
  | [], _ => ⟨[], rfl, fun _ hu => absurd hu List.not_mem_nil⟩
  | n :: l, h => by
      obtain ⟨u, hu, hclean⟩ := h n
      obtain ⟨uses, huses, hall⟩ := mapM_clean (l := l) h
      refine ⟨u :: uses, by rw [List.mapM_cons, hu, huses]; rfl, fun v hv => ?_⟩
      rcases List.mem_cons.mp hv with rfl | hv
      · exact hclean
      · exact hall v hv

/-- One use, or none. -/
theorem single_clean {use : ℕ → Option (Use σ)} :
    (∃ fuel uses, (use fuel).map ([·]) = some uses ∧ ∀ u ∈ uses, u.Clean) ↔
      ∃ fuel u, use fuel = some u ∧ u.Clean := by
  constructor
  · rintro ⟨fuel, uses, huses, hall⟩
    obtain ⟨u, hu, rfl⟩ := Option.map_eq_some_iff.mp huses
    exact ⟨fuel, u, hu, hall u (List.mem_singleton_self u)⟩
  · rintro ⟨fuel, u, hu, hclean⟩
    refine ⟨fuel, [u], by rw [hu]; rfl, fun v hv => ?_⟩
    rw [List.mem_singleton.mp hv]
    exact hclean

/-- **Lists are used cleanly** by `ps` and `loop_ps`, and by `kill` and `block` exactly when they
do not get as far as the list, or there is none. -/
theorem usesLists_iff (M : Manager σ) (ok : UInt32 → Prop) (I : Session σ → Prop)
    (hM : Honest M ok I) (rounds : ℕ → Env σ) (hI : ∀ n, I (rounds n).session)
    (hok : ∀ n, ok (listSize (rounds n).processes)) (argv : List CStr) (c : ListCommand) :
    UsesLists M rounds argv c ↔
      c = .ps ∨ c = .loopPs ∨ Declines (rounds 0).self argv c ∨ Refuses M (rounds 0) := by
  unfold UsesLists
  rw [and_iff_right fun n => (rounds n).listed]
  cases c with
  | ps =>
      refine ⟨fun _ => .inl rfl, fun _ => ?_⟩
      exact single_clean.mpr ⟨101, release_clean hM (hI 0) (hok 0) fun e he => decide_eq_true he⟩
  | loopPs =>
      refine ⟨fun _ => .inr (.inl rfl), fun _ => ⟨101, ?_⟩⟩
      exact mapM_clean fun n => release_clean hM (hI n) (hok n) fun e he => by
        simp [Env.ends, he]
  | kill =>
      rw [or_iff_right (by decide), or_iff_right (by decide)]
      change (∃ fuel uses, ((rounds 0).killCmd M argv fuel).map ([·]) = some uses ∧ _) ↔ _
      rw [single_clean]
      unfold Env.killCmd Declines
      cases argv[1]? with
      | none =>
          refine ⟨fun _ => .inl fun arg harg => (by cases harg), fun _ => ?_⟩
          exact ⟨0, _, rfl, without_clean _ _⟩
      | some arg =>
          by_cases hall : sameIgnoringCase arg Env.allWord = true
          · simp only [if_pos hall]
            constructor
            · rintro ⟨fuel, u, hu, hclean⟩
              exact .inr (killAll_clean hM (hI 0) (hok 0) hu hclean)
            · rintro (hdeclines | hrefuses)
              · rw [hdeclines arg rfl] at hall
                cases hall
              · exact ⟨0, refused_clean hM (hI 0) (hok 0) hrefuses _⟩
          · simp only [if_neg hall]
            rw [Bool.not_eq_true] at hall
            refine ⟨fun _ => .inl fun arg' harg => ?_, fun _ => ⟨0, ?_⟩⟩
            · rw [← Option.some.inj harg]
              exact hall
            · split
              · exact ⟨_, rfl, without_clean _ _⟩
              · exact ⟨_, rfl, without_clean _ _⟩
  | block =>
      rw [or_iff_right (by decide), or_iff_right (by decide)]
      change (∃ fuel uses, ((rounds 0).blockCmd M argv fuel).map ([·]) = some uses ∧ _) ↔ _
      rw [single_clean]
      unfold Declines
      cases harg : argv[1]? with
      | none =>
          refine ⟨fun _ => .inl fun arg harg => (by cases harg), fun _ => ?_⟩
          exact ⟨0, _, by unfold Env.blockCmd; rw [harg], without_clean _ _⟩
      | some arg =>
          by_cases hpid : (satoi arg).toInt ≤ 0 ∨ (satoi arg).toInt = initPid ∨
              (satoi arg).toInt = (rounds 0).self
          · refine ⟨fun _ => .inl fun arg' harg' => ?_, fun _ =>
              ⟨0, (rounds 0).without [], ?_, without_clean _ _⟩⟩
            · rw [← Option.some.inj harg']
              exact hpid
            · unfold Env.blockCmd
              rw [harg]
              exact if_pos hpid
          · constructor
            · rintro ⟨fuel, u, hu, hclean⟩
              exact .inr (block_clean hM (hI 0) (hok 0) harg hpid hu hclean)
            · rintro (hdeclines | hrefuses)
              · exact absurd (hdeclines arg rfl) hpid
              · obtain ⟨u, hu, hclean⟩ := refused_clean hM (hI 0) (hok 0) hrefuses fun _ k =>
                  ((rounds 0).scan (fun e => e.pid = 0 ∨ e.pid = (satoi arg).toInt) 0 0).map
                    fun reads =>
                      ⟨reads, getProcessesCount (rounds 0).processes + 1, [], k⟩
                refine ⟨0, u, ?_, hclean⟩
                rw [← hu]
                unfold Env.blockCmd
                rw [harg]
                exact if_neg hpid

end Facts

/-- Only `init` and the shell, which runs, and a heap that has room. -/
def shellEnv : Env ScriptedHeap where
  self := shellPid
  processes := fun pid =>
    { Machine.emptyProcess with
      state := if pid = initPid then READY else if pid = shellPid then RUNNING else EXITED }
  memory := fun _ => ⟨nonPid, Machine.emptyProcess⟩
  session := plenty

theorem usesLists_shell :
    UsesLists ScriptedHeap.manager (fun _ => shellEnv) [[112, 115]] .ps :=
  (usesLists_iff ScriptedHeap.manager (fun _ => True) Scripted scripted_honest (fun _ => shellEnv)
    (fun _ => plenty_scripted) (fun _ => trivial) [[112, 115]] .ps).mpr (.inl rfl)

theorem shellEnv_served : ¬Refuses ScriptedHeap.manager shellEnv := by
  rintro ⟨s, hs⟩
  have hplace : (shellEnv.session.alloc ScriptedHeap.manager (listSize shellEnv.processes)).map
      Prod.fst = some (2 ^ 32) := by decide +kernel
  rw [hs] at hplace
  have hnull : NULL = 2 ^ 32 := Option.some.inj hplace
  exact absurd hnull (by decide)

/-- `block 3`, where there is no process 3. -/
theorem block_keeps_list : ¬UsesLists ScriptedHeap.manager (fun _ => shellEnv)
    [[98, 108, 111, 99, 107], [51]] .block := by
  rintro ⟨-, t, uses, huses, hall⟩
  obtain ⟨u, hu, rfl⟩ := Option.map_eq_some_iff.mp huses
  exact shellEnv_served (block_clean scripted_honest plenty_scripted trivial rfl (by decide +kernel)
    hu (hall u (List.mem_singleton_self u)))

end BareKernel.Shell
