/-
Leeloo.FileStore — `dump_to_file` and `read_from_file` of
`list_intervals.h` on a file system: files as a store of lists.

Both functions open a descriptor, hand it to `dump_to_fd` or
`read_from_fd`, and close it; an exception of the latter passes by the
`close`. So a call that throws behind its `open` leaves one descriptor in
use for good, and every other call leaves the table as it was
(`dumpToFile_cases`, `readFromFile_cases`).

`Journal` says what the store is for: a name stands for the list that was
dumped last, or for as much of it as a dump that threw has left
(`Sound.run`). Whatever the system refuses or cuts short, a read that
returns gives just that (`fileStore_run`). What is left of a list may end
with a record, and is then read as a shorter list.
-/
import Leeloo.FileDescriptor
import Leeloo.Lib.FileSystem

namespace Leeloo

open FileSystem HalfOpen

variable {w t : Nat} {N : Type} [DecidableEq N]

/-! ## The calls -/

/-- What the system does during one call: whether `open` and the two
`lseek`s succeed, the most bytes that a transfer moves, and what a buffer
holds beforehand. -/
structure Faults where
  openOk : Bool := true
  endOk : Bool := true
  startOk : Bool := true
  most : Option Nat
  memory : List (BitVec 8) := []

/-- No call fails, and a transfer moves `size` bytes at once. -/
structure Faults.Clean (f : Faults) (size : Nat) : Prop where
  openOk : f.openOk = true
  endOk : f.endOk = true
  startOk : f.startOk = true
  most : ∃ most, f.most = some most ∧ size ≤ most

namespace FileStore

/-- The answers of the system on descriptor `fd`. -/
def callsOn (s : State N) (fd : Nat) (f : Faults) : FileCalls where
  write bytes := (writeFile s fd bytes f.most).1
  seekEnd := (seekEnd s fd f.endOk).1
  seekSet := (seekStart (seekEnd s fd f.endOk).2 fd f.startOk).1
  read n :=
    let s := (seekStart (seekEnd s fd f.endOk).2 fd f.startOk).2
    let (r, got, _) := readFile s fd n f.most
    (r, got ++ (f.memory.take n).drop got.length)

/-- `dump_to_file`. -/
def dumpToFile (f : Faults) (name : N) (l : ListIntervals w t) (s : State N) :
    Except FileError Unit × State N :=
  match openFile s name .truncate f.openOk with
  | (none, s) => (.error .file, s)
  | (some fd, s) =>
    let written := (writeFile s fd (l.intervals.flatMap recordBytes) f.most).2
    match l.dumpToFd fd (callsOn s fd f) with
    | .error e => (.error e, written)
    | .ok _ => (.ok (), closeFile written fd)

/-- The system after `read_from_fd`, which ends at the first call that
fails. -/
def afterRead (w : Nat) (s : State N) (fd : Nat) (f : Faults) : State N :=
  let (size, s) := seekEnd s fd f.endOk
  if size = -1 then s
  else
    let (start, s) := seekStart s fd f.startOk
    if start = -1 then s
    else
      let bytes := (BitVec.ofInt 64 size).toNat
      if bytes % recordSize w ≠ 0 then s else (readFile s fd bytes f.most).2.2

/-- `read_from_file`: whether it throws, the list after it, and the
system. -/
def readFromFile (f : Faults) (name : N) (l : ListIntervals w t) (s : State N) :
    Except FileError Unit × ListIntervals w t × State N :=
  match openFile s name .readOnly f.openOk with
  | (none, s) => (.error .file, l, s)
  | (some fd, s) =>
    match l.readFromFd (callsOn s fd f) with
    | (.error e, l) => (.error e, l, afterRead w s fd f)
    | (.ok _, l) => (.ok (), l, closeFile (afterRead w s fd f) fd)

/-! ## What a call leaves -/

/-- **A dump**: refused and without effect; or returned, with the records
in the file and the descriptors as they were; or thrown, with a part of the
records in the file and one more descriptor in use. -/
theorem dumpToFile_cases (f : Faults) (name : N) (l : ListIntervals w t) (s : State N) :
    ((openFile s name .truncate f.openOk).1 = none ∧
        dumpToFile f name l s = (.error .file, s)) ∨
      ∃ fd, s.freeFd = some fd ∧ (openFile s name .truncate f.openOk).1 = some fd ∧
        (dumpToFile f name l s = (.ok (), s.setFile name (l.intervals.flatMap recordBytes)) ∨
          ∃ h n, dumpToFile f name l s = (.error .file,
            (s.setFile name ((l.intervals.flatMap recordBytes).take n)).setHandle fd
              (some h))) := by
  obtain hopen | ⟨fd, hfd, ⟨-, hopen⟩ | ⟨hmode, -⟩⟩ := openFile_cases s name .truncate f.openOk
  · left
    rw [dumpToFile, hopen]
    exact ⟨rfl, rfl⟩
  · right
    obtain ⟨n, h, hcount, hstate⟩ :=
      writeFile_fresh s name (lt_of_freeFd hfd) (l.intervals.flatMap recordBytes) f.most
    refine ⟨fd, hfd, by rw [hopen], ?_⟩
    have hrun : dumpToFile f name l s =
        match l.dumpToFd fd (callsOn ((s.setFile name []).setHandle fd (some ⟨name, 0⟩)) fd f) with
        | .error e =>
          (.error e, (s.setFile name ((l.intervals.flatMap recordBytes).take n)).setHandle fd
            (some h))
        | .ok _ =>
          (.ok (), closeFile ((s.setFile name ((l.intervals.flatMap recordBytes).take n)).setHandle
            fd (some h)) fd) := by
      rw [dumpToFile, hopen]
      simp only [hstate]
    replace hcount : (callsOn ((s.setFile name []).setHandle fd (some ⟨name, 0⟩)) fd f).write
          (l.intervals.flatMap recordBytes) = -1 ∨
        (callsOn ((s.setFile name []).setHandle fd (some ⟨name, 0⟩)) fd f).write
          (l.intervals.flatMap recordBytes) =
            (((l.intervals.flatMap recordBytes).take n).length : Int) := hcount
    rw [hrun, ListIntervals.dumpToFd, if_neg (by omega)]
    by_cases hall : n < (l.intervals.flatMap (recordBytes (w := w))).length
    · right
      refine ⟨h, n, ?_⟩
      have hlen : ((l.intervals.flatMap recordBytes).take n).length = n := by
        rw [List.length_take]
        omega
      rw [hlen] at hcount
      simp only
      rw [if_pos (by omega)]
    · have htake : (l.intervals.flatMap recordBytes).take n = l.intervals.flatMap recordBytes :=
        List.take_of_length_le (by omega)
      rw [htake] at hcount ⊢
      obtain hcount | hcount := hcount
      · right
        refine ⟨h, n, ?_⟩
        simp only
        rw [if_pos (by omega), htake]
      · left
        simp only
        rw [if_neg (by omega)]
        simp only [closeFile, setHandle_setHandle]
        rw [← setHandle_setHandle (s.setFile name _) fd (some h) none,
          setHandle_setHandle_none (s := s.setFile name _) hfd]
  · cases hmode

omit [DecidableEq N] in
/-- The calls on an open file do not change files, and keep its
descriptor. -/
theorem afterRead_eq (w : Nat) (s : State N) {fd : Nat} (hfd : fd < s.table.length) (h : Handle N)
    (f : Faults) : ∃ h', afterRead w (s.setHandle fd (some h)) fd f = s.setHandle fd (some h') := by
  have hhandle : ∀ o : Handle N, (s.setHandle fd (some o)).handle fd = some o := fun o =>
    handle_setHandle hfd _
  have hend : ∃ h', (seekEnd (s.setHandle fd (some h)) fd f.endOk).2 =
      s.setHandle fd (some h') := by
    unfold seekEnd
    rw [hhandle]
    cases f.endOk with
    | true => exact ⟨_, setHandle_setHandle s fd _ _⟩
    | false => exact ⟨h, rfl⟩
  have hstart : ∀ o : Handle N, ∃ h', (seekStart (s.setHandle fd (some o)) fd f.startOk).2 =
      s.setHandle fd (some h') := by
    intro o
    unfold seekStart
    rw [hhandle]
    cases f.startOk with
    | true => exact ⟨_, setHandle_setHandle s fd _ _⟩
    | false => exact ⟨o, rfl⟩
  have hread : ∀ (o : Handle N) (n : Nat), ∃ h',
      (readFile (s.setHandle fd (some o)) fd n f.most).2.2 = s.setHandle fd (some h') := by
    intro o n
    unfold readFile
    rw [hhandle]
    cases f.most with
    | none => exact ⟨o, rfl⟩
    | some most => exact ⟨_, setHandle_setHandle s fd _ _⟩
  obtain ⟨h1, h1eq⟩ := hend
  obtain ⟨h2, h2eq⟩ := hstart h1
  unfold afterRead
  simp only [h1eq, h2eq]
  split_ifs
  · exact ⟨h1, rfl⟩
  · exact ⟨h2, rfl⟩
  · exact ⟨h2, rfl⟩
  · exact hread h2 _

/-- The answers of `lseek` and `read` on a descriptor of a file that holds
`bytes`. -/
structure Answers (calls : FileCalls) (f : Faults) (bytes : List (BitVec 8)) : Prop where
  seekEnd : calls.seekEnd = if f.endOk then (bytes.length : Int) else -1
  seekSet : f.endOk = true → calls.seekSet = if f.startOk then 0 else -1
  readFails : f.endOk = true → f.startOk = true → f.most = none → ∀ n, (calls.read n).1 = -1
  read : f.endOk = true → f.startOk = true → ∀ most, f.most = some most → ∀ n,
    calls.read n = ((((bytes.take n).take most).length : Int),
      (bytes.take n).take most ++ (f.memory.take n).drop ((bytes.take n).take most).length)

theorem callsOn_answers {s : State N} {name : N} {bytes : List (BitVec 8)}
    (hfile : s.files name = some bytes) {fd : Nat} (hfd : fd < s.table.length) (f : Faults) :
    Answers (callsOn (s.setHandle fd (some ⟨name, 0⟩)) fd f) f bytes := by
  have hhandle : ∀ o : Handle N, (s.setHandle fd (some o)).handle fd = some o := fun o =>
    handle_setHandle hfd _
  have hfiles : ∀ o : Option (Handle N), (s.setHandle fd o).files name = some bytes :=
    fun o => hfile
  have hmoved : f.endOk = true → (seekEnd (s.setHandle fd (some ⟨name, 0⟩)) fd f.endOk).2 =
      s.setHandle fd (some ⟨name, bytes.length⟩) := by
    intro hok
    unfold seekEnd
    rw [hhandle, hok]
    simp [hfiles, setHandle_setHandle]
  have hback : f.startOk = true →
      seekStart (s.setHandle fd (some ⟨name, bytes.length⟩)) fd f.startOk =
        (0, s.setHandle fd (some ⟨name, 0⟩)) := by
    intro hok
    unfold seekStart
    rw [hhandle, hok]
    simp [setHandle_setHandle]
  have hread : f.endOk = true → f.startOk = true → ∀ n,
      (callsOn (s.setHandle fd (some ⟨name, 0⟩)) fd f).read n =
        ((readFile (s.setHandle fd (some ⟨name, 0⟩)) fd n f.most).1,
          (readFile (s.setHandle fd (some ⟨name, 0⟩)) fd n f.most).2.1 ++ (f.memory.take n).drop
            (readFile (s.setHandle fd (some ⟨name, 0⟩)) fd n f.most).2.1.length) := by
    intro hend hstart n
    simp only [callsOn]
    rw [hmoved hend, hback hstart]
  refine ⟨?_, ?_, ?_, ?_⟩
  · show (seekEnd (s.setHandle fd (some ⟨name, 0⟩)) fd f.endOk).1 = _
    unfold seekEnd
    rw [hhandle]
    cases f.endOk with
    | true => simp [hfiles]
    | false => rfl
  · intro hend
    show (seekStart (seekEnd (s.setHandle fd (some ⟨name, 0⟩)) fd f.endOk).2 fd f.startOk).1 = _
    rw [hmoved hend]
    unfold seekStart
    rw [hhandle]
    cases f.startOk with
    | true => rfl
    | false => rfl
  · intro hend hstart hmost n
    rw [hread hend hstart, hmost]
    unfold readFile
    rw [hhandle]
  · intro hend hstart most hmost n
    rw [hread hend hstart, hmost]
    unfold readFile
    rw [hhandle]
    simp [hfiles]

/-- What `read_from_fd` makes of a file, whatever the system does: when it
returns, the list holds the records of the whole file. -/
theorem readFromFd_returns {calls : FileCalls} {f : Faults} {bytes : List (BitVec 8)}
    (hcalls : Answers calls f bytes) {l : ListIntervals w t}
    (h : (l.readFromFd calls).1 = .ok ()) :
    bytes.length % recordSize w = 0 ∧ (l.readFromFd calls).2 =
      { l.clear with intervals := records w (bytes.length / recordSize w) bytes } := by
  have hreach : ListIntervals.ReachesRead w calls := by
    by_contra hno
    obtain ⟨⟨e, he⟩, -⟩ := ListIntervals.readFromFd_of_not_reaches hno l
    rw [h] at he
    cases he
  have hendOk : f.endOk = true := by
    by_contra hno
    exact hreach.seekEnd (by rw [hcalls.seekEnd, if_neg hno])
  have hstartOk : f.startOk = true := by
    by_contra hno
    exact hreach.seekSet (by rw [hcalls.seekSet hendOk, if_neg hno])
  have hend : calls.seekEnd = bytes.length := by rw [hcalls.seekEnd, if_pos hendOk]
  have hsize := hreach.size
  rw [ListIntervals.readFromFd_of_reaches hreach, ListIntervals.recordsRead]
  rw [hend, BitVec.ofInt_natCast, BitVec.toNat_ofNat] at hsize ⊢
  -- the transfer is complete, for its count is compared with the size
  have hcount : (calls.read (bytes.length % 2 ^ 64)).1 = bytes.length := by
    by_contra hno
    unfold ListIntervals.readFromFd at h
    simp only [hend, BitVec.ofInt_natCast, BitVec.toNat_ofNat] at h
    split_ifs at h
  cases hmost : f.most with
  | none =>
    rw [hcalls.readFails hendOk hstartOk hmost] at hcount
    omega
  | some most =>
    rw [hcalls.read hendOk hstartOk most hmost] at hcount ⊢
    have hlen : bytes.length ≤ min most (min (bytes.length % 2 ^ 64) bytes.length) := by
      have hcast : ((bytes.take (bytes.length % 2 ^ 64)).take most).length = bytes.length :=
        Int.ofNat_inj.mp hcount
      rw [List.length_take, List.length_take] at hcast
      omega
    have hmod : bytes.length % 2 ^ 64 = bytes.length := by omega
    have hall : (bytes.take (bytes.length % 2 ^ 64)).take most = bytes := by
      rw [hmod, List.take_length, List.take_of_length_le (by omega)]
    have hmemory : (f.memory.take bytes.length).drop bytes.length = [] :=
      List.drop_eq_nil_of_le (List.length_take_le _ _)
    rw [hmod] at hsize
    refine ⟨hsize, ?_⟩
    simp only [hall]
    rw [hmod, hmemory, List.append_nil]

/-- **A read**: refused and without effect; or returned, with the records of
the file in the list and the system as it was; or thrown, with the files as
they were and one more descriptor in use. -/
theorem readFromFile_cases (f : Faults) (name : N) (l : ListIntervals w t) (s : State N) :
    ((openFile s name .readOnly f.openOk).1 = none ∧
        readFromFile f name l s = (.error .file, l, s)) ∨
      ∃ fd bytes, s.freeFd = some fd ∧ (openFile s name .readOnly f.openOk).1 = some fd ∧
        s.files name = some bytes ∧
        ((bytes.length % recordSize w = 0 ∧
            AllProper (records w (bytes.length / recordSize w) bytes) ∧
            readFromFile f name l s = (.ok (),
              { l.clear with intervals := records w (bytes.length / recordSize w) bytes }, s)) ∨
          ∃ h e l', readFromFile f name l s = (.error e, l', s.setHandle fd (some h))) := by
  obtain hopen | ⟨fd, hfd, ⟨hmode, -⟩ | ⟨-, bytes, hfile, hopen⟩⟩ :=
    openFile_cases s name .readOnly f.openOk
  · left
    rw [readFromFile, hopen]
    exact ⟨rfl, rfl⟩
  · cases hmode
  · right
    refine ⟨fd, bytes, hfd, by rw [hopen], hfile, ?_⟩
    have hlt := lt_of_freeFd hfd
    obtain ⟨h', hafter⟩ := afterRead_eq w s hlt ⟨name, 0⟩ f
    have hcalls := callsOn_answers hfile hlt f
    rw [readFromFile, hopen]
    simp only [hafter]
    cases hres : l.readFromFd (callsOn (s.setHandle fd (some ⟨name, 0⟩)) fd f) with
    | mk r l' =>
      cases r with
      | error e => exact Or.inr ⟨h', e, l', rfl⟩
      | ok u =>
        left
        have hret := readFromFd_returns (l := l) hcalls (by rw [hres])
        have hproper := ListIntervals.readFromFd_allProper (l := l) (by rw [hres])
        rw [hres] at hret hproper
        have hl' : l' = { l.clear with
          intervals := records w (bytes.length / recordSize w) bytes } := hret.2
        rw [hl'] at hproper
        refine ⟨hret.1, hproper, ?_⟩
        simp only [closeFile, setHandle_setHandle_none hfd]
        rw [hl']

/-- A dump that nothing disturbs returns. -/
theorem dumpToFile_clean {l : ListIntervals w t} {f : Faults}
    (hf : f.Clean (l.intervals.length * recordSize w)) {s : State N}
    (hfree : s.inUse < s.table.length) (name : N) :
    (dumpToFile f name l s).1 = .ok () := by
  obtain ⟨most, hmost, hle⟩ := hf.most
  obtain ⟨fd, hfd⟩ := exists_freeFd hfree
  have hopen : openFile s name .truncate f.openOk =
      (some fd, (s.setFile name []).setHandle fd (some ⟨name, 0⟩)) := by
    simp [openFile, hfd, hf.openOk]
  have hhandle : ((s.setFile name []).setHandle fd (some ⟨name, 0⟩)).handle fd =
      some ⟨name, 0⟩ := handle_setHandle (lt_of_freeFd hfd) _
  have hbytes := length_flatMap_recordBytes l.intervals
  have hwrite : (callsOn ((s.setFile name []).setHandle fd (some ⟨name, 0⟩)) fd f).write
      (l.intervals.flatMap recordBytes) = (l.intervals.flatMap (recordBytes (w := w))).length := by
    show (writeFile _ fd _ f.most).1 = _
    unfold writeFile
    rw [hhandle, hmost]
    simp only
    rw [Nat.min_eq_right (by omega)]
  have hok : l.dumpToFd fd (callsOn ((s.setFile name []).setHandle fd (some ⟨name, 0⟩)) fd f) =
      .ok (l.intervals.flatMap recordBytes) := by
    rw [ListIntervals.dumpToFd, if_neg (by omega)]
    simp only [hwrite]
    rw [if_neg (by omega)]
  rw [dumpToFile, hopen]
  simp only [hok]

/-- A read of a file of non-empty intervals that nothing disturbs returns. -/
theorem readFromFile_clean {is : List (Interval w)} (hw : 8 ∣ w) (hpos : 0 < w)
    (hp : AllProper is) (hlen : is.length * recordSize w < 2 ^ 64) {f : Faults}
    (hf : f.Clean (is.length * recordSize w)) {name : N} {s : State N}
    (hfile : s.files name = some (is.flatMap recordBytes)) (hfree : s.inUse < s.table.length)
    (l : ListIntervals w t) :
    (readFromFile f name l s).1 = .ok () := by
  obtain ⟨most, hmost, hle⟩ := hf.most
  obtain ⟨fd, hfd⟩ := exists_freeFd hfree
  have hopen : openFile s name .readOnly f.openOk =
      (some fd, s.setHandle fd (some ⟨name, 0⟩)) := by
    simp [openFile, hfd, hf.openOk, hfile]
  have hcalls := callsOn_answers hfile (lt_of_freeFd hfd) f
  have hbytes := length_flatMap_recordBytes is
  have hholds : (callsOn (s.setHandle fd (some ⟨name, 0⟩)) fd f).Holds
      (is.flatMap recordBytes) := by
    refine ⟨?_, ?_, ?_⟩
    · rw [hcalls.seekEnd, if_pos hf.endOk]
    · rw [hcalls.seekSet hf.endOk, if_pos hf.startOk]
    · have hmemory : (f.memory.take (is.flatMap recordBytes).length).drop
          (is.flatMap recordBytes).length = [] :=
        List.drop_eq_nil_of_le (List.length_take_le _ _)
      rw [hcalls.read hf.endOk hf.startOk most hmost, List.take_length,
        List.take_of_length_le (by omega), hmemory, List.append_nil]
  have hok := (ListIntervals.readFromFd_dump (l := { intervals := is }) hw hpos hp hlen
    hholds l).1
  rw [readFromFile, hopen]
  cases hres : l.readFromFd (callsOn (s.setHandle fd (some ⟨name, 0⟩)) fd f) with
  | mk r l' =>
    rw [hres] at hok
    cases r with
    | error e => cases hok
    | ok u => simp only [hres]

/-! ## Runs -/

/-- List objects by number, and the files. -/
structure World (w t : Nat) (N : Type) where
  lists : Nat → ListIntervals w t
  fs : State N

inductive Call (w t : Nat) (N : Type) where
  | dump (i : Nat) (name : N) (f : Faults)
  | read (i : Nat) (name : N) (f : Faults)
  /-- Any other call on a list. -/
  | change (i : Nat) (g : ListIntervals w t → ListIntervals w t)

/-- How a call ends: it returns, its `open` fails, or it throws behind
`open`. -/
inductive Outcome where
  | returned
  | refused
  | broken
  deriving DecidableEq

def outcome (fd : Option Nat) (r : Except FileError Unit) : Outcome :=
  match fd, r with
  | none, _ => .refused
  | some _, .ok _ => .returned
  | some _, .error _ => .broken

namespace World

def step (W : World w t N) : Call w t N → Outcome × World w t N
  | .dump i name f =>
    let (r, fs) := dumpToFile f name (W.lists i) W.fs
    (outcome (openFile W.fs name .truncate f.openOk).1 r, { W with fs })
  | .read i name f =>
    let (r, l, fs) := readFromFile f name (W.lists i) W.fs
    (outcome (openFile W.fs name .readOnly f.openOk).1 r,
      { W with lists := Function.update W.lists i l, fs })
  | .change i g => (.returned, { W with lists := Function.update W.lists i (g (W.lists i)) })

end World

/-- What a file holds of the list that was dumped last: its first `size`
bytes. -/
structure Dumped (w : Nat) where
  intervals : List (Interval w)
  size : Nat

/-- The last dump under each name, and the descriptors that were lost. -/
structure Journal (w : Nat) (N : Type) where
  last : N → Option (Dumped w) := fun _ => none
  lost : Nat := 0

/-- What a call adds to the journal: a dump that returns is whole, one that
breaks leaves as much as is in the file. -/
def Journal.note (W W' : World w t N) (j : Journal w N) : Call w t N → Outcome → Journal w N
  | .dump i name _, .returned =>
    let is := (W.lists i).intervals
    { j with last := Function.update j.last name (some ⟨is, is.length * recordSize w⟩) }
  | .dump i name _, .broken =>
    let size := ((W'.fs.files name).getD []).length
    { last := Function.update j.last name (some ⟨(W.lists i).intervals, size⟩)
      lost := j.lost + 1 }
  | .read .., .broken => { j with lost := j.lost + 1 }
  | _, _ => j

def World.run (W : World w t N) (j : Journal w N) : List (Call w t N) → World w t N × Journal w N
  | [] => (W, j)
  | c :: calls => (W.step c).2.run (j.note W (W.step c).2 c (W.step c).1) calls

/-- The journal is right. -/
structure Sound (s : State N) (W : World w t N) (j : Journal w N) : Prop where
  table : W.fs.table.length = s.table.length
  inUse : W.fs.inUse = s.inUse + j.lost
  files : ∀ name d, j.last name = some d → d.size ≤ d.intervals.length * recordSize w ∧
    W.fs.files name = some ((d.intervals.flatMap recordBytes).take d.size)

omit [DecidableEq N] in
theorem sound_self (W : World w t N) : Sound W.fs W {} :=
  ⟨rfl, rfl, fun _ _ h => by cases h⟩

/-- A dump to a name changes the entry of the name. -/
theorem Sound.update {s : State N} {W : World w t N} {j : Journal w N} (h : Sound s W j) {name : N}
    {is : List (Interval w)} {size : Nat} (hsize : size ≤ is.length * recordSize w)
    {files : N → Option (List (BitVec 8))}
    (hfiles : files = Function.update W.fs.files name
      (some ((is.flatMap recordBytes).take size))) :
    ∀ other d, Function.update j.last name (some ⟨is, size⟩) other = some d →
      d.size ≤ d.intervals.length * recordSize w ∧
        files other = some ((d.intervals.flatMap recordBytes).take d.size) := by
  intro other d hd
  rw [hfiles]
  by_cases hname : other = name
  · subst hname
    rw [Function.update_self, Option.some.injEq] at hd
    subst hd
    exact ⟨hsize, Function.update_self ..⟩
  · rw [Function.update_of_ne hname] at hd ⊢
    exact h.files other d hd

/-- **One call** keeps the journal right. -/
theorem Sound.step {s : State N} {W : World w t N} {j : Journal w N} (h : Sound s W j)
    (c : Call w t N) : Sound s (W.step c).2 (j.note W (W.step c).2 c (W.step c).1) := by
  cases c with
  | change i g => exact ⟨h.table, h.inUse, h.files⟩
  | dump i name f =>
    obtain ⟨hopen, hcall⟩ | ⟨fd, hfd, hopen, hcall | ⟨o, n, hcall⟩⟩ :=
      dumpToFile_cases f name (W.lists i) W.fs
    · simp only [World.step, hcall, hopen, outcome, Journal.note]
      exact h
    · simp only [World.step, hcall, hopen, outcome, Journal.note]
      refine ⟨h.table, h.inUse, ?_⟩
      refine h.update le_rfl ?_
      rw [← length_flatMap_recordBytes, List.take_length]
      rfl
    · simp only [World.step, hcall, hopen, outcome, Journal.note]
      have hlen := length_flatMap_recordBytes (W.lists i).intervals
      have hfile : (((W.fs.setFile name (((W.lists i).intervals.flatMap recordBytes).take
          n)).setHandle fd (some o)).files name) =
            some (((W.lists i).intervals.flatMap recordBytes).take n) :=
        files_setFile_self W.fs name _
      have htake : ((W.lists i).intervals.flatMap recordBytes).take
            (((W.lists i).intervals.flatMap recordBytes).take n).length =
          ((W.lists i).intervals.flatMap recordBytes).take n := by
        rw [List.length_take, ← List.take_take, List.take_length]
      refine ⟨?_, ?_, ?_⟩
      · simp only [State.setHandle, List.length_set]
        exact h.table
      · rw [inUse_setHandle_some (s := W.fs.setFile name _) hfd, ← Nat.add_assoc]
        exact congrArg (· + 1) h.inUse
      · rw [hfile]
        refine h.update ?_ ?_
        · simp only [Option.getD_some]
          rw [List.length_take]
          omega
        · simp only [Option.getD_some]
          rw [htake]
          rfl
  | read i name f =>
    obtain ⟨hopen, hcall⟩ | ⟨fd, bytes, hfd, hopen, -, ⟨-, -, hcall⟩ | ⟨o, e, l, hcall⟩⟩ :=
      readFromFile_cases f name (W.lists i) W.fs
    · simp only [World.step, hcall, hopen, outcome, Journal.note]
      exact ⟨h.table, h.inUse, h.files⟩
    · simp only [World.step, hcall, hopen, outcome, Journal.note]
      exact ⟨h.table, h.inUse, h.files⟩
    · simp only [World.step, hcall, hopen, outcome, Journal.note]
      refine ⟨?_, ?_, h.files⟩
      · simp only [State.setHandle, List.length_set]
        exact h.table
      · rw [inUse_setHandle_some hfd, ← Nat.add_assoc]
        exact congrArg (· + 1) h.inUse

/-- **A run** keeps the journal right. -/
theorem Sound.run {s : State N} (calls : List (Call w t N)) {W : World w t N} {j : Journal w N}
    (h : Sound s W j) : Sound s (W.run j calls).1 (W.run j calls).2 := by
  induction calls generalizing W j with
  | nil => exact h
  | cons c calls ih => exact ih (h.step c)

/-! ## What a read gives back -/

theorem recordSize_pos (hw : 8 ∣ w) (hpos : 0 < w) : 0 < recordSize w := by
  obtain ⟨n, rfl⟩ := hw
  rw [recordSize, Nat.mul_div_cancel_left n (by omega)]
  omega

/-- The bytes of the first records. -/
theorem take_flatMap_recordBytes (is : List (Interval w)) (k : Nat) :
    (is.flatMap recordBytes).take (k * recordSize w) = (is.take k).flatMap recordBytes := by
  induction is generalizing k with
  | nil => simp
  | cons i is ih =>
    cases k with
    | zero => simp
    | succ k =>
      have hlen := length_recordBytes i
      have hsize : (k + 1) * recordSize w = (recordBytes i).length + k * recordSize w := by
        rw [Nat.succ_mul, hlen, Nat.add_comm]
      rw [List.take_succ_cons, List.flatMap_cons, List.flatMap_cons, hsize,
        List.take_length_add_append, ih]

/-- What a read makes of a dumped file: the records that are whole. -/
def Dumped.read (d : Dumped w) : List (Interval w) := d.intervals.take (d.size / recordSize w)

/-- The file ends with a record, and none in it is empty. -/
def Dumped.Readable (d : Dumped w) : Prop := d.size % recordSize w = 0 ∧ AllProper d.read

/-- The bytes in a file that ends with a record. -/
theorem Dumped.bytes_eq {d : Dumped w} (h : d.size % recordSize w = 0) :
    (d.intervals.flatMap recordBytes).take d.size = d.read.flatMap recordBytes := by
  have hsize : d.size = d.size / recordSize w * recordSize w :=
    (Nat.div_mul_cancel (Nat.dvd_of_mod_eq_zero h)).symm
  rw [hsize, take_flatMap_recordBytes]
  rfl

/-- A whole dump gives back the list. -/
theorem Dumped.read_whole (hw : 8 ∣ w) (hpos : 0 < w) {d : Dumped w}
    (h : d.size = d.intervals.length * recordSize w) : d.read = d.intervals := by
  rw [Dumped.read, h, Nat.mul_div_cancel _ (recordSize_pos hw hpos), List.take_length]

theorem Dumped.length_read {d : Dumped w}
    (hsize : d.size ≤ d.intervals.length * recordSize w) :
    d.read.length = d.size / recordSize w := by
  have hdiv : d.size / recordSize w ≤ d.intervals.length :=
    Nat.div_le_of_le_mul (by rwa [Nat.mul_comm])
  rw [Dumped.read, List.length_take, Nat.min_eq_left hdiv]

/-- The records that are in a file. -/
theorem Dumped.records_eq (hw : 8 ∣ w) {d : Dumped w}
    (hsize : d.size ≤ d.intervals.length * recordSize w) (h : d.size % recordSize w = 0) :
    records w (d.size / recordSize w) ((d.intervals.flatMap recordBytes).take d.size) =
      d.read := by
  have hrecords := records_flatMap hw d.read []
  rwa [List.append_nil, Dumped.length_read hsize, ← Dumped.bytes_eq h] at hrecords

/-- Without a free descriptor no call opens a file. -/
theorem step_of_full {W : World w t N} (h : W.fs.inUse = W.fs.table.length) (i : Nat) (name : N)
    (f : Faults) : W.step (.dump i name f) = (.refused, W) ∧
      W.step (.read i name f) = (.refused, W) := by
  constructor
  · simp only [World.step, dumpToFile, openFile_of_full h]
    rfl
  · simp only [World.step, readFromFile, openFile_of_full h, Function.update_eq_self]
    rfl

end FileStore

open FileStore in
/-- **Files as a store of lists.** In every run of dumps, reads and other
calls on any number of lists, whatever the system refuses or cuts short:

* each call that throws behind its `open` loses one descriptor and no other
  call does; once none is free, every dump and read throws and changes
  nothing;
* a read that returns, of a file that was dumped in the run, puts the
  intervals that were dumped last into the list, or the first of them when
  that dump broke at the end of a record, and leaves all else as it is;
* with a free descriptor and no failure a dump returns, and so does the
  read, unless the dump broke inside a record or an interval in the file is
  empty. -/
theorem fileStore_run (hw : 8 ∣ w) (hpos : 0 < w) (W : FileStore.World w t N)
    (calls : List (FileStore.Call w t N)) {W' : FileStore.World w t N}
    {j : FileStore.Journal w N} (h : W.run {} calls = (W', j)) :
    W'.fs.table.length = W.fs.table.length ∧ W'.fs.inUse = W.fs.inUse + j.lost ∧
      (W'.fs.inUse = W'.fs.table.length → ∀ i name f,
        W'.step (.dump i name f) = (.refused, W') ∧ W'.step (.read i name f) = (.refused, W')) ∧
      (W'.fs.inUse < W'.fs.table.length → ∀ i name f,
        f.Clean ((W'.lists i).intervals.length * recordSize w) →
          (W'.step (.dump i name f)).1 = .returned) ∧
      ∀ name d, j.last name = some d →
        (d.size = d.intervals.length * recordSize w → d.read = d.intervals) ∧ ∀ i f,
          ((W'.step (.read i name f)).1 = .returned → d.Readable ∧
            (W'.step (.read i name f)).2 = { W' with
              lists := Function.update W'.lists i
                { (W'.lists i).clear with intervals := d.read } }) ∧
          (d.size < 2 ^ 63 → W'.fs.inUse < W'.fs.table.length → f.Clean d.size →
            ((W'.step (.read i name f)).1 = .returned ↔ d.Readable)) := by
  have hsound := (sound_self W).run calls
  rw [h] at hsound
  refine ⟨hsound.table, hsound.inUse, fun hfull i name f => step_of_full hfull i name f, ?_, ?_⟩
  · intro hfree i name f hclean
    have hok := dumpToFile_clean hclean hfree name
    obtain ⟨-, hcall⟩ | ⟨fd, -, hopen, hcall | ⟨o, n, hcall⟩⟩ :=
      dumpToFile_cases f name (W'.lists i) W'.fs
    · rw [hcall] at hok
      cases hok
    · simp [World.step, hcall, hopen, outcome]
    · rw [hcall] at hok
      cases hok
  intro name d hd
  obtain ⟨hsize, hfile⟩ := hsound.files name d hd
  refine ⟨fun hwhole => Dumped.read_whole hw hpos hwhole, fun i f => ?_⟩
  have hlen : ((d.intervals.flatMap recordBytes).take d.size).length = d.size := by
    rw [List.length_take, length_flatMap_recordBytes]
    exact Nat.min_eq_left hsize
  have hreturns : (W'.step (.read i name f)).1 = .returned → d.Readable ∧
      (W'.step (.read i name f)).2 = { W' with
        lists := Function.update W'.lists i { (W'.lists i).clear with intervals := d.read } } := by
    obtain ⟨hopen, hcall⟩ | ⟨fd, bytes, -, hopen, hbytes,
        ⟨hmod, hproper, hcall⟩ | ⟨o, e, l, hcall⟩⟩ :=
      readFromFile_cases f name (W'.lists i) W'.fs
    · simp [World.step, hcall, hopen, outcome]
    · intro _
      rw [hfile, Option.some.injEq] at hbytes
      subst hbytes
      rw [hlen] at hmod hproper hcall
      rw [Dumped.records_eq hw hsize hmod] at hproper hcall
      refine ⟨⟨hmod, hproper⟩, ?_⟩
      simp only [World.step, hcall]
    · simp [World.step, hcall, hopen, outcome]
  refine ⟨hreturns, fun hbound hfree hclean => ⟨fun hok => (hreturns hok).1, ?_⟩⟩
  rintro ⟨hmod, hproper⟩
  have hread : d.read.length * recordSize w = d.size := by
    rw [Dumped.length_read hsize, Nat.div_mul_cancel (Nat.dvd_of_mod_eq_zero hmod)]
  rw [Dumped.bytes_eq hmod] at hfile
  have hok := readFromFile_clean hw hpos hproper (by omega) (by rwa [hread]) hfile hfree
    (W'.lists i)
  obtain ⟨-, hcall⟩ | ⟨fd, bytes, -, hopen, -, ⟨-, -, hcall⟩ | ⟨o, e, l, hcall⟩⟩ :=
    readFromFile_cases f name (W'.lists i) W'.fs
  · rw [hcall] at hok
    cases hok
  · simp [World.step, hcall, hopen, outcome]
  · rw [hcall] at hok
    cases hok

/-- Two intervals are dumped, and the `write` stops after the first: the
dump throws, its descriptor is lost, and the file reads as a list of one
interval. -/
theorem fileStore_run_torn :
    let W : FileStore.World 32 32 Nat :=
      { lists := fun _ => { intervals := [⟨1, 2⟩, ⟨5, 8⟩] }, fs := ⟨fun _ => none, [none, none]⟩ }
    let r := W.run {} [.dump 0 7 { most := some 8 }]
    r.1.fs.inUse = 1 ∧ ∀ f, (r.1.step (.read 1 7 f)).1 = .returned →
      ((r.1.step (.read 1 7 f)).2.lists 1).intervals = [⟨1, 2⟩] := by
  intro W r
  have hrun : W.run {} [.dump 0 7 { most := some 8 }] = (r.1, r.2) := rfl
  obtain ⟨-, hinUse, -, -, hread⟩ := fileStore_run (by decide) (by decide) W _ hrun
  refine ⟨hinUse, fun f hok => ?_⟩
  rw [(((hread 7 ⟨[⟨1, 2⟩, ⟨5, 8⟩], 8⟩ rfl).2 1 f).1 hok).2]
  rfl

end Leeloo
