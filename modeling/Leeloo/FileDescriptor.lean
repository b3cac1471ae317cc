/-
Leeloo.FileDescriptor — `dump_to_fd` and `read_from_fd` of
`list_intervals.h`.

The file is the records alone: their number is its size divided by the
size of a record. The writer dumps whatever is stored; the reader throws
on a record whose lower bound is not below its upper bound. So a list can
be read back exactly when it stores non-empty intervals only, and what the
reader accepts is of that kind (`readFromFd_allProper`).

A read that throws before the records are read leaves the list alone; the
records replace both vectors before they are checked, so a later throw
leaves them in the list (`readFromFile_failed`).

The answers of the operating system are a parameter. `FileCalls.Holds`
says that a descriptor transfers everything.
-/
import Leeloo.Contains
import Leeloo.IpRuns
import Leeloo.Stream

namespace Leeloo

open HalfOpen

variable {w s : Nat}

/-- `file_exception` and `file_format_exception`. -/
inductive FileError where
  | file
  | format (msg : String)
  deriving DecidableEq, Repr

/-- What the operating system answers on one descriptor. -/
structure FileCalls where
  /-- `write`: the number of bytes written, or `-1`. -/
  write : List (BitVec 8) → Int
  /-- `lseek(fd, 0, SEEK_END)`. -/
  seekEnd : Int
  /-- `lseek(fd, 0, SEEK_SET)`. -/
  seekSet : Int
  /-- `read` of so many bytes: their number or `-1`, and the buffer after it. -/
  read : Nat → Int × List (BitVec 8)

namespace FileCalls

/-- `write` transfers everything. -/
def WritesAll (file : FileCalls) : Prop := ∀ bytes, file.write bytes = bytes.length

/-- The file holds `bytes`, and `lseek` and `read` transfer everything. -/
structure Holds (file : FileCalls) (bytes : List (BitVec 8)) : Prop where
  seekEnd : file.seekEnd = bytes.length
  seekSet : file.seekSet = 0
  read : file.read bytes.length = ((bytes.length : Int), bytes)

/-- A descriptor of a file that holds `bytes`. -/
def complete (bytes : List (BitVec 8)) : FileCalls where
  write out := out.length
  seekEnd := bytes.length
  seekSet := 0
  read n := (n, bytes.take n)

theorem complete_writesAll (bytes : List (BitVec 8)) : (complete bytes).WritesAll := fun _ => rfl

theorem complete_holds (bytes : List (BitVec 8)) : (complete bytes).Holds bytes :=
  ⟨rfl, rfl, by simp [complete]⟩

end FileCalls

namespace ListIntervals

/-- `dump_to_fd`: the bytes it leaves in the file. -/
def dumpToFd (fd : Int) (file : FileCalls) (l : ListIntervals w s) :
    Except FileError (List (BitVec 8)) :=
  if fd = -1 then .error .file
  else
    let bytes := l.intervals.flatMap recordBytes
    let written := file.write bytes
    if written < 0 ∨ written ≠ bytes.length then .error .file else .ok bytes

/-- `read_from_fd`: whether it throws, and the list after it. The `off_t` is
converted to a `size_t` for the division. -/
def readFromFd (file : FileCalls) (l : ListIntervals w s) :
    Except FileError Unit × ListIntervals w s :=
  let size := file.seekEnd
  if size = -1 then (.error .file, l)
  else if file.seekSet = -1 then (.error .file, l)
  else
    let bytes := (BitVec.ofInt 64 size).toNat
    if bytes % recordSize w ≠ 0 then (.error (.format "invalid size"), l)
    else
      let got := file.read bytes
      let l := { l.clear with intervals := records w (bytes / recordSize w) got.2 }
      if got.1 < 0 then (.error .file, l)
      else if got.1 ≠ size then (.error .file, l)
      else if l.intervals.any fun i => decide (i.lower ≥ i.upper) then
        (.error (.format "invalid interval"), l)
      else (.ok (), l)

/-- `read_from_file`, given the descriptor that `open` answers. -/
def readFromFile (fd : Int) (file : FileCalls) (l : ListIntervals w s) :
    Except FileError Unit × ListIntervals w s :=
  if fd = -1 then (.error .file, l) else l.readFromFd file

/-- **What the reader accepts is non-empty.** -/
theorem readFromFd_allProper {file : FileCalls} {l : ListIntervals w s}
    (h : (l.readFromFd file).1 = .ok ()) : AllProper (l.readFromFd file).2.intervals := by
  unfold readFromFd at h ⊢
  simp only at h ⊢
  split_ifs at h ⊢ with _ _ _ _ _ hany
  intro i hi
  exact not_le.mp fun hle => hany (List.any_eq_true.mpr ⟨i, hi, decide_eq_true hle⟩)

theorem dumpToFd_ok {fd : Int} {file : FileCalls} (hfd : fd ≠ -1) (hw : file.WritesAll)
    (l : ListIntervals w s) : l.dumpToFd fd file = .ok (l.intervals.flatMap recordBytes) := by
  have hwritten := hw (l.intervals.flatMap recordBytes)
  rw [dumpToFd, if_neg hfd, if_neg (by omega)]

/-- Non-empty intervals are read back. -/
theorem readFromFd_dump {file : FileCalls} {l : ListIntervals w s} (hw : 8 ∣ w) (hpos : 0 < w)
    (hp : AllProper l.intervals) (hlen : l.intervals.length * recordSize w < 2 ^ 64)
    (hf : file.Holds (l.intervals.flatMap recordBytes)) (o : ListIntervals w s) :
    (o.readFromFd file).1 = .ok () ∧ (o.readFromFd file).2.intervals = l.intervals := by
  have hrec : 0 < recordSize w := by
    obtain ⟨n, rfl⟩ := hw
    rw [recordSize, Nat.mul_div_cancel_left n (by omega)]
    omega
  have hrecords := records_flatMap hw l.intervals []
  rw [List.append_nil] at hrecords
  obtain ⟨hend, hset, hread⟩ := hf
  rw [length_flatMap_recordBytes] at hend hread
  have hbytes : (BitVec.ofInt 64 ((l.intervals.length * recordSize w : Nat) : Int)).toNat =
      l.intervals.length * recordSize w := by
    rw [BitVec.ofInt_natCast, BitVec.toNat_ofNat, Nat.mod_eq_of_lt hlen]
  have hany : ¬ (l.intervals.any fun i => decide (i.lower ≥ i.upper)) = true := by
    rw [List.any_eq_true]
    rintro ⟨i, hi, hle⟩
    exact absurd (hp i hi) (not_lt.mpr (of_decide_eq_true hle))
  have hnonneg : (0 : Int) ≤ (l.intervals.length * recordSize w : Nat) := Int.natCast_nonneg _
  unfold readFromFd
  simp only [hend, hbytes, hread, hset, Nat.mul_mod_left, Nat.mul_div_cancel _ hrec, hrecords]
  rw [if_neg (by omega), if_neg (by decide), if_neg (by omega), if_neg (by omega),
    if_neg (by omega), if_neg hany]
  exact ⟨rfl, rfl⟩

/-! ## What a failed read leaves -/

/-- `read_from_fd` gets as far as reading the records: both `lseek`s succeed
and the size is that of whole records. -/
structure ReachesRead (w : Nat) (file : FileCalls) : Prop where
  seekEnd : file.seekEnd ≠ -1
  seekSet : file.seekSet ≠ -1
  size : (BitVec.ofInt 64 file.seekEnd).toNat % recordSize w = 0

/-- The records that `read` leaves in the vector. -/
def recordsRead (w : Nat) (file : FileCalls) : List (Interval w) :=
  let bytes := (BitVec.ofInt 64 file.seekEnd).toNat
  records w (bytes / recordSize w) (file.read bytes).2

theorem readFromFd_of_not_reaches {file : FileCalls} (h : ¬ ReachesRead w file)
    (l : ListIntervals w s) :
    (∃ e, (l.readFromFd file).1 = .error e) ∧ (l.readFromFd file).2 = l := by
  unfold readFromFd
  by_cases hend : file.seekEnd = -1
  · simp only [if_pos hend]
    exact ⟨⟨_, rfl⟩, trivial⟩
  · by_cases hset : file.seekSet = -1
    · simp only [if_neg hend, if_pos hset]
      exact ⟨⟨_, rfl⟩, trivial⟩
    · have hsize : (BitVec.ofInt 64 file.seekEnd).toNat % recordSize w ≠ 0 := fun hs =>
        h ⟨hend, hset, hs⟩
      simp only [if_neg hend, if_neg hset, if_pos hsize]
      exact ⟨⟨_, rfl⟩, trivial⟩

theorem readFromFd_of_reaches {file : FileCalls} (h : ReachesRead w file)
    (l : ListIntervals w s) :
    (l.readFromFd file).2 = { l.clear with intervals := recordsRead w file } := by
  have hsize : ¬ (BitVec.ofInt 64 file.seekEnd).toNat % recordSize w ≠ 0 := not_not.mpr h.size
  unfold readFromFd
  simp only [if_neg h.seekEnd, if_neg h.seekSet, if_neg hsize]
  split_ifs <;> rfl

/-- **What a failed read leaves.** A read that does not get as far as the
records throws and leaves the list as it was. One that throws later has
dropped the pending removals, and the records read stand in place of the
intervals. -/
theorem readFromFile_failed (l : ListIntervals w s) (fd : Int) (file : FileCalls) :
    (fd = -1 ∨ ¬ ReachesRead w file →
        (∃ e, (l.readFromFile fd file).1 = .error e) ∧ (l.readFromFile fd file).2 = l) ∧
      (fd ≠ -1 ∧ ReachesRead w file → ∀ e, (l.readFromFile fd file).1 = .error e →
        (l.readFromFile fd file).2.removedIntervals = [] ∧
          (l.readFromFile fd file).2.intervals = recordsRead w file) := by
  by_cases hfd : fd = -1
  · have hread : l.readFromFile fd file = (.error .file, l) := if_pos hfd
    rw [hread]
    exact ⟨fun _ => ⟨⟨_, rfl⟩, rfl⟩, fun hopen => absurd hfd hopen.1⟩
  · have hread : l.readFromFile fd file = l.readFromFd file := if_neg hfd
    rw [hread]
    constructor
    · intro hearly
      exact readFromFd_of_not_reaches (hearly.resolve_left hfd) l
    · intro hlate _ _
      rw [readFromFd_of_reaches hlate.2]
      exact ⟨rfl, rfl⟩

/-- A file of five bytes is refused in front of the records, and one of
eight zero bytes, an empty record, behind them. -/
theorem readFromFile_failed_samples :
    let l : ListIntervals 32 32 := { intervals := [⟨1, 2⟩], removedIntervals := [⟨5, 6⟩] }
    (l.readFromFile 3 (.complete [1, 2, 3, 4, 5])).2 = l ∧
      (l.readFromFile 3 (.complete [0, 0, 0, 0, 0, 0, 0, 0])).2.intervals = [⟨0, 0⟩] :=
  ⟨((readFromFile_failed { intervals := [⟨1, 2⟩], removedIntervals := [⟨5, 6⟩] } 3
      (.complete [1, 2, 3, 4, 5])).1 (Or.inr fun h => absurd h.size (by decide))).2,
    ((readFromFile_failed { intervals := [⟨1, 2⟩], removedIntervals := [⟨5, 6⟩] } 3
      (.complete [0, 0, 0, 0, 0, 0, 0, 0])).2 ⟨by decide, by decide, by decide, by decide⟩
      (.format "invalid interval") rfl).2⟩

/-- Eight zero bytes are one empty record: the reader throws on it, and the
interval and the removal that were there are gone. -/
theorem readFromFile_changes :
    let l : ListIntervals 32 32 := { intervals := [⟨1, 2⟩], removedIntervals := [⟨5, 6⟩] }
    let file := FileCalls.complete [0, 0, 0, 0, 0, 0, 0, 0]
    (l.readFromFile 3 file).1 = .error (.format "invalid interval") ∧
      (l.readFromFile 3 file).2.intervals = [⟨0, 0⟩] ∧
      (l.readFromFile 3 file).2.removedIntervals = [] :=
  ⟨rfl, rfl, rfl⟩

end ListIntervals

/-- **When an IP list can be read back from its file.** After any sequence
of calls and an `aggregate`, what is dumped is read without an exception
into an equal list, whatever the list read into, exactly when the list does
not keep the empty interval at the last address. -/
theorem fd_roundTrip_iff (calls : List IpCall) {l : IpListIntervals} (sorts : Sorts 32)
    (hc : ∀ c ∈ calls, c.Ordered) (h : runIp {} calls = some l) {fd : Int} (hfd : fd ≠ -1)
    {writer : FileCalls} (hw : writer.WritesAll) :
    (∃ bytes, (l.aggregate sorts).dumpToFd fd writer = .ok bytes ∧
      ∀ reader : FileCalls, reader.Holds bytes → ∀ o : IpListIntervals,
        (o.readFromFd reader).1 = .ok () ∧
          (o.readFromFd reader).2.opEq (l.aggregate sorts) = true) ↔
      ¬ KeepsEmptyLast l := by
  have hl := runIp_closedPending closedPending_nil hc h
  rw [← allProper_aggregate_iff hl sorts]
  constructor
  · rintro ⟨bytes, _, hread⟩
    obtain ⟨hok, heq⟩ := hread (.complete bytes) (FileCalls.complete_holds bytes) {}
    rw [← ListIntervals.opEq_iff.mp heq]
    exact ListIntervals.readFromFd_allProper hok
  · intro hp
    have hn := normal_aggregate_of_run hl sorts ((allProper_aggregate_iff hl sorts).mp hp)
    have hlen := two_mul_length_le hn
    refine ⟨_, ListIntervals.dumpToFd_ok hfd hw _, fun reader hr o => ?_⟩
    obtain ⟨hok, heq⟩ := ListIntervals.readFromFd_dump (by decide) (by decide) hp
      (by rw [show recordSize 32 = 8 from rfl]; omega) hr o
    exact ⟨hok, ListIntervals.opEq_iff.mpr heq⟩

/-- Two ranges and a removal. -/
theorem fd_roundTrip_ranges :
    ∃ bytes, ((ListIntervals.aggregate (Sorts.insertion 32)
        (IpListIntervals.removeIp (IpListIntervals.add (IpListIntervals.add {} 5 8)
          0xFFFFFF00 0xFFFFFFFF) 7)).dumpToFd 3 (.complete []) = .ok bytes ∧
      ∀ reader : FileCalls, reader.Holds bytes → ∀ o : IpListIntervals,
        (o.readFromFd reader).1 = .ok () ∧
          (o.readFromFd reader).2.opEq (ListIntervals.aggregate (Sorts.insertion 32)
            (IpListIntervals.removeIp (IpListIntervals.add (IpListIntervals.add {} 5 8)
              0xFFFFFF00 0xFFFFFFFF) 7)) = true) :=
  (fd_roundTrip_iff [.addPair 5 8, .addPair 0xFFFFFF00 0xFFFFFFFF, .removeIp 7]
    (Sorts.insertion 32) (by decide) rfl (by decide) (FileCalls.complete_writesAll [])).mpr
    fun hk => absurd hk.noRemoval (by decide)

/-- The empty interval is dumped as eight bytes, and the reader throws on
them. -/
theorem fd_roundTrip_fails :
    runIp {} [.addPair 0xFFFFFFFF 0xFFFFFFFF] =
      some (IpListIntervals.add {} 0xFFFFFFFF 0xFFFFFFFF) ∧
    let l : IpListIntervals :=
      (IpListIntervals.add {} 0xFFFFFFFF 0xFFFFFFFF).aggregate (Sorts.insertion 32)
    let bytes : List (BitVec 8) := [0xFF, 0xFF, 0xFF, 0xFF, 0xFF, 0xFF, 0xFF, 0xFF]
    l.dumpToFd 3 (.complete []) = .ok bytes ∧ (FileCalls.complete bytes).Holds bytes ∧
      (({} : IpListIntervals).readFromFd (.complete bytes)).1 =
        .error (.format "invalid interval") :=
  ⟨rfl, rfl, FileCalls.complete_holds _, rfl⟩

end Leeloo
