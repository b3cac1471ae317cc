/-
Leeloo.AggregateTool — `tools/aggregate.cpp`: its arguments, the lines it
reads, and what it prints.

What the program finds outside itself is a `World`: the standard input, the
files with the `errno` of those that do not open, the messages of
`strerror`, and the address of the buffer of each line. A line is cut at
its first NUL by `c_str()`. `none` is a line on which the parser is
undefined, or one that does not fit in memory.

What is printed depends on the addresses the lines name, and not on their
order, on repetitions or on the sorts. 255.255.255.255 is never stored, but
a line that names nothing else leaves an empty interval, which is printed
unless something ends there (`KeepsLast`).
-/
import Leeloo.IpSessions
import Leeloo.Display
import Leeloo.MaxPrefixKeeps

namespace Leeloo

open CString Text HalfOpen IpsParser ListIntervals
open IpListIntervals (appended closedEnd)

namespace AggregateTool

/-! ## The program -/

structure Output where
  status : Int
  err : List (List Char)
  out : List (List Char)

structure World where
  stdin : List Char
  /-- `std::ifstream(file)`: the content, or `errno`. -/
  openFile : List Char → Except Int (List Char)
  strerror : Int → List Char
  /-- The address of the characters of a line. -/
  buffer : List Char → Nat

def usage (path : List Char) : List (List Char) :=
  ["Usage: ".toList ++ path ++ " [--help] [--max-prefix max_prefix] [input_file]".toList,
    "where:".toList, [],
    "\t--help: show this help".toList,
    "\t--max-prefix: aggregate with a maximum prefix (1 <= prefix <= 32)".toList,
    "\t[input_file] is a list of IPs ranges (defaults to stdin)".toList, [],
    "IP ranges can be defined as:".toList, [],
    "\tSingle IP:     192.168.0.1".toList,
    "\tCIDR notation: 192.168.4.0/24".toList,
    "\tIP interval:   192.168.4.0-192.168.6.0".toList,
    "\t               192.168-170.4-8.0".toList]

/-- `in` and `max_prefix`; an input that was not opened is `cin`. -/
structure Args where
  input : Option (List Char) := none
  maxPrefix : Int := -1

/-- `atoi`: `strtol` narrowed to an `int`. -/
def atoi (p : List Char) : Int := (BitVec.ofInt 32 (strtol p)).toInt

/-- The loop over the arguments; an error is what the program leaves. -/
def parseArgs (w : World) (path : List Char) :
    List (List Char) → Args → Except Output Args
  | [], args => .ok args
  | arg :: argv, args =>
    if arg = "--max-prefix".toList then
      match argv with
      | [] => .ok args
      | p :: argv =>
        if atoi p ≤ 0 ∨ 32 < atoi p then
          .error ⟨1, ["Maximum prefix must be between 1 and 32.".toList], []⟩
        else parseArgs w path argv { args with maxPrefix := atoi p }
    else if arg = "--help".toList then .error ⟨1, usage path, []⟩
    else if args.input.isSome then .error ⟨1, usage path, []⟩
    else
      match w.openFile arg with
      | .error errno =>
        .error ⟨errno, ["Error opening ".toList ++ arg ++ ": ".toList ++ w.strerror errno], []⟩
      | .ok content => parseArgs w path argv { args with input := some content }

/-- The lines that `std::getline` reads one after the other. -/
def getLines (text : List Char) : List (List Char) :=
  let lines := text.splitOn '\n'
  if lines.getLast? = some [] then lines.dropLast else lines

/-- The characters of `line.c_str()`. -/
def cText (line : List Char) : List Char := line.takeWhile (· ≠ '\x00')

/-- `line.c_str()`. -/
def cStr (w : World) (line : List Char) : Option CString :=
  if h : w.buffer line + (cText line).length + 1 < 2 ^ 64 then
    some ⟨cText line, w.buffer line, fun hmem => by simpa using List.mem_takeWhile_imp hmem, h⟩
  else none

def warning (line : List Char) : List Char :=
  "Warning: unable to parse '".toList ++ line ++ "'. Ignoring...".toList

/-- The loop over the lines: the warnings, and the list. -/
def readLines (w : World) (l : IpListIntervals) :
    List (List Char) → Option (List (List Char) × IpListIntervals)
  | [] => some ([], l)
  | line :: lines => do
    let str ← cStr w line
    let (ret, l) ← parseIpsAdd l str
    let (warnings, l) ← readLines w l lines
    some (if ret then warnings else warning line :: warnings, l)

def main (sorts sorts' : Sorts 32) (w : World) (path : List Char) (argv : List (List Char)) :
    Option Output :=
  match parseArgs w path argv {} with
  | .error output => some output
  | .ok args => do
    let (warnings, l) ← readLines w {} (getLines (args.input.getD w.stdin))
    let l :=
      if args.maxPrefix = -1 then l.aggregate sorts
      else l.aggregateMaxPrefix sorts sorts' args.maxPrefix.toNat
    some ⟨0, warnings, l.intervals.map display⟩

/-! ## The arguments -/

/-- A prefix that was taken is one of an address. -/
theorem parseArgs_maxPrefix {w : World} {path : List Char} {argv : List (List Char)}
    {args args' : Args} (h : parseArgs w path argv args = .ok args')
    (hargs : args.maxPrefix = -1 ∨ (1 ≤ args.maxPrefix ∧ args.maxPrefix ≤ 32)) :
    args'.maxPrefix = -1 ∨ (1 ≤ args'.maxPrefix ∧ args'.maxPrefix ≤ 32) := by
  induction argv using List.twoStepInduction generalizing args with
  | nil =>
    cases h
    exact hargs
  | singleton arg =>
    simp only [parseArgs] at h
    split at h
    · cases h
      exact hargs
    · split at h
      · cases h
      · split at h
        · cases h
        · split at h
          · cases h
          · cases h
            exact hargs
  | cons_cons arg p argv ihRest ih =>
    unfold parseArgs at h
    split at h
    · simp only at h
      split at h
      · cases h
      · rename_i hrange
        exact ihRest h (Or.inr (by simp only; omega))
    · split at h
      · cases h
      · split at h
        · cases h
        · split at h
          · cases h
          · exact ih p h hargs

/-! ## The lines -/

/-- Every line fits in memory. -/
def Fits (w : World) (lines : List (List Char)) : Prop :=
  ∀ line ∈ lines, w.buffer line + (cText line).length + 1 < 2 ^ 64

instance (w : World) (lines : List (List Char)) : Decidable (Fits w lines) :=
  inferInstanceAs (Decidable (∀ line ∈ lines, _))

theorem exists_cStr {w : World} {line : List Char}
    (h : w.buffer line + (cText line).length + 1 < 2 ^ 64) :
    ∃ str : CString, cStr w line = some str ∧ str.chars = cText line :=
  ⟨_, dif_pos h, rfl⟩

/-- The addresses that lines name. -/
def lineAddresses (lines : List (List Char)) : Set (BitVec 32) :=
  {v | ∃ line ∈ lines, v ∈ textAddresses (cText line)} \ {lastIp}

/-- An interval that a line is stored as. -/
def StoredAs (line : List Char) (i : Interval 32) : Prop :=
  ∃ p : Phrase, p.text = cText line ∧ i ∈ p.intervals

/-- What reading lines adds to a list. -/
structure ReadInto (lines : List (List Char)) (l m : IpListIntervals) : Prop where
  closed : ClosedPending l → ClosedPending m
  removed : m.removedIntervals = l.removedIntervals
  mem : ∀ i, i ∈ m.intervals ↔ i ∈ l.intervals ∨ ∃ line ∈ lines, StoredAs line i

/-- On a trap among the lines the program is undefined. -/
theorem readLines_trap {w : World} {lines : List (List Char)} (hfits : Fits w lines)
    (h : ∃ line ∈ lines, Trap (cText line)) (l : IpListIntervals) : readLines w l lines = none := by
  induction lines generalizing l with
  | nil =>
    obtain ⟨line, hmem, -⟩ := h
    exact absurd hmem List.not_mem_nil
  | cons line lines ih =>
    obtain ⟨hline, hlines⟩ := List.forall_mem_cons.mp hfits
    obtain ⟨str, hstr, hchars⟩ := exists_cStr hline
    obtain ⟨bad, hmem, ht⟩ := h
    obtain rfl | hrest := List.mem_cons.mp hmem
    · have hnone : parseIpsAdd l str = none := parseIps_trap (hchars ▸ ht) false l
      simp [readLines, hstr, hnone]
    · simp [readLines, hstr, ih hlines ⟨bad, hrest, ht⟩]

open Classical in
/-- **The loop over the lines** appends the intervals of the phrases, and
warns of the other lines. -/
theorem readLines_spec {w : World} {lines : List (List Char)} (hfits : Fits w lines)
    (htrap : ∀ line ∈ lines, ¬ Trap (cText line)) (l : IpListIntervals) :
    ∃ m, readLines w l lines =
        some ((lines.filter fun line => ¬ IsPhrase (cText line)).map warning, m) ∧
      ReadInto lines l m := by
  induction lines generalizing l with
  | nil => exact ⟨l, rfl, fun h => h, rfl, by simp⟩
  | cons line lines ih =>
    obtain ⟨hline, hlines⟩ := List.forall_mem_cons.mp hfits
    obtain ⟨hfirst, hrest⟩ := List.forall_mem_cons.mp htrap
    obtain ⟨str, hstr, hchars⟩ := exists_cStr hline
    obtain ⟨p, hp⟩ | ht | href := parseIps_cases str
    · have hparse : parseIpsAdd l str = some (true, appended false l p.intervals) :=
        p.parseIps_text hp.symm false l
      have hphrase : IsPhrase (cText line) := ⟨p, hp.trans hchars⟩
      obtain ⟨m, hm, hread⟩ := ih hlines hrest (appended false l p.intervals)
      refine ⟨m, by simp [readLines, hstr, hparse, hm, hphrase], fun hl => ?_, hread.removed, ?_⟩
      · exact hread.closed (hl.of_queues (parseIps_closed hparse))
      · intro i
        have happ : i ∈ (appended false l p.intervals).intervals ↔
            i ∈ l.intervals ∨ i ∈ p.intervals := List.mem_append
        have hstored : StoredAs line i ↔ i ∈ p.intervals := by
          constructor
          · rintro ⟨q, hq, hi⟩
            rwa [Phrase.intervals_eq_of_text hp (hq.trans hchars.symm)]
          · exact fun hi => ⟨p, hp.trans hchars, hi⟩
        rw [hread.mem i, happ, ← hstored, or_assoc]
        simp only [List.mem_cons, exists_eq_or_imp]
    · exact absurd (hchars ▸ ht) hfirst
    · have hparse : parseIpsAdd l str = some (false, l) := href false l
      have hphrase : ¬ IsPhrase (cText line) := by
        rintro ⟨p, hp⟩
        have hacc := p.parseIps_text (hp.trans hchars.symm).symm false l
        rw [href false l] at hacc
        cases hacc
      obtain ⟨m, hm, hread⟩ := ih hlines hrest l
      refine ⟨m, by simp [readLines, hstr, hparse, hm, hphrase], hread.closed, hread.removed, ?_⟩
      intro i
      have hnone : ¬ StoredAs line i := fun hs => hphrase (hs.imp fun p hp => hp.1)
      rw [hread.mem i]
      simp only [List.mem_cons, exists_eq_or_imp, hnone, false_or]

section Read

variable {lines : List (List Char)} {m : IpListIntervals} (h : ReadInto lines {} m)

include h

theorem ReadInto.mem_iff (i : Interval 32) : i ∈ m.intervals ↔ ∃ line ∈ lines, StoredAs line i := by
  rw [h.mem i]
  simp

theorem ReadInto.closedPending : ClosedPending m := h.closed closedPending_nil

/-- What is read covers what the lines name. -/
theorem ReadInto.covers_eq : covers m.intervals = lineAddresses lines := by
  ext v
  constructor
  · rintro ⟨i, hi, hv⟩
    obtain ⟨line, hline, p, hp, hip⟩ := (h.mem_iff i).mp hi
    have hcov : v ∈ covers p.intervals := ⟨i, hip, hv⟩
    rw [p.covers_intervals] at hcov
    exact ⟨⟨line, hline, p, hp, hcov.1⟩, hcov.2⟩
  · rintro ⟨⟨line, hline, p, hp, hv⟩, hlast⟩
    have hcov : v ∈ covers p.intervals := by
      rw [p.covers_intervals]
      exact ⟨hv, hlast⟩
    obtain ⟨i, hip, hv⟩ := hcov
    exact ⟨i, (h.mem_iff i).mpr ⟨line, hline, p, hp, hip⟩, hv⟩

end Read

/-- A line is stored as the empty interval at the last address, and no line
names the address below it. -/
def KeepsLast (lines : List (List Char)) : Prop :=
  (∃ line ∈ lines, StoredAs line ⟨lastIp, lastIp⟩) ∧ 0xFFFFFFFE ∉ lineAddresses lines

/-- An interval that ends at the last address is empty, or holds the address
below it. -/
theorem emptyAt_iff {i : Interval 32} (hi : IsClosedPair i) :
    EmptyAt lastIp i ↔ (0xFFFFFFFE : BitVec 32) ∉ i.toSet := by
  have hlast : lastIp.toNat = 2 ^ 32 - 1 := rfl
  have hbelow : (0xFFFFFFFE : BitVec 32).toNat = 2 ^ 32 - 2 := rfl
  have hlt := i.upper.isLt
  have hord : i.lower.toNat ≤ i.upper.toNat :=
    hi.proper_or_top.elim (fun h => Nat.le_of_lt h) fun h => Nat.le_of_eq (congrArg _ h.1)
  rw [HalfOpen.mem_toSet, EmptyAt, BitVec.toNat_eq, BitVec.toNat_eq, BitVec.le_def, BitVec.lt_def,
    hlast, hbelow]
  omega

theorem ReadInto.keepsEmptyLast_iff {lines : List (List Char)} {m : IpListIntervals}
    (h : ReadInto lines {} m) : KeepsEmptyLast m ↔ KeepsLast lines := by
  have halone : (∀ i ∈ m.intervals, EmptyAt lastIp i) ↔ 0xFFFFFFFE ∉ lineAddresses lines := by
    rw [← h.covers_eq]
    constructor
    · rintro hall ⟨i, hi, hv⟩
      exact (emptyAt_iff (h.closedPending.intervals i hi)).mp (hall i hi) hv
    · intro hno i hi
      exact (emptyAt_iff (h.closedPending.intervals i hi)).mpr fun hv => hno ⟨i, hi, hv⟩
  constructor
  · intro hk
    exact ⟨(h.mem_iff _).mp hk.stored, halone.mp hk.alone⟩
  · rintro ⟨hstored, hno⟩
    exact ⟨h.removed, (h.mem_iff _).mpr hstored, halone.mpr hno⟩

/-! ## What is printed -/

/-- The line of the empty interval at the last address. -/
def lastLine : List Char := display ⟨lastIp, lastIp⟩

/-- **`aggregate` leaves the runs of the addresses that the lines name**,
and the empty interval where it is kept. -/
theorem ReadInto.aggregate_intervals {lines : List (List Char)} {m : IpListIntervals}
    (h : ReadInto lines {} m) (sorts : Sorts 32) :
    ∃ runs, Normal runs ∧ covers runs = lineAddresses lines ∧
      ((¬ KeepsLast lines ∧ (m.aggregate sorts).intervals = runs) ∨
        (KeepsLast lines ∧ (m.aggregate sorts).intervals = runs ++ [⟨lastIp, lastIp⟩])) := by
  have hclosed := h.closedPending
  have hcov : covers (m.aggregate sorts).intervals = lineAddresses lines := by
    rw [covers_aggregate_of_run hclosed, h.removed, ← h.covers_eq]
    simp
  have hkeeps := (allProper_aggregate_iff hclosed sorts).trans (not_congr h.keepsEmptyLast_iff)
  obtain hn | ⟨runs, hruns, hn⟩ := (tidy_aggregate hclosed sorts).cases
  · exact ⟨_, hn, hcov, Or.inl ⟨hkeeps.mp hn.proper, rfl⟩⟩
  · refine ⟨runs, hn, ?_, Or.inr ⟨?_, hruns⟩⟩
    · rw [← hcov, hruns, covers_append, covers_singleton]
      ext v
      simp
    · by_contra hno
      have hproper := hkeeps.mpr hno ⟨lastIp, lastIp⟩ (by rw [hruns]; simp)
      exact lt_irrefl _ hproper

/-- Rounded, the empty interval at the last address still has none. -/
theorem notMem_roundInterval_last (mask v : BitVec 32) :
    v ∉ (roundInterval false mask ⟨lastIp, lastIp⟩).toSet := by
  have hall : lastIp = BitVec.allOnes 32 := by decide
  rintro ⟨hlow, hup⟩
  simp only [roundInterval] at hlow hup
  split at hup
  · -- the upper bound wraps to 0
    rw [hall, BitVec.allOnes_or] at hup
    exact absurd hup (by simp)
  · rename_i hround
    rw [if_neg hround] at hlow
    exact absurd hup (not_lt.mpr hlow)

/-- **`aggregate_max_prefix` leaves what the runs are rounded to**, whether
or not the empty interval was kept. -/
theorem ReadInto.aggregateMaxPrefix_intervals {lines : List (List Char)} {m : IpListIntervals}
    (h : ReadInto lines {} m) (sorts sorts' : Sorts 32) {p : Nat} (hp : 0 < p) :
    ∃ runs, Normal runs ∧ covers runs = lineAddresses lines ∧
      covers (m.aggregateMaxPrefix sorts sorts' p).intervals =
        covers (runs.map (roundInterval false (prefix2mask 32 p))) ∧
      (¬ KeepsLast lines → (m.aggregateMaxPrefix sorts sorts' p).intervals =
        aggregateContainer sorts'.stored (runs.map (roundInterval false (prefix2mask 32 p)))) := by
  obtain ⟨runs, hn, hcov, hagg⟩ := h.aggregate_intervals sorts
  have hlen := two_mul_length_le hn
  have hshort : (m.aggregate sorts).intervals.length < 2 ^ 32 := by
    obtain ⟨-, hagg⟩ | ⟨-, hagg⟩ := hagg
    · rw [hagg]
      omega
    · rw [hagg, List.length_append, List.length_singleton]
      omega
  have hqueue : (m.aggregate sorts).removedIntervals = [] := by
    rw [aggregate_removedIntervals, h.removed]
    split <;> rfl
  have hres : (m.aggregateMaxPrefix sorts sorts' p).intervals = _ :=
    aggregateMaxPrefixImpl_of_queue false sorts sorts' hp hshort (Or.inl hqueue)
  refine ⟨runs, hn, hcov, ?_, fun hkeeps => ?_⟩
  · rw [hres, covers_aggregateContainer]
    obtain ⟨-, hagg⟩ | ⟨-, hagg⟩ := hagg
    · rw [hagg]
    · rw [hagg, List.map_append, covers_append, List.map_singleton, covers_singleton]
      ext v
      exact or_iff_left (notMem_roundInterval_last _ v)
  · obtain ⟨-, hagg⟩ | ⟨hlast, -⟩ := hagg
    · rw [hres, hagg]
    · exact absurd hlast hkeeps

end AggregateTool

end Leeloo
