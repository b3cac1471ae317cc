/-
Leeloo.Stream — `dump_stream` and `read_stream` of `list_intervals.h`.

The number of intervals is written as plain decimal text and the records
follow as raw bytes, with nothing between them. `operator>>` takes as many
digits as there are, so the bytes of the first record are read as more
digits when they happen to be digits.

A stream is the list of its bytes. What `resize` leaves in memory is not
initialised; it is an argument of `readStream`.
-/
import Leeloo.AggregateTheorems
import Leeloo.Lib.Bytes

namespace Leeloo

open Bytes Text

variable {w s : Nat}

/-- `sizeof(interval_type)`. -/
def recordSize (w : Nat) : Nat := 2 * (w / 8)

/-- The bytes of one interval in memory. -/
def recordBytes (i : Interval w) : List (BitVec 8) :=
  Bytes.ofNat (w / 8) i.lower.toNat ++ Bytes.ofNat (w / 8) i.upper.toNat

/-- `n` intervals in memory. -/
def records (w : Nat) : (n : Nat) → List (BitVec 8) → List (Interval w)
  | 0, _ => []
  | n + 1, bs =>
    ⟨BitVec.ofNat w (Bytes.toNat (bs.take (w / 8))),
      BitVec.ofNat w (Bytes.toNat ((bs.drop (w / 8)).take (w / 8)))⟩ ::
      records w n (bs.drop (recordSize w))

/-- `operator>>` for a `uint32_t`: the number, whether it succeeded, and
what is left of the stream. -/
def extract (bytes : List (BitVec 8)) : BitVec 32 × Bool × List (BitVec 8) :=
  let bytes := bytes.dropWhile fun b => isspace (asChar b)
  let digits := (bytes.map asChar).takeWhile isdigit
  let rest := bytes.drop digits.length
  if digits = [] then (0, false, rest)
  else if 2 ^ 32 ≤ decimal digits then (BitVec.allOnes 32, false, rest)
  else (BitVec.ofNat 32 (decimal digits), true, rest)

/-- `read(…, size)` into memory that holds `memory`; a stream that has
failed gives nothing. -/
def readBytes (memory : Nat → BitVec 8) (ok : Bool) (bytes : List (BitVec 8)) (size : Nat) :
    List (BitVec 8) :=
  let got := if ok then bytes.take size else []
  got ++ (List.range' got.length (size - got.length)).map memory

namespace ListIntervals

/-- `dump_stream`; `none` is the `integer_overflow` of
`strict_integer_cast`. -/
def dumpStream (l : ListIntervals w s) : Option (List (BitVec 8)) :=
  if 2 ^ 32 ≤ l.intervals.length then none
  else some ((Nat.toDigits 10 l.intervals.length).map ofChar ++ l.intervals.flatMap recordBytes)

/-- `read_stream`. -/
def readStream (memory : Nat → BitVec 8) (l : ListIntervals w s) (bytes : List (BitVec 8)) :
    ListIntervals w s :=
  let (nintervals, ok, rest) := extract bytes
  { l.clear with
    intervals := records w nintervals.toNat
      (readBytes memory ok rest (nintervals.toNat * recordSize w)) }

end ListIntervals

/-! ## Records -/

@[simp] theorem length_records (n : Nat) (bs : List (BitVec 8)) : (records w n bs).length = n := by
  induction n generalizing bs with
  | zero => rfl
  | succ n ih => simp [records, ih]

@[simp] theorem length_recordBytes (i : Interval w) : (recordBytes i).length = recordSize w := by
  simp [recordBytes, recordSize]
  omega

theorem length_flatMap_recordBytes (l : List (Interval w)) :
    (l.flatMap recordBytes).length = l.length * recordSize w := by
  simp [List.length_flatMap]

/-- Intervals are read back from their bytes. -/
theorem records_flatMap (hw : 8 ∣ w) (l : List (Interval w)) (rest : List (BitVec 8)) :
    records w l.length (l.flatMap recordBytes ++ rest) = l := by
  have hword : ∀ x : BitVec w, BitVec.ofNat w (Bytes.toNat (Bytes.ofNat (w / 8) x.toNat)) = x := by
    intro x
    have hpow : 256 ^ (w / 8) = 2 ^ w := by
      rw [show 256 = 2 ^ 8 from rfl, ← Nat.pow_mul, Nat.mul_div_cancel' hw]
    rw [Bytes.toNat_ofNat, hpow, Nat.mod_eq_of_lt x.isLt, BitVec.ofNat_toNat, BitVec.setWidth_eq]
  induction l with
  | nil => rfl
  | cons i l ih =>
    have hsize : recordSize w = (recordBytes i).length := (length_recordBytes i).symm
    rw [List.flatMap_cons, List.append_assoc, List.length_cons, records, hsize, List.drop_left, ih]
    refine congrArg (· :: l) (HalfOpen.ext ?_ ?_)
    · simp [recordBytes, hword]
    · simp [recordBytes, hword]

/-- Zero bytes are zero bounds. -/
theorem lower_of_mem_records {n : Nat} {bs : List (BitVec 8)} (h : ∀ b ∈ bs, b = 0)
    {i : Interval w} (hi : i ∈ records w n bs) : i.lower = 0 := by
  induction n generalizing bs with
  | zero => cases hi
  | succ n ih =>
    cases List.mem_cons.mp hi with
    | inl he =>
      have hzero : Bytes.toNat (bs.take (w / 8)) = 0 :=
        Bytes.toNat_eq_zero fun b hb => h b (List.mem_of_mem_take hb)
      rw [he, hzero]
      rfl
    | inr hi => exact ih (fun b hb => h b (List.mem_of_mem_drop hb)) hi

theorem readBytes_of_length {memory : Nat → BitVec 8} {bytes : List (BitVec 8)} {size : Nat}
    (h : bytes.length = size) : readBytes memory true bytes size = bytes := by
  subst h
  simp [readBytes]

/-! ## The count -/

/-- The digits that stand at the front of the records. -/
def strayDigits (bytes : List (BitVec 8)) : List Char := (bytes.map asChar).takeWhile isdigit

/-- The count is read together with the digits behind it. -/
theorem extract_count (n : Nat) (bytes : List (BitVec 8)) :
    extract ((Nat.toDigits 10 n).map ofChar ++ bytes) =
      if 2 ^ 32 ≤ decimal (Nat.toDigits 10 n ++ strayDigits bytes) then
        (BitVec.allOnes 32, false, bytes.drop (strayDigits bytes).length)
      else (BitVec.ofNat 32 (decimal (Nat.toDigits 10 n ++ strayDigits bytes)), true,
        bytes.drop (strayDigits bytes).length) := by
  have hall := all_isdigit_toDigits n
  obtain ⟨c, t, htext⟩ := List.exists_cons_of_ne_nil (Nat.toDigits_ne_nil : Nat.toDigits 10 n ≠ [])
  have hmap := map_asChar_ofChar hall
  rw [htext] at hall hmap ⊢
  have hc : isdigit c = true := List.all_eq_true.mp hall c List.mem_cons_self
  have hchar : asChar (ofChar c) = c := by
    rw [List.map_cons, List.map_cons, List.cons.injEq] at hmap
    exact hmap.1
  have hdrop : ((c :: t).map ofChar ++ bytes).dropWhile (fun b => isspace (asChar b)) =
      (c :: t).map ofChar ++ bytes := by
    rw [List.map_cons, List.cons_append, List.dropWhile_cons, hchar, isspace_of_isdigit hc]
    simp
  have hdigits : (((c :: t).map ofChar ++ bytes).map asChar).takeWhile isdigit =
      c :: t ++ strayDigits bytes := by
    rw [List.map_append, hmap, List.takeWhile_append_of_pos (List.all_eq_true.mp hall)]
    rfl
  have hrest : ((c :: t).map ofChar ++ bytes).drop (c :: t ++ strayDigits bytes).length =
      bytes.drop (strayDigits bytes).length := by
    have hlen : (c :: t ++ strayDigits bytes).length =
        ((c :: t).map ofChar).length + (strayDigits bytes).length := by
      simp
      omega
    rw [hlen, List.drop_length_add_append]
  unfold extract
  simp only [hdrop, hdigits, hrest]
  rw [if_neg (by simp)]

/-- Without digits at the front of the records it is read exactly. -/
theorem extract_count_exact {n : Nat} (hn : n < 2 ^ 32) {bytes : List (BitVec 8)}
    (h : strayDigits bytes = []) :
    extract ((Nat.toDigits 10 n).map ofChar ++ bytes) = (BitVec.ofNat 32 n, true, bytes) := by
  rw [extract_count, h, List.append_nil, decimal_toDigits, if_neg (by omega)]
  rfl

/-- A digit in front makes the number larger, or too large. -/
theorem lt_decimal_of_strayDigits {n : Nat} (hn : 0 < n) {bytes : List (BitVec 8)}
    (h : strayDigits bytes ≠ []) : n < decimal (Nat.toDigits 10 n ++ strayDigits bytes) := by
  have hlen : 1 ≤ (strayDigits bytes).length := List.length_pos_of_ne_nil h
  have hpow : 10 ^ 1 ≤ 10 ^ (strayDigits bytes).length := Nat.pow_le_pow_right (by omega) hlen
  have hmul := Nat.mul_le_mul_left n hpow
  rw [decimal_append, decimal_toDigits]
  omega

/-! ## The round trip -/

/-- The first byte of the records is the code of a digit. -/
def StartsWithDigit (l : List (Interval w)) : Prop :=
  ∃ i ∈ l.head?, isdigit (asChar (i.lower.setWidth 8)) = true

theorem strayDigits_records (l : List (Interval 32)) :
    strayDigits (l.flatMap recordBytes) ≠ [] ↔ StartsWithDigit l := by
  cases l with
  | nil => simp [strayDigits, StartsWithDigit]
  | cons i l =>
    have hfirst : BitVec.ofNat 8 i.lower.toNat = i.lower.setWidth 8 := by
      rw [BitVec.ofNat_toNat]
    have hbytes : ∃ bs, (i :: l).flatMap recordBytes = i.lower.setWidth 8 :: bs := by
      rw [← hfirst]
      exact ⟨_, rfl⟩
    obtain ⟨bs, hbs⟩ := hbytes
    rw [hbs, strayDigits, List.map_cons, List.takeWhile_cons]
    cases hdigit : isdigit (asChar (i.lower.setWidth 8)) <;> simp [StartsWithDigit, hdigit]

namespace ListIntervals

theorem readStream_dumpStream {l : ListIntervals 32 s} (hlen : l.intervals.length < 2 ^ 32)
    (hdigit : ¬ StartsWithDigit l.intervals) (memory : Nat → BitVec 8) (o : ListIntervals 32 s) :
    (o.readStream memory ((Nat.toDigits 10 l.intervals.length).map ofChar ++
      l.intervals.flatMap recordBytes)).intervals = l.intervals := by
  have hstray : strayDigits (l.intervals.flatMap recordBytes) = [] := by
    by_contra h
    exact hdigit ((strayDigits_records _).mp h)
  have hnat : (BitVec.ofNat 32 l.intervals.length).toNat = l.intervals.length := by
    rw [BitVec.toNat_ofNat, Nat.mod_eq_of_lt hlen]
  have hrecords := records_flatMap (w := 32) (by decide) l.intervals []
  rw [List.append_nil] at hrecords
  simp only [readStream, extract_count_exact hlen hstray, hnat]
  rw [readBytes_of_length (length_flatMap_recordBytes _), hrecords]

/-- Digits in front of the records change the count, or make `operator>>`
fail, and then the records are what the memory held. -/
theorem readStream_ne {l : ListIntervals 32 s} (hdigit : StartsWithDigit l.intervals)
    (o : ListIntervals 32 s) :
    (o.readStream (fun _ => 0) ((Nat.toDigits 10 l.intervals.length).map ofChar ++
      l.intervals.flatMap recordBytes)).intervals ≠ l.intervals := by
  have hne : l.intervals ≠ [] := by
    rintro h
    obtain ⟨i, hi, -⟩ := hdigit
    simp [h] at hi
  have hlt := lt_decimal_of_strayDigits (List.length_pos_of_ne_nil hne)
    ((strayDigits_records _).mpr hdigit)
  intro heq
  simp only [readStream, extract_count] at heq
  split at heq
  · -- the records are zero bytes, so their first byte is no digit
    obtain ⟨i, hi, hd⟩ := hdigit
    have hmem := List.mem_of_mem_head? hi
    rw [← heq] at hmem
    have hzeros : ∀ size, ∀ b ∈ readBytes (fun _ => 0) false
        (l.intervals.flatMap recordBytes |>.drop
          (strayDigits (l.intervals.flatMap recordBytes)).length) size, b = 0 := by
      intro size b hb
      simp only [readBytes, Bool.false_eq_true, if_false, List.nil_append, List.mem_map] at hb
      obtain ⟨j, -, rfl⟩ := hb
      rfl
    have hzero := lower_of_mem_records (hzeros _) hmem
    rw [hzero] at hd
    exact absurd hd (by decide)
  · rename_i hsmall
    have hlen := congrArg List.length heq
    rw [length_records, BitVec.toNat_ofNat, Nat.mod_eq_of_lt (by omega)] at hlen
    omega

/-- **What is dumped is read back exactly when the number of intervals fits
a `uint32_t` and the first record does not start with a digit.** -/
theorem stream_roundTrip_iff (l : ListIntervals 32 s) :
    (∃ bytes, l.dumpStream = some bytes ∧
      ∀ (memory : Nat → BitVec 8) (o : ListIntervals 32 s),
        (o.readStream memory bytes).opEq l = true) ↔
      l.intervals.length < 2 ^ 32 ∧ ¬ StartsWithDigit l.intervals := by
  simp only [opEq_iff]
  constructor
  · rintro ⟨bytes, hdump, hread⟩
    unfold dumpStream at hdump
    split at hdump
    · cases hdump
    · rename_i hlen
      cases hdump
      exact ⟨Nat.lt_of_not_le hlen, fun hdigit => readStream_ne hdigit l (hread (fun _ => 0) l)⟩
  · rintro ⟨hlen, hdigit⟩
    refine ⟨_, if_neg (Nat.not_le_of_lt hlen), fun memory o => ?_⟩
    exact readStream_dumpStream hlen hdigit memory o

example : ({ intervals := [⟨1, 5⟩, ⟨8, 15⟩] } : ListIntervals 32 32).dumpStream =
    some [0x32, 1, 0, 0, 0, 5, 0, 0, 0, 8, 0, 0, 0, 15, 0, 0, 0] := by decide

/-- The byte 0x30 of the bound is read as a zero of the count. -/
theorem stream_misreads :
    ({ intervals := [⟨0x30, 0x40⟩] } : ListIntervals 32 32).dumpStream =
      some [0x31, 0x30, 0, 0, 0, 0x40, 0, 0, 0] ∧
    ∀ (memory : Nat → BitVec 8) (o : ListIntervals 32 32),
      (o.readStream memory [0x31, 0x30, 0, 0, 0, 0x40, 0, 0, 0]).intervals.length = 10 ∧
      (o.readStream memory [0x31, 0x30, 0, 0, 0, 0x40, 0, 0, 0]).opEq
        { intervals := [⟨0x30, 0x40⟩] } ≠ true := by
  have hcount : extract [0x31, 0x30, 0, 0, 0, 0x40, 0, 0, 0] =
      (10, true, [0, 0, 0, 0x40, 0, 0, 0]) := by decide
  refine ⟨by decide, fun memory o => ?_⟩
  have hlen : (o.readStream memory [0x31, 0x30, 0, 0, 0, 0x40, 0, 0, 0]).intervals.length = 10 := by
    simp only [readStream, hcount, length_records]
    rfl
  refine ⟨hlen, fun heq => ?_⟩
  rw [opEq_iff.mp heq] at hlen
  cases hlen

end ListIntervals

end Leeloo
