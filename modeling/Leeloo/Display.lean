/-
Leeloo.Display — what `tools/aggregate.cpp` prints for a list, and when it
is read back.

`display` writes an interval whose width is a power of two as a CIDR block
from its lower bound, and any other as a range of its two bounds. The
parser masks the address of a CIDR block, and it takes the second address
of a range as the last one of the range, where the bound is exclusive.
-/
import Leeloo.Entry
import Leeloo.AggregateTheorems

namespace Leeloo

open Text HalfOpen IpsParser
open IpListIntervals (appended closedEnd cidrInterval)

/-! ## The printer -/

/-- Byte `k` of an address, from the low end. -/
def byteOf (ip : BitVec 32) (k : Nat) : Nat := (ip >>> (8 * k)).toNat % 256

/-- `ip2str`: `inet_ntoa` on the bytes in network order. -/
def ip2str (ip : BitVec 32) : List Char :=
  Nat.toDigits 10 (byteOf ip 3) ++ '.' :: (Nat.toDigits 10 (byteOf ip 2) ++
    '.' :: (Nat.toDigits 10 (byteOf ip 1) ++ '.' :: Nat.toDigits 10 (byteOf ip 0)))

/-- `display`: the line without its end. -/
def display (it : Interval 32) : List Char :=
  if it.width.cpop.toNat = 1 then
    ip2str it.lower ++ '/' :: Nat.toDigits 10 (32 - it.width.ctz.toNat)
  else ip2str it.lower ++ '-' :: ip2str it.upper

/-- `add(const char*)` for one line after the other, whatever it returns. -/
def addLines (l : IpListIntervals) : List CString → Option IpListIntervals
  | [] => some l
  | line :: lines => do
    let (_, l) ← parseIpsAdd l line
    addLines l lines

/-! ## The printed addresses -/

/-- The octet of a byte, as `inet_ntoa` writes it. -/
def Octet.ofNat (n : Nat) (h : n ≤ 255) : Octet :=
  .plain (Nat.toDigits 10 n)
    ⟨Nat.toDigits_ne_nil, all_isdigit_toDigits n, by rw [decimal_toDigits]; exact h⟩

@[simp] theorem Octet.value_ofNat (n : Nat) (h : n ≤ 255) : (Octet.ofNat n h).value = n :=
  decimal_toDigits n

theorem Octet.text_ofNat (n : Nat) (h : n ≤ 255) : (Octet.ofNat n h).text = Nat.toDigits 10 n := by
  simp [Octet.ofNat, Octet.plain, Octet.text]

theorem Octet.short_ofNat (n : Nat) (h : n ≤ 255) : (Octet.ofNat n h).Short :=
  (Nat.length_toDigits_le_iff (by omega) (by omega)).mpr (by omega)

theorem byteOf_le (ip : BitVec 32) (k : Nat) : byteOf ip k ≤ 255 :=
  Nat.le_of_lt_succ (Nat.mod_lt _ (by omega))

/-- The address `ip2str` writes. -/
def Address.ofIp (ip : BitVec 32) : Address :=
  .four (.ofNat (byteOf ip 3) (byteOf_le ip 3)) (.ofNat (byteOf ip 2) (byteOf_le ip 2))
    (.ofNat (byteOf ip 1) (byteOf_le ip 1)) (.ofNat (byteOf ip 0) (byteOf_le ip 0))
    ⟨Octet.short_ofNat _ _, Octet.short_ofNat _ _, Octet.short_ofNat _ _, Octet.short_ofNat _ _⟩

theorem Address.text_ofIp (ip : BitVec 32) : (Address.ofIp ip).text = ip2str ip := by
  simp [Address.ofIp, Address.four, Address.text, ip2str, Octet.text_ofNat, List.intercalate]

theorem Address.full_ofIp (ip : BitVec 32) : (Address.ofIp ip).Full := rfl

theorem Address.value_ofIp (ip : BitVec 32) : (Address.ofIp ip).value = ip := by
  have hlt := ip.isLt
  have hvalue : (Address.ofIp ip).value =
      quad (byteOf ip 3) (byteOf ip 2) (byteOf ip 1) (byteOf ip 0) := by
    simp [Address.value, Address.octet, Address.ofIp, Address.four]
  rw [hvalue, BitVec.toNat_eq, toNat_quad (byteOf_le ip 3) (byteOf_le ip 2) (byteOf_le ip 1)
    (byteOf_le ip 0)]
  simp only [byteOf, BitVec.toNat_ushiftRight, Nat.shiftRight_eq_div_pow]
  omega

/-! ## The printed lines -/

theorem prefix_le (it : Interval 32) : 32 - it.width.ctz.toNat ≤ 255 := by omega

/-- The entry `display` writes. -/
def lineEntry (it : Interval 32) : Entry :=
  if it.width.cpop.toNat = 1 then
    .cidr (.ofIp it.lower) (.ofNat (32 - it.width.ctz.toNat) (prefix_le it))
      (by rw [Octet.value_ofNat]; omega)
  else .range (.ofIp it.lower) (.ofIp it.upper) (Address.full_ofIp _) (Address.full_ofIp _)

theorem text_lineEntry (it : Interval 32) : (lineEntry it).text = display it := by
  unfold lineEntry display
  split
  · rw [Entry.text, Address.text_ofIp, Octet.text_ofNat]
  · rw [Entry.text, Address.text_ofIp, Address.text_ofIp]

/-- The interval a line is read as. -/
def lineInterval (it : Interval 32) : Interval 32 :=
  if it.width.cpop.toNat = 1 then cidrInterval it.lower (32 - it.width.ctz.toNat)
  else rangeInterval (it.lower, it.upper)

theorem interval_lineEntry (it : Interval 32) : (lineEntry it).interval = lineInterval it := by
  unfold lineEntry lineInterval
  split
  · rw [Entry.interval, Address.value_ofIp, Octet.value_ofNat]
  · rw [Entry.interval, Address.value_ofIp, Address.value_ofIp]

/-- The lines of a list append an interval each. -/
theorem addLines_display (its : List (Interval 32)) {lines : List CString}
    (hlines : lines.map CString.chars = its.map display) (l : IpListIntervals) :
    addLines l lines = some (appended false l (its.map lineInterval)) := by
  induction its generalizing lines l with
  | nil =>
    have hnil : lines = [] := by simpa using hlines
    simp [hnil, addLines, IpListIntervals.appended_nil]
  | cons it its ih =>
    cases lines with
    | nil => simp at hlines
    | cons line lines =>
      simp only [List.map_cons, List.cons.injEq] at hlines
      have hline := (lineEntry it).parseIps_text (hlines.1.trans (text_lineEntry it).symm) false l
      rw [addLines, parseIpsAdd, hline, interval_lineEntry]
      show addLines _ lines = _
      rw [ih hlines.2, IpListIntervals.appended_appended]
      rfl

/-! ## When a line is read back -/

/-- A block at a multiple of its size, or a range to the last address. -/
def ReadBack (it : Interval 32) : Prop :=
  (∃ k, it.width.toNat = 2 ^ k ∧ 2 ^ k ∣ it.lower.toNat) ∨
    ((¬ ∃ k, it.width.toNat = 2 ^ k) ∧ it.upper = 0xFFFFFFFF)

theorem cpop_eq_one_iff {x : BitVec 32} : x.cpop.toNat = 1 ↔ ∃ k, x.toNat = 2 ^ k := by
  rw [Word.toNat_cpop_eq_one_iff]
  constructor
  · rintro ⟨k, hk, rfl⟩
    exact ⟨k, BitVec.toNat_twoPow_of_lt hk⟩
  · rintro ⟨k, hk⟩
    have hlt : k < 32 := (Nat.pow_lt_pow_iff_right (a := 2) (by omega)).mp (hk ▸ x.isLt)
    exact ⟨k, hlt, BitVec.eq_of_toNat_eq (by rw [hk, BitVec.toNat_twoPow_of_lt hlt])⟩

theorem toNat_closedEnd (b : BitVec 32) :
    (closedEnd b).toNat = min (b.toNat + 1) (2 ^ 32 - 1) := by
  have hb := b.isLt
  unfold closedEnd
  split
  · rename_i h
    have hne : b.toNat ≠ 2 ^ 32 - 1 := fun he => h (BitVec.eq_of_toNat_eq he)
    rw [BitVec.toNat_add]
    show (b.toNat + 1) % 2 ^ 32 = _
    omega
  · rename_i h
    have he : b = 0xFFFFFFFF := by simpa using h
    subst he
    rfl

/-- The bounds a CIDR line is read with. -/
theorem toNat_lineInterval_block {it : Interval 32} {k : Nat} (hk : it.width.toNat = 2 ^ k) :
    (lineInterval it).lower.toNat = Block.floor (2 ^ k) it.lower.toNat ∧
    (lineInterval it).upper.toNat =
      min (Block.floor (2 ^ k) it.lower.toNat + 2 ^ k) (2 ^ 32 - 1) := by
  have hpos := Nat.two_pow_pos k
  have hlt : k < 32 := (Nat.pow_lt_pow_iff_right (a := 2) (by omega)).mp (hk ▸ it.width.isLt)
  have hwidth : it.width = BitVec.twoPow 32 k :=
    BitVec.eq_of_toNat_eq (by rw [hk, BitVec.toNat_twoPow_of_lt hlt])
  have hsub : 32 - (32 - k) = k := by omega
  rw [lineInterval, if_pos (cpop_eq_one_iff.mpr ⟨k, hk⟩), hwidth, Word.toNat_ctz_twoPow hlt,
    cidrInterval, hsub, toNat_closedEnd, Block.toNat_and_not_lowMask (by omega),
    Block.toNat_or_lowMask (by omega)]
  omega

/-- The bounds a range line is read with. -/
theorem lineInterval_range {it : Interval 32} (h : it.Proper) (hk : ¬ ∃ k, it.width.toNat = 2 ^ k) :
    lineInterval it = ⟨it.lower, closedEnd it.upper⟩ := by
  have hle : it.lower ≤ it.upper := le_of_lt h
  rw [lineInterval, if_neg (fun hc => hk (cpop_eq_one_iff.mp hc)), rangeInterval,
    min_eq_left hle, max_eq_right hle]

/-- A line begins no later than its interval and reaches into it. -/
theorem lineInterval_bounds {it : Interval 32} (h : it.Proper) :
    (lineInterval it).lower ≤ it.lower ∧ it.lower < (lineInterval it).upper := by
  have hlt : it.lower.toNat < it.upper.toNat := h
  have hup := it.upper.isLt
  by_cases hk : ∃ k, it.width.toNat = 2 ^ k
  · obtain ⟨k, hk⟩ := hk
    have hend := Block.lt_floor_add (Nat.two_pow_pos k) it.lower.toNat
    obtain ⟨hlow, hhigh⟩ := toNat_lineInterval_block hk
    rw [BitVec.le_def, BitVec.lt_def, hlow, hhigh]
    exact ⟨Block.floor_le _ _, by omega⟩
  · rw [lineInterval_range h hk, BitVec.lt_def, toNat_closedEnd]
    exact ⟨le_refl _, by omega⟩

/-- Alignment, and the last address as the bound, are what it takes. -/
theorem lineInterval_eq_of_readBack {it : Interval 32} (h : it.Proper) (hr : ReadBack it) :
    lineInterval it = it := by
  have hlt : it.lower.toNat < it.upper.toNat := h
  have hup := it.upper.isLt
  have hwidth := Interval.toNat_width h
  cases hr with
  | inl hblock =>
    obtain ⟨k, hk, hdvd⟩ := hblock
    have hfloor := Block.floor_of_mod_eq_zero (Nat.mod_eq_zero_of_dvd hdvd)
    obtain ⟨hlow, hhigh⟩ := toNat_lineInterval_block hk
    rw [hfloor] at hlow hhigh
    refine HalfOpen.ext (BitVec.eq_of_toNat_eq hlow) (BitVec.eq_of_toNat_eq ?_)
    rw [hhigh]
    omega
  | inr hrange =>
    obtain ⟨hk, hlast⟩ := hrange
    rw [lineInterval_range h hk]
    refine HalfOpen.ext rfl ?_
    simp [closedEnd, hlast]

/-- And nothing less: the line must not end behind the interval. -/
theorem readBack_of_within {it : Interval 32} (h : it.Proper)
    (hlow : (lineInterval it).lower = it.lower) (hup : (lineInterval it).upper ≤ it.upper) :
    ReadBack it := by
  by_cases hk : ∃ k, it.width.toNat = 2 ^ k
  · obtain ⟨k, hk⟩ := hk
    refine Or.inl ⟨k, hk, Nat.dvd_of_mod_eq_zero ?_⟩
    have hfloor := (toNat_lineInterval_block hk).1
    rw [hlow] at hfloor
    rw [hfloor, Block.floor_mod]
  · refine Or.inr ⟨hk, BitVec.eq_of_toNat_eq ?_⟩
    have hb := it.upper.isLt
    rw [lineInterval_range h hk, BitVec.le_def, toNat_closedEnd] at hup
    show it.upper.toNat = 2 ^ 32 - 1
    omega

/-- **The printed lines are read back to the list exactly when every
interval is an aligned block, or ends at 255.255.255.255 and has a width
that is no power of two.** -/
theorem display_readBack_iff (l : IpListIntervals) (hl : Normal l.intervals)
    (lines : List CString) (hlines : lines.map CString.chars = l.intervals.map display)
    (sorts : Sorts 32) :
    (∃ m, addLines {} lines = some m ∧ (m.aggregate sorts).opEq l = true) ↔
      ∀ it ∈ l.intervals, ReadBack it := by
  have hadd := addLines_display l.intervals hlines {}
  rw [hadd]
  simp only [Option.some.injEq, exists_eq_left', ListIntervals.opEq_iff]
  rw [ListIntervals.aggregate_intervals_of_or sorts (Or.inl rfl)]
  show aggregateContainer sorts.stored ([] ++ l.intervals.map lineInterval) =
    l.intervals ↔ _
  rw [List.nil_append]
  constructor
  · intro heq it hit
    have hp := hl.proper it hit
    obtain ⟨hlow, hup⟩ := lineInterval_bounds hp
    have hsub : (lineInterval it).toSet ⊆ covers l.intervals := by
      intro v hv
      rw [← heq, covers_aggregateContainer]
      exact ⟨lineInterval it, List.mem_map_of_mem hit, hv⟩
    obtain ⟨hwithin, hend⟩ := hl.within_of_subset hit hlow hup hsub
    exact readBack_of_within hp hwithin hend
  · intro h
    have hself : l.intervals.map lineInterval = l.intervals := by
      refine List.map_congr_left (fun it hit => ?_) |>.trans (List.map_id _)
      exact lineInterval_eq_of_readBack (hl.proper it hit) (h it hit)
    rw [hself, aggregateContainer_of_normal sorts.stored hl]

/-- The list of the witness: two intervals that overlap, one shortened by a
removal, and one that ends at the last address. -/
def displaySample : IpListIntervals where
  intervals := [⟨0x0A800000, 0x0B000000⟩, ⟨0x0A000000, 0x0A900000⟩, ⟨0xC0A80000, 0xC0A80006⟩,
    ⟨0xFFFFFF00, 0xFFFFFFFF⟩]
  removedIntervals := [⟨0xC0A80000, 0xC0A80005⟩]

theorem display_readBack_sample :
    let l := displaySample.aggregate (Sorts.insertion 32)
    let lines : List CString :=
      [⟨"10.0.0.0/8".toList, 4096, by decide, by decide⟩,
        ⟨"192.168.0.5/32".toList, 4112, by decide, by decide⟩,
        ⟨"255.255.255.0-255.255.255.255".toList, 4128, by decide, by decide⟩]
    l.intervals.map display = lines.map CString.chars ∧
    ∃ m, addLines {} lines = some m ∧ (m.aggregate (Sorts.insertion 32)).opEq l = true := by
  intro l lines
  have hruns : l.intervals =
      [⟨0x0A000000, 0x0B000000⟩, ⟨0xC0A80005, 0xC0A80006⟩, ⟨0xFFFFFF00, 0xFFFFFFFF⟩] := by decide
  have hlines : l.intervals.map display = lines.map CString.chars := by
    rw [hruns]
    decide +kernel
  refine ⟨hlines, (display_readBack_iff l
    (ListIntervals.aggregate_normal _ (by decide) (by decide)) lines hlines.symm
    (Sorts.insertion 32)).mpr ?_⟩
  rw [hruns]
  intro it hit
  simp only [List.mem_cons, List.not_mem_nil, or_false] at hit
  obtain rfl | rfl | rfl := hit
  · exact Or.inl ⟨24, by decide, by decide⟩
  · exact Or.inl ⟨0, by decide, by decide⟩
  · refine Or.inr ⟨?_, rfl⟩
    rw [← cpop_eq_one_iff]
    decide

/-- The exclusive bound 0.0.0.4 is printed as if it were the last
address. -/
theorem display_grows :
    Normal [(⟨1, 4⟩ : Interval 32)] ∧ display ⟨1, 4⟩ = "0.0.0.1-0.0.0.4".toList ∧
    addLines {} [⟨"0.0.0.1-0.0.0.4".toList, 4096, by decide, by decide⟩] =
      some { intervals := [⟨1, 5⟩] } ∧
    ({ intervals := [⟨1, 5⟩] } : IpListIntervals).aggregate (Sorts.insertion 32) =
      { intervals := [⟨1, 5⟩] } ∧
    ¬ ∃ m, addLines {} [⟨"0.0.0.1-0.0.0.4".toList, 4096, by decide, by decide⟩] = some m ∧
      (m.aggregate (Sorts.insertion 32)).opEq { intervals := [⟨1, 4⟩] } = true := by
  have hadd : addLines {} [⟨"0.0.0.1-0.0.0.4".toList, 4096, by decide, by decide⟩] =
      some { intervals := [⟨1, 5⟩] } := by decide
  refine ⟨⟨by decide, List.pairwise_singleton _ _⟩, by decide, hadd, by decide, ?_⟩
  rintro ⟨m, hm, heq⟩
  rw [hadd] at hm
  cases hm
  exact absurd heq (by decide)

end Leeloo
