/-
Leeloo.Rank — the widths of a list of intervals, `size`, and the linear
walk of `get_rth_value`.

`widthSum` is the sum of the widths as a natural number. `size` agrees
with it as long as it fits in the base type, and the walk of
`get_rth_value` over a prefix only subtracts the prefix's width
(`getRthValueLoop_append`), which is all the index cache relies on.
-/
import Leeloo.ListIntervals

namespace Leeloo

open HalfOpen Leeloo.Interval ListIntervals

variable {w s : Nat}

/-- The sum of the widths, without wrapping. -/
def widthSum (l : List (Interval w)) : Nat := (l.map fun i => i.width.toNat).sum

@[simp] theorem widthSum_nil : widthSum ([] : List (Interval w)) = 0 := rfl

@[simp] theorem widthSum_cons (i : Interval w) (l : List (Interval w)) :
    widthSum (i :: l) = i.width.toNat + widthSum l := by
  simp [widthSum]

@[simp] theorem widthSum_append (l m : List (Interval w)) :
    widthSum (l ++ m) = widthSum l + widthSum m := by
  simp [widthSum]

theorem widthSum_take_add (l : List (Interval w)) (i k : Nat) :
    widthSum (l.take i) + widthSum ((l.drop i).take k) = widthSum (l.take (i + k)) := by
  rw [← widthSum_append, List.take_add]

theorem widthSum_take_le (l : List (Interval w)) (k : Nat) :
    widthSum (l.take k) ≤ widthSum l := by
  have h := widthSum_append (l.take k) (l.drop k)
  rw [List.take_append_drop] at h
  omega

/-- Proper intervals are not more than their widths add up to. -/
theorem length_le_widthSum {l : List (Interval w)} (hp : AllProper l) :
    l.length ≤ widthSum l := by
  induction l with
  | nil => simp
  | cons i l ih =>
    have hi := toNat_width_pos (hp i List.mem_cons_self)
    have hl := ih fun j hj => hp j (List.mem_cons_of_mem _ hj)
    simp only [List.length_cons, widthSum_cons]
    omega

/-- Summing widths into an accumulator of at least `w` bits does not wrap
as long as the sum fits. -/
theorem toNat_foldl_width {t : Nat} (hwt : w ≤ t) (l : List (Interval w)) (acc : BitVec t)
    (h : acc.toNat + widthSum l < 2 ^ t) :
    (l.foldl (fun cur it => cur + it.width.setWidth t) acc).toNat = acc.toNat + widthSum l := by
  induction l generalizing acc with
  | nil => simp
  | cons i l ih =>
    rw [widthSum_cons] at h
    have hi : (i.width.setWidth t).toNat = i.width.toNat :=
      BitVec.toNat_setWidth_of_le hwt
    have hacc : (acc + i.width.setWidth t).toNat = acc.toNat + i.width.toNat := by
      rw [BitVec.toNat_add_of_lt (by rw [hi]; omega), hi]
    rw [List.foldl_cons, ih _ (by rw [hacc]; omega), hacc, widthSum_cons]
    omega

/-- `size()` is the sum of the widths when that sum fits. -/
theorem toNat_size {l : ListIntervals w s} (h : widthSum l.intervals < 2 ^ w) :
    l.size.toNat = widthSum l.intervals := by
  have hfold := toNat_foldl_width (le_refl w) l.intervals 0 (by simpa using h)
  simpa [size] using hfold

/-! ## The walk of `get_rth_value` -/

/-- The walk over a prefix subtracts the width of the prefix. -/
theorem getRthValueLoop_append (l m : List (Interval w)) (cur : BitVec w) (k : Nat)
    (h : cur.toNat = widthSum l + k) :
    getRthValueLoop s cur (l ++ m) = getRthValueLoop s (BitVec.ofNat w k) m := by
  induction l generalizing cur with
  | nil =>
    have hk : cur = BitVec.ofNat w k := by
      apply BitVec.eq_of_toNat_eq
      rw [BitVec.toNat_ofNat, ← Nat.mod_eq_of_lt cur.isLt, h]
      simp
    rw [List.nil_append, hk]
  | cons i l ih =>
    rw [widthSum_cons] at h
    have hge : ¬ cur < i.width := by
      rw [BitVec.lt_def]
      omega
    rw [List.cons_append, getRthValueLoop, if_neg hge]
    apply ih
    rw [Word.toNat_sub_of_le (not_lt.mp hge)]
    omega

/-- The walk at a rank inside the first interval. -/
theorem getRthValueLoop_head {i : Interval w} (l : List (Interval w)) {cur : BitVec w}
    (hcur : cur < i.width) :
    getRthValueLoop s cur (i :: l) = (i.lower + cur).setWidth s := by
  rw [getRthValueLoop, if_pos hcur, width, Word.sub_sub_sub]

/-- The walk from an interval on to the end. -/
theorem getRthValue_to_end (l : ListIntervals w s) (r : BitVec w) (start : Nat) :
    l.getRthValue r start l.intervals.length =
      getRthValueLoop s r (l.intervals.drop start) := by
  rw [getRthValue, List.take_of_length_le (by rw [List.length_drop])]

end Leeloo
