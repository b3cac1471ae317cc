/-
Leeloo.Values — the values of a list of intervals in order, and `at` as
indexing into them.

For proper intervals that follow one another without overlap, `values` is
strictly ascending and holds exactly the covered values; `at` and, on a
cached list, `at_cached` return its element of the given rank
(`Cached.atCached_values`).
-/
import Leeloo.IndexCache

namespace Leeloo

open HalfOpen Leeloo.Interval ListIntervals

variable {w s : Nat}

/-- The values of one interval. -/
def intervalValues (i : Interval w) : List (BitVec w) :=
  (List.range i.width.toNat).map fun k => i.lower + BitVec.ofNat w k

/-- The values of a list of intervals, in its order. -/
def values (l : List (Interval w)) : List (BitVec w) := l.flatMap intervalValues

@[simp] theorem values_nil : values ([] : List (Interval w)) = [] := rfl

@[simp] theorem values_cons (i : Interval w) (l : List (Interval w)) :
    values (i :: l) = intervalValues i ++ values l := by
  simp [values]

@[simp] theorem length_intervalValues (i : Interval w) :
    (intervalValues i).length = i.width.toNat := by
  simp [intervalValues]

theorem length_values (l : List (Interval w)) : (values l).length = widthSum l := by
  induction l with
  | nil => rfl
  | cons i l ih => simp [ih]

/-- The value at an offset inside a proper interval does not wrap. -/
theorem toNat_lower_add {i : Interval w} (hi : i.Proper) {k : Nat} (hk : k < i.width.toNat) :
    (i.lower + BitVec.ofNat w k).toNat = i.lower.toNat + k := by
  have hlt := i.upper.isLt
  have hw := toNat_width hi
  have hk2 : k < 2 ^ w := by omega
  have hkn : (BitVec.ofNat w k).toNat = k := by
    rw [BitVec.toNat_ofNat, Nat.mod_eq_of_lt hk2]
  rw [BitVec.toNat_add_of_lt (by rw [hkn]; omega), hkn]

theorem mem_intervalValues {i : Interval w} (hi : i.Proper) {v : BitVec w} :
    v ∈ intervalValues i ↔ i.lower ≤ v ∧ v < i.upper := by
  have hw := toNat_width hi
  have hp : i.lower.toNat < i.upper.toNat := hi
  unfold intervalValues
  rw [List.mem_map]
  constructor
  · intro h
    obtain ⟨k, hk, rfl⟩ := h
    have hk := List.mem_range.mp hk
    have hv := toNat_lower_add hi hk
    rw [BitVec.le_def, BitVec.lt_def, hv]
    omega
  · intro h
    obtain ⟨hlow, hup⟩ := h
    have hlow : i.lower.toNat ≤ v.toNat := hlow
    have hup : v.toNat < i.upper.toNat := hup
    refine ⟨v.toNat - i.lower.toNat, List.mem_range.mpr (by omega), ?_⟩
    apply BitVec.eq_of_toNat_eq
    rw [toNat_lower_add hi (by omega)]
    omega

theorem mem_values_iff {l : List (Interval w)} (hl : AllProper l) {v : BitVec w} :
    v ∈ values l ↔ v ∈ covers l := by
  unfold values
  rw [List.mem_flatMap, mem_covers]
  constructor
  · intro h
    obtain ⟨i, hi, hv⟩ := h
    exact ⟨i, hi, (mem_intervalValues (hl i hi)).mp hv⟩
  · intro h
    obtain ⟨i, hi, hv⟩ := h
    exact ⟨i, hi, (mem_intervalValues (hl i hi)).mpr hv⟩

theorem intervalValues_ascending {i : Interval w} (hi : i.Proper) :
    (intervalValues i).Pairwise (· < ·) := by
  unfold intervalValues
  rw [List.pairwise_map]
  apply List.Pairwise.imp_of_mem _ List.pairwise_lt_range
  intro j k hj hk hjk
  rw [BitVec.lt_def, toNat_lower_add hi (List.mem_range.mp hj),
    toNat_lower_add hi (List.mem_range.mp hk)]
  omega

/-- Intervals that do not overlap list their values in ascending order. -/
theorem values_ascending {l : List (Interval w)} (hl : AllProper l)
    (hs : Separated (· ≤ ·) l) : (values l).Pairwise (· < ·) := by
  induction l with
  | nil => exact List.Pairwise.nil
  | cons i l ih =>
    have hi := hl i List.mem_cons_self
    have hl' : AllProper l := fun j hj => hl j (List.mem_cons_of_mem _ hj)
    obtain ⟨hhead, htail⟩ := List.pairwise_cons.mp hs
    rw [values_cons, List.pairwise_append]
    refine ⟨intervalValues_ascending hi, ih hl' htail, ?_⟩
    intro a ha b hb
    obtain ⟨j, hj, hjb, _⟩ := (mem_values_iff hl').mp hb
    exact lt_of_lt_of_le ((mem_intervalValues hi).mp ha).2 (le_trans (hhead j hj) hjb)

theorem values_nodup {l : List (Interval w)} (hl : AllProper l) (hs : Separated (· ≤ ·) l) :
    (values l).Nodup :=
  (values_ascending hl hs).imp ne_of_lt

/-- The widths of intervals that do not overlap add up below `2^w`. -/
theorem lower_add_widthSum_lt {i : Interval w} {l : List (Interval w)} (hl : AllProper (i :: l))
    (hs : Separated (· ≤ ·) (i :: l)) : i.lower.toNat + widthSum (i :: l) < 2 ^ w := by
  induction l generalizing i with
  | nil =>
    have hi := hl i List.mem_cons_self
    have hw := toNat_width hi
    have hp : i.lower.toNat < i.upper.toNat := hi
    have hlt := i.upper.isLt
    simp only [widthSum_cons, widthSum_nil]
    omega
  | cons j l ih =>
    have hi := hl i List.mem_cons_self
    have hw := toNat_width hi
    have hp : i.lower.toNat < i.upper.toNat := hi
    obtain ⟨hhead, htail⟩ := List.pairwise_cons.mp hs
    have hgap : i.upper.toNat ≤ j.lower.toNat := hhead j List.mem_cons_self
    have hj := ih (fun k hk => hl k (List.mem_cons_of_mem _ hk)) htail
    rw [widthSum_cons]
    omega

theorem widthSum_lt {l : List (Interval w)} (hl : AllProper l) (hs : Separated (· ≤ ·) l) :
    widthSum l < 2 ^ w := by
  cases l with
  | nil => simp
  | cons i l =>
    have := lower_add_widthSum_lt hl hs
    omega

/-! ## `at` and `at_cached` -/

/-- The walk of `get_rth_value` returns the value of that rank. -/
theorem getRthValueLoop_values (hws : w ≤ s) {l : List (Interval w)} (hl : AllProper l)
    {r : BitVec w} (hr : r.toNat < widthSum l) :
    (values l)[r.toNat]? = some ((getRthValueLoop s r l).setWidth w) := by
  induction l generalizing r with
  | nil => simp at hr
  | cons i l ih =>
    rw [widthSum_cons] at hr
    rw [values_cons]
    by_cases hin : r < i.width
    · have hin' : r.toNat < i.width.toNat := hin
      rw [getRthValueLoop_head l hin, List.getElem?_append_left (by simpa using hin'),
        Word.setWidth_setWidth hws]
      unfold intervalValues
      rw [List.getElem?_map, List.getElem?_range hin']
      simp
    · have hge : i.width ≤ r := not_lt.mp hin
      have hsub := Word.toNat_sub_of_le hge
      have hge' : i.width.toNat ≤ r.toNat := hge
      have htail := ih (r := r - i.width) (fun j hj => hl j (List.mem_cons_of_mem _ hj)) (by omega)
      rw [getRthValueLoop, if_neg hin, List.getElem?_append_right (by simpa using hge'),
        length_intervalValues, ← hsub]
      exact htail

/-- `at(r)` is the value of rank `r`. -/
theorem at_values (hws : w ≤ s) {l : ListIntervals w s} (hp : AllProper l.intervals)
    (hsum : widthSum l.intervals < 2 ^ w) {r : BitVec s}
    (hr : r.toNat < (values l.intervals).length) :
    l.at_ r = (values l.intervals)[r.toNat]? := by
  rw [length_values] at hr
  have hrw : (r.setWidth w).toNat = r.toNat := by
    rw [BitVec.toNat_setWidth, Nat.mod_eq_of_lt (by omega)]
  have hvalue := getRthValueLoop_values hws hp (r := r.setWidth w) (by omega)
  rw [hrw] at hvalue
  rw [at_eq (by rw [toNat_size hsum]; exact hr), hvalue]

/-- On a cached list `at_cached(r)` is the value of rank `r`. -/
theorem Cached.atCached_values (hws : w ≤ s) {l : ListIntervals w s} (h : Cached l)
    (hp : AllProper l.intervals) (hs : Separated (· ≤ ·) l.intervals) (hw : w ≤ 63) {r : BitVec w}
    (hr : r.toNat < (values l.intervals).length) :
    l.atCached r = (values l.intervals)[r.toNat]? := by
  have hsum := widthSum_lt hp hs
  have hrs : (r.setWidth s).toNat = r.toNat := BitVec.toNat_setWidth_of_le hws
  have hpow : 2 ^ w ≤ 2 ^ 63 := Nat.pow_le_pow_right (by omega) hw
  have hlen := length_le_widthSum hp
  have hsize : r < l.size := by
    rw [BitVec.lt_def, toNat_size hsum, ← length_values]
    exact hr
  rw [h.atCached_at hws hp hsum (by omega) hsize, at_values hws hp hsum (by omega), hrs]

end Leeloo
