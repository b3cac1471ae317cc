/-
Leeloo.Contains — the lookup `contains` on an aggregated list.

The lookup is a dichotomy whose probes are guided by the lower bounds,
which needs the list sorted and separated (`contains_spec`). Its ends are
`size_type`s, and `b + a` does not wrap because an aggregated list over
`w` bits has at most `2^(w-1)` intervals (`two_mul_length_le`).

The lookup of the middle of a stored interval also depends on `middle`,
which adds the bounds in the base type (`contains_middle_iff`).
-/
import Leeloo.AggregateTheorems
import Leeloo.Lib.Dichotomy

namespace Leeloo

open HalfOpen Leeloo.Interval ListIntervals

variable {w s : Nat}

/-- Each interval of an aggregated list takes a value and leaves one out. -/
theorem lower_add_length_le {i : Interval w} {l : List (Interval w)} (h : Normal (i :: l)) :
    i.lower.toNat + 2 * (l.length + 1) ≤ 2 ^ w := by
  induction l generalizing i with
  | nil =>
    have hp : i.lower.toNat < i.upper.toNat := h.head_proper
    have hlt := i.upper.isLt
    simp only [List.length_nil]
    omega
  | cons j l ih =>
    have hp : i.lower.toNat < i.upper.toNat := h.head_proper
    have hgap : i.upper.toNat < j.lower.toNat := h.head_lt List.mem_cons_self
    have hj := ih h.tail
    simp only [List.length_cons]
    omega

theorem two_mul_length_le {l : List (Interval w)} (h : Normal l) : 2 * l.length ≤ 2 ^ w := by
  cases l with
  | nil => simp
  | cons i l =>
    have hi := lower_add_length_le h
    simp only [List.length_cons]
    omega

/-! ## The lookup as a search -/

theorem containsScan_eq (l : ListIntervals w s) (v : BitVec w) (n i : Nat) :
    containsScan l v n i =
      (Dichotomy.scan l.intervals (Interval.contains · v) n i).map Option.isSome := by
  induction n generalizing i with
  | zero => rfl
  | succ n ih =>
    unfold containsScan Dichotomy.scan
    cases l.intervals[i]? with
    | none => rfl
    | some it =>
      simp only [Option.bind_eq_bind, Option.bind_some, ih]
      split <;> rfl

/-- The dichotomy of `contains` tells whether the search finds an
interval. -/
theorem containsLoop_eq (l : ListIntervals w s) (v : BitVec w) (fuel : Nat) (a b : BitVec s) :
    containsLoop l v fuel a b =
      (Dichotomy.search l.intervals (Interval.contains · v) (fun it => decide (v < it.lower))
        fuel a b).map Option.isSome := by
  induction fuel generalizing a b with
  | zero => rfl
  | succ fuel ih =>
    unfold containsLoop Dichotomy.search
    by_cases hgt : 4 < (b - a).toNat
    · rw [if_pos hgt, if_pos hgt]
      simp only
      cases l.intervals[((b + a) / 2).toNat]? with
      | none => rfl
      | some it =>
        simp only [Option.bind_eq_bind, Option.bind_some, ih, decide_eq_true_eq]
        split_ifs <;> rfl
    · rw [if_neg hgt, if_neg hgt, containsScan_eq]

/-- **`contains` is membership** on an aggregated list. -/
theorem contains_spec {l : ListIntervals w s} (hws : w ≤ s) (hn : Normal l.intervals)
    (v : BitVec w) : ∃ r, l.contains v = some r ∧ (r = true ↔ v ∈ covers l.intervals) := by
  have hpow : 2 ^ w ≤ 2 ^ s := Nat.pow_le_pow_right (by omega) hws
  have hlen := two_mul_length_le hn
  have hpos := Nat.two_pow_pos s
  have hg : Dichotomy.Guides l.intervals (Interval.contains · v) fun it => decide (v < it.lower) :=
    Dichotomy.guides_of_consecutive (by rw [List.map_id']; exact hn.consecutive)
      (fun _ => contains_iff) fun _ => decide_eq_true_iff
  obtain ⟨r, hr, hnone⟩ := Dichotomy.exists_search (s := s) hg (by omega) (by omega)
  refine ⟨r.isSome, ?_, ?_⟩
  · rw [ListIntervals.contains, containsLoop_eq, hr, Option.map_some]
  · rw [Option.isSome_iff_ne_none, ne_eq, hnone]
    simp only [not_forall, not_not, contains_iff, exists_prop]
    exact Iff.rfl

theorem contains_true_iff {l : ListIntervals w s} (hws : w ≤ s) (hn : Normal l.intervals)
    {v : BitVec w} : l.contains v = some true ↔ v ∈ covers l.intervals := by
  obtain ⟨r, hr, hiff⟩ := contains_spec hws hn v
  rw [hr, Option.some.injEq, hiff]

theorem contains_false_iff {l : ListIntervals w s} (hws : w ≤ s) (hn : Normal l.intervals)
    {v : BitVec w} : l.contains v = some false ↔ v ∉ covers l.intervals := by
  obtain ⟨r, hr, hiff⟩ := contains_spec hws hn v
  rw [hr, Option.some.injEq, ← hiff, Bool.not_eq_true]

/-- **`contains` on 32-bit lists.** Whatever the number of intervals, the
lookup ends and tells whether a stored interval contains the value. -/
theorem contains_returns {s : Nat} (hs : 32 ≤ s) (l : ListIntervals 32 s)
    (hn : Normal l.intervals) (v : BitVec 32) :
    ∃ r, l.contains v = some r ∧ (r = true ↔ ∃ i ∈ l.intervals, i.lower ≤ v ∧ v < i.upper) :=
  contains_spec hs hn v

theorem contains_returns_six :
    ∃ r, ({ intervals := [⟨0, 1⟩, ⟨4, 7⟩, ⟨10, 12⟩, ⟨20, 24⟩, ⟨30, 33⟩,
        ⟨0xFFFFFF00, 0xFFFFFFFF⟩] } : ListIntervals 32 32).contains 0xFFFFFFFE = some r ∧
      (r = true ↔ ∃ i ∈ [⟨0, 1⟩, ⟨4, 7⟩, ⟨10, 12⟩, ⟨20, 24⟩, ⟨30, 33⟩,
        (⟨0xFFFFFF00, 0xFFFFFFFF⟩ : Interval 32)], i.lower ≤ 0xFFFFFFFE ∧ 0xFFFFFFFE < i.upper) :=
  contains_returns (le_refl 32)
    { intervals := [⟨0, 1⟩, ⟨4, 7⟩, ⟨10, 12⟩, ⟨20, 24⟩, ⟨30, 33⟩, ⟨0xFFFFFF00, 0xFFFFFFFF⟩] }
    ((normal_iff_isChain (by decide)).mpr (by decide)) 0xFFFFFFFE

/-- In any list, aggregated or not, a value that is found is in a stored
interval. -/
theorem exists_of_contains {l : ListIntervals w s} {v : BitVec w}
    (h : l.contains v = some true) : ∃ it ∈ l.intervals, it.contains v = true := by
  rw [ListIntervals.contains, containsLoop_eq] at h
  obtain ⟨r, hr, hsome⟩ := Option.map_eq_some_iff.mp h
  obtain ⟨it, rfl⟩ := Option.isSome_iff_exists.mp hsome
  exact ⟨it, Dichotomy.hit_of_search hr⟩

/-! ## The bounds and the middle of a stored interval -/

/-- The middle, as it is computed from a sum that may wrap. -/
theorem toNat_middle (i : Interval 32) :
    i.middle.toNat = (i.upper.toNat + i.lower.toNat) % 2 ^ 32 / 2 := by
  have hmiddle : i.middle = (i.upper + i.lower) / 2 := by
    show ((i.upper.setWidth 32 + i.lower.setWidth 32) / 2).setWidth 32 = _
    simp only [BitVec.setWidth_eq]
  rw [hmiddle]
  exact Word.toNat_add_div_two (by omega)

/-- In a narrow base type the sum does not wrap. -/
theorem middle_mem_of_narrow {w : Nat} (hw : w < 32) {i : Interval w} (hi : i.Proper) :
    i.middle ∈ i.toSet := by
  have hmax : max w 32 = 32 := Nat.max_eq_right hw.le
  have hpow : 2 ^ w ≤ 2 ^ 31 := Nat.pow_le_pow_right (by omega) (by omega)
  have hlower := i.lower.isLt
  have hupper := i.upper.isLt
  have hlt : i.lower.toNat < i.upper.toNat := hi
  have hword : 2 < 2 ^ max w 32 := by
    rw [hmax]
    omega
  have hmiddle : i.middle.toNat = (i.upper.toNat + i.lower.toNat) / 2 := by
    simp only [middle, BitVec.toNat_setWidth, Word.toNat_add_div_two hword, hmax]
    rw [Nat.mod_eq_of_lt (show i.upper.toNat < 2 ^ 32 by omega),
      Nat.mod_eq_of_lt (show i.lower.toNat < 2 ^ 32 by omega),
      Nat.mod_eq_of_lt (show i.upper.toNat + i.lower.toNat < 2 ^ 32 by omega)]
    exact Nat.mod_eq_of_lt (by omega)
  rw [mem_toSet, BitVec.le_def, BitVec.lt_def, hmiddle]
  omega

/-- **When `contains` finds the middle of a stored interval.** The lower
bound of a stored interval is found and its upper bound is not. The middle
is found exactly when the sum of the bounds fits in 32 bits, or the middle
of the wrapped sum lies in another stored interval. -/
theorem contains_middle_iff {s : Nat} (hs : 32 ≤ s) (l : ListIntervals 32 s)
    (hn : Normal l.intervals) {i : Interval 32} (hi : i ∈ l.intervals) :
    (l.contains i.lower = some true ∧ l.contains i.middle = some true ∧
        l.contains i.upper = some false) ↔
      i.lower.toNat + i.upper.toNat < 2 ^ 32 ∨
        ∃ j ∈ l.intervals, j.lower.toNat ≤ (i.lower.toNat + i.upper.toNat - 2 ^ 32) / 2 ∧
          (i.lower.toNat + i.upper.toNat - 2 ^ 32) / 2 < j.upper.toNat := by
  have hlower : l.contains i.lower = some true :=
    (contains_true_iff hs hn).mpr ⟨i, hi, (hn.proper i hi).lower_mem⟩
  have hupper : l.contains i.upper = some false :=
    (contains_false_iff hs hn).mpr (hn.upper_not_mem hi)
  have hmiddle := toNat_middle i
  have hp : i.lower.toNat < i.upper.toNat := hn.proper i hi
  have hword := i.upper.isLt
  simp only [hlower, hupper, true_and, and_true]
  rw [contains_true_iff hs hn]
  by_cases hsum : i.lower.toNat + i.upper.toNat < 2 ^ 32
  · refine iff_of_true ⟨i, hi, ?_⟩ (Or.inl hsum)
    rw [mem_toSet, BitVec.le_def, BitVec.lt_def]
    omega
  · have hwrapped : i.middle.toNat = (i.lower.toNat + i.upper.toNat - 2 ^ 32) / 2 := by omega
    rw [or_iff_right hsum, ← hwrapped]
    exact Iff.rfl

/-- Two intervals below `2^31`. -/
theorem contains_middle_low :
    let l : ListIntervals 32 32 := { intervals := [⟨10, 20⟩, ⟨0x7FFFFF00, 0x80000000⟩] }
    l.contains 0x7FFFFF00 = some true ∧
      l.contains (middle ⟨0x7FFFFF00, 0x80000000⟩) = some true ∧
      l.contains 0x80000000 = some false :=
  (contains_middle_iff (le_refl 32) { intervals := [⟨10, 20⟩, ⟨0x7FFFFF00, 0x80000000⟩] }
    ((normal_iff_isChain (by decide)).mpr (by decide)) (i := ⟨0x7FFFFF00, 0x80000000⟩)
    (by simp)).mpr (Or.inl (by decide))

/-- The middle of `[0x80000000, 0x80000010)` is computed as 8. -/
theorem not_contains_middle :
    let l : ListIntervals 32 32 := { intervals := [⟨0x80000000, 0x80000010⟩] }
    Normal l.intervals ∧ middle (⟨0x80000000, 0x80000010⟩ : Interval 32) = 8 ∧
      l.contains (middle ⟨0x80000000, 0x80000010⟩) = some false :=
  ⟨(normal_iff_isChain (by decide)).mpr (by decide), by decide, by decide⟩

end Leeloo
