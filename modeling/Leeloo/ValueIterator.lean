/-
Leeloo.ValueIterator — `list_intervals::value_iterator`, for lists whose
`size_type` is their base type.

The iterator points into a vector that does not change while it is used,
so it is kept as the intervals from its position on. Reading or advancing
it at the end is `none`. On proper intervals it walks their values in
order (`Walks`).
-/
import Leeloo.Values

namespace Leeloo

open HalfOpen Leeloo.Interval

variable {w : Nat}

/-- `value_iterator`: `_iter` with what follows it, and `_offset`. -/
structure ValueIterator (w : Nat) where
  iter : List (Interval w)
  offset : BitVec w
  deriving DecidableEq, Repr

namespace ValueIterator

/-- `value_begin`. -/
def valueBegin (l : ListIntervals w w) : ValueIterator w := ⟨l.intervals, 0⟩

/-- `value_end`. -/
def valueEnd (w : Nat) : ValueIterator w := ⟨[], 0⟩

/-- `operator*`. -/
def deref (it : ValueIterator w) : Option (BitVec w) :=
  match it.iter with
  | [] => none
  | i :: _ => some (i.lower + it.offset)

/-- `operator++`. -/
def incr (it : ValueIterator w) : Option (ValueIterator w) :=
  match it.iter with
  | [] => none
  | i :: rest =>
    if i.lower + it.offset ≠ i.upper - 1 then some ⟨i :: rest, it.offset + 1⟩
    else some ⟨rest, 0⟩

/-! ## The walk over proper intervals -/

/-- The offset is inside the interval pointed to, or 0 at the end. -/
def OffsetOk (it : ValueIterator w) : Prop :=
  match it.iter with
  | [] => it.offset = 0
  | i :: _ => it.offset.toNat < i.width.toNat

/-- The values from the iterator's position on. -/
def remaining (it : ValueIterator w) : List (BitVec w) := (values it.iter).drop it.offset.toNat

/-- The iterator has the values `vs` ahead. -/
structure Walks (it : ValueIterator w) (vs : List (BitVec w)) : Prop where
  proper : AllProper it.iter
  offset_ok : OffsetOk it
  remaining_eq : remaining it = vs

theorem walks_valueBegin {l : ListIntervals w w} (hp : AllProper l.intervals) :
    Walks (valueBegin l) (values l.intervals) where
  proper := hp
  offset_ok := by
    unfold OffsetOk valueBegin
    cases hl : l.intervals with
    | nil => rfl
    | cons i rest =>
      rw [hl] at hp
      have := toNat_width_pos (hp i List.mem_cons_self)
      simpa using this
  remaining_eq := by simp [remaining, valueBegin]

/-- Where the iterator points, its first value comes first. -/
theorem remaining_cons {i : Interval w} {rest : List (Interval w)} {offset : BitVec w}
    (h : offset.toNat < i.width.toNat) :
    remaining ⟨i :: rest, offset⟩ =
      (i.lower + offset) :: (intervalValues i).drop (offset.toNat + 1) ++ values rest := by
  have hlen : offset.toNat < (intervalValues i).length := by simpa using h
  show (values (i :: rest)).drop offset.toNat = _
  rw [values_cons, List.drop_append_of_le_length (by omega), List.drop_eq_getElem_cons hlen]
  simp [intervalValues]

/-- The end is reached exactly when no value is ahead. -/
theorem Walks.eq_end_iff {it : ValueIterator w} {vs : List (BitVec w)} (h : Walks it vs) :
    it = valueEnd w ↔ vs = [] := by
  obtain ⟨iter, offset⟩ := it
  obtain ⟨_, hok, hrem⟩ := h
  subst hrem
  cases iter with
  | nil =>
    have h0 : offset = 0 := hok
    rw [h0]
    simp [valueEnd, remaining]
  | cons i rest =>
    rw [remaining_cons hok]
    simp [valueEnd]

/-- **One step of the walk**: `operator*` is the first value ahead, and
`operator++` moves past it. -/
theorem Walks.step {it : ValueIterator w} {v : BitVec w} {vs : List (BitVec w)}
    (h : Walks it (v :: vs)) :
    it.deref = some v ∧ ∃ it', it.incr = some it' ∧ Walks it' vs := by
  obtain ⟨iter, offset⟩ := it
  obtain ⟨hp, hok, hrem⟩ := h
  cases iter with
  | nil => simp [remaining] at hrem
  | cons i rest =>
    have hin : offset.toNat < i.width.toNat := hok
    have hi : i.Proper := hp i List.mem_cons_self
    have hrest : AllProper rest := fun j hj => hp j (List.mem_cons_of_mem _ hj)
    rw [remaining_cons hin, List.cons_append, List.cons.injEq] at hrem
    obtain ⟨hv, hvs⟩ := hrem
    refine ⟨by rw [← hv]; rfl, ?_⟩
    -- the test of `operator++`: is the offset the last of the interval?
    have hlast : i.lower + offset ≠ i.upper - 1 ↔ offset.toNat + 1 < i.width.toNat := by
      have hw := toNat_width hi
      have hpi : i.lower.toNat < i.upper.toNat := hi
      have hu := i.upper.isLt
      have hone : (1 : BitVec w).toNat = 1 := Word.toNat_one (by omega)
      have hadd : (i.lower + offset).toNat = i.lower.toNat + offset.toNat :=
        BitVec.toNat_add_of_lt (by omega)
      have hsub : (i.upper - 1).toNat = i.upper.toNat - 1 := by
        rw [Word.toNat_sub_of_le (by rw [BitVec.le_def, hone]; omega), hone]
      rw [ne_eq, BitVec.toNat_eq, hadd, hsub]
      omega
    unfold incr
    by_cases hmore : offset.toNat + 1 < i.width.toNat
    · have hwlt := i.width.isLt
      have hnext : (offset + 1).toNat = offset.toNat + 1 := by
        have hone : (1 : BitVec w).toNat = 1 := Word.toNat_one (by omega)
        rw [BitVec.toNat_add_of_lt (by rw [hone]; omega), hone]
      refine ⟨⟨i :: rest, offset + 1⟩, if_pos (hlast.mpr hmore), hp, ?_, ?_⟩
      · show (offset + 1).toNat < i.width.toNat
        rw [hnext]
        exact hmore
      · unfold remaining
        rw [← hvs, hnext, values_cons, List.drop_append_of_le_length (by simp; omega)]
    · refine ⟨⟨rest, 0⟩, if_neg (fun h => hmore (hlast.mp h)), hrest, ?_, ?_⟩
      · have hbegin := walks_valueBegin (l := { intervals := rest }) hrest
        exact hbegin.offset_ok
      · rw [← hvs, List.drop_of_length_le (by simp; omega)]
        simp [remaining]

end ValueIterator

end Leeloo
