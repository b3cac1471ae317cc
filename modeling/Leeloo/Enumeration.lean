/-
Leeloo.Enumeration — `size`, `at` and `value_iterator` enumerate one set.

In `list_intervals` the offset of a `value_iterator` is a `size_type`, which
may be wider than the base type: the sum of a lower bound and an offset is
taken there and narrowed by `operator*`. The iterator of `ValueIterator` is
the one whose `size_type` is the base type. On proper intervals both walk
together (`Walks.sized_step`), so the wider one also visits `values`.
-/
import Leeloo.ValueIterator
import Mathlib.Data.Set.Card

namespace Leeloo

open HalfOpen Leeloo.Interval ListIntervals

variable {w s : Nat}

/-- `value_iterator` of `list_intervals<interval, size_type>`. -/
structure SizedIterator (w s : Nat) where
  iter : List (Interval w)
  offset : BitVec s
  deriving DecidableEq, Repr

namespace SizedIterator

/-- `value_begin`. -/
def valueBegin (l : ListIntervals w s) : SizedIterator w s := ⟨l.intervals, 0⟩

/-- `value_end`. -/
def valueEnd (w s : Nat) : SizedIterator w s := ⟨[], 0⟩

/-- `operator*`. -/
def deref (it : SizedIterator w s) : Option (BitVec w) :=
  match it.iter with
  | [] => none
  | i :: _ => some ((i.lower.setWidth s + it.offset).setWidth w)

/-- `operator++`. -/
def incr (it : SizedIterator w s) : Option (SizedIterator w s) :=
  match it.iter with
  | [] => none
  | i :: rest =>
    if i.lower.setWidth s + it.offset ≠ i.upper.setWidth s - 1 then
      some ⟨i :: rest, it.offset + 1⟩
    else some ⟨rest, 0⟩

/-- The values a loop from `it` to `value_end` reads. -/
def visit : Nat → SizedIterator w s → Option (List (BitVec w))
  | 0, _ => none
  | fuel + 1, it =>
    if it = valueEnd w s then some []
    else do
      let v ← it.deref
      let next ← it.incr
      let vs ← visit fuel next
      some (v :: vs)

end SizedIterator

namespace ValueIterator

open SizedIterator

/-- The iterator with its offset in `size_type`. -/
def sized (s : Nat) (it : ValueIterator w) : SizedIterator w s := ⟨it.iter, it.offset.setWidth s⟩

theorem sized_eq_end_iff (hws : w ≤ s) {it : ValueIterator w} :
    it.sized s = SizedIterator.valueEnd w s ↔ it = valueEnd w := by
  obtain ⟨iter, offset⟩ := it
  have hzero : offset.setWidth s = 0 ↔ offset = 0 := by
    rw [BitVec.toNat_eq, BitVec.toNat_eq, BitVec.toNat_setWidth_of_le hws]
    simp
  rw [sized, SizedIterator.valueEnd, valueEnd, SizedIterator.mk.injEq, ValueIterator.mk.injEq,
    hzero]

theorem sized_deref (hws : w ≤ s) (it : ValueIterator w) : (it.sized s).deref = it.deref := by
  obtain ⟨iter, offset⟩ := it
  cases iter with
  | nil => rfl
  | cons i rest =>
    show some ((i.lower.setWidth s + offset.setWidth s).setWidth w) = some (i.lower + offset)
    rw [BitVec.setWidth_add _ _ hws, Word.setWidth_setWidth hws, Word.setWidth_setWidth hws]

/-- Inside an interval the wider sum and the wider offset do not wrap. -/
theorem Walks.sized_incr (hws : w ≤ s) {it : ValueIterator w} {vs : List (BitVec w)}
    (h : Walks it vs) : (it.sized s).incr = it.incr.map (sized s) := by
  obtain ⟨iter, offset⟩ := it
  cases iter with
  | nil => rfl
  | cons i rest =>
    have hin : offset.toNat < i.width.toNat := h.offset_ok
    have hi : i.Proper := h.proper i List.mem_cons_self
    have hwidth := toNat_width hi
    have hp : i.lower.toNat < i.upper.toNat := hi
    have hu := i.upper.isLt
    have hpow : 2 ^ w ≤ 2 ^ s := Nat.pow_le_pow_right (by omega) hws
    have hone : (1 : BitVec w).toNat = 1 := Word.toNat_one (by omega)
    have hones : (1 : BitVec s).toNat = 1 := Word.toNat_one (by omega)
    have hwide : ∀ x : BitVec w, (x.setWidth s).toNat = x.toNat := fun x =>
      BitVec.toNat_setWidth_of_le hws
    have hnext : offset.setWidth s + 1 = (offset + 1).setWidth s := by
      apply BitVec.eq_of_toNat_eq
      rw [BitVec.toNat_add_of_lt (by rw [hwide, hones]; omega), hwide, hwide, hones,
        BitVec.toNat_add_of_lt (by rw [hone]; omega), hone]
    have hlast : i.lower.setWidth s + offset.setWidth s ≠ i.upper.setWidth s - 1 ↔
        i.lower + offset ≠ i.upper - 1 := by
      rw [ne_eq, ne_eq, BitVec.toNat_eq, BitVec.toNat_eq,
        BitVec.toNat_add_of_lt (by rw [hwide, hwide]; omega),
        BitVec.toNat_add_of_lt (x := i.lower) (by omega),
        Word.toNat_sub_of_le (by rw [BitVec.le_def, hwide, hones]; omega),
        Word.toNat_sub_of_le (a := i.upper) (by rw [BitVec.le_def, hone]; omega),
        hwide, hwide, hwide, hone, hones]
    unfold SizedIterator.incr incr sized
    simp only
    by_cases hmore : i.lower + offset ≠ i.upper - 1
    · rw [if_pos hmore, if_pos (hlast.mpr hmore), hnext]
      rfl
    · rw [if_neg hmore, if_neg (fun hw => hmore (hlast.mp hw))]
      simp

/-- A loop over the iterator reads the values ahead of it. -/
theorem Walks.sized_visit (hws : w ≤ s) {it : ValueIterator w} {vs : List (BitVec w)}
    (h : Walks it vs) : (it.sized s).visit (vs.length + 1) = some vs := by
  induction vs generalizing it with
  | nil =>
    rw [visit, if_pos ((sized_eq_end_iff hws).mpr (h.eq_end_iff.mpr rfl))]
  | cons v vs ih =>
    obtain ⟨hderef, it', hincr, hwalks⟩ := h.step
    have hne : ¬ it.sized s = SizedIterator.valueEnd w s := fun he =>
      List.cons_ne_nil v vs (h.eq_end_iff.mp ((sized_eq_end_iff hws).mp he))
    rw [List.length_cons, visit, if_neg hne]
    simp only [sized_deref hws, hderef, h.sized_incr hws, hincr, Option.map_some, ih hwalks,
      Option.bind_eq_bind, Option.bind_some]

end ValueIterator

/-- Values listed without repetition are counted by the list. -/
theorem ncard_of_nodup {α : Type} {vs : List α} {t : Set α} (hnodup : vs.Nodup)
    (hmem : ∀ v, v ∈ vs ↔ v ∈ t) : t.ncard = vs.length := by
  classical
  have hset : t = (vs.toFinset : Set α) := by
    ext v
    rw [Finset.mem_coe, List.mem_toFinset, hmem]
  rw [hset, Set.ncard_coe_finset, List.toFinset_card_of_nodup hnodup]

/-- **Rank, size and iteration describe one set.** On an aggregated list
`size()` counts the covered values, and they are, in ascending order, both
`at(0), …, at(size() - 1)` and what a loop from `value_begin()` to
`value_end()` reads. -/
theorem at_visit_enumerate {w : Nat} (hw : w ≤ 32) (l : ListIntervals w 32)
    (hn : Normal l.intervals) :
    l.size.toNat = (covers l.intervals).ncard ∧
      ∃ vs : List (BitVec w), vs.Pairwise (· < ·) ∧ (∀ v, v ∈ vs ↔ v ∈ covers l.intervals) ∧
        vs.length = l.size.toNat ∧
        (∀ k < l.size.toNat, l.at_ (BitVec.ofNat 32 k) = vs[k]?) ∧
        (SizedIterator.valueBegin l).visit (l.size.toNat + 1) = some vs := by
  have hsep : Separated (· ≤ ·) l.intervals := hn.separated.imp le_of_lt
  have hsum := widthSum_lt hn.proper hsep
  have hsize : l.size.toNat = (values l.intervals).length := by
    rw [toNat_size hsum, length_values]
  have hpow : 2 ^ w ≤ 2 ^ 32 := Nat.pow_le_pow_right (by omega) hw
  refine ⟨?_, values l.intervals, values_ascending hn.proper hsep,
    fun v => mem_values_iff hn.proper, hsize.symm, ?_, ?_⟩
  · rw [hsize, ncard_of_nodup (values_nodup hn.proper hsep) fun v => mem_values_iff hn.proper]
  · intro k hk
    have hlt := l.size.isLt
    have hk32 : (BitVec.ofNat 32 k).toNat = k := by
      rw [BitVec.toNat_ofNat, Nat.mod_eq_of_lt (by omega)]
    rw [at_values hw hn.proper hsum (by rw [hk32, ← hsize]; exact hk), hk32]
  · have hwalks := ValueIterator.walks_valueBegin (l := { intervals := l.intervals }) hn.proper
    have hvisit := hwalks.sized_visit hw
    rw [hsize]
    simpa [ValueIterator.sized, ValueIterator.valueBegin, SizedIterator.valueBegin] using hvisit

/-- A list that starts at 0, ends at 255 and has an interval of width 1. -/
theorem at_visit_enumerate_bytes :
    let l : ListIntervals 8 32 := { intervals := [⟨0, 3⟩, ⟨9, 10⟩, ⟨253, 255⟩] }
    l.size.toNat = (covers l.intervals).ncard ∧
      ∃ vs : List (BitVec 8), vs.Pairwise (· < ·) ∧ (∀ v, v ∈ vs ↔ v ∈ covers l.intervals) ∧
        vs.length = l.size.toNat ∧
        (∀ k < l.size.toNat, l.at_ (BitVec.ofNat 32 k) = vs[k]?) ∧
        (SizedIterator.valueBegin l).visit (l.size.toNat + 1) = some vs :=
  at_visit_enumerate (by decide) { intervals := [⟨0, 3⟩, ⟨9, 10⟩, ⟨253, 255⟩] }
    ((normal_iff_isChain (by decide)).mpr (by decide))

end Leeloo
