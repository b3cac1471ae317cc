/-
Leeloo.Interval — `interval.h` and `utility.h`: the half-open interval
over an unsigned `w`-bit base type, and the two helpers the merge loops
use.

`interval<Integer>` is `HalfOpen (BitVec w)`; the class has no invariant,
so the model has none either. `width` is computed in the base type and wraps
there; so is `middle`, unless the base type is narrower than `int`.
-/
import Leeloo.Lib.HalfOpen
import Leeloo.Lib.Word

namespace Leeloo

/-- `interval<Integer>` for an unsigned integer of `w` bits. -/
abbrev Interval (w : Nat) : Type := HalfOpen (BitVec w)

namespace Interval

variable {w : Nat}

/-- `interval::width`. -/
def width (i : Interval w) : BitVec w := i.upper - i.lower

/-- `interval::middle`. Base types narrower than `int` are added in `int`. -/
def middle (i : Interval w) : BitVec w :=
  ((i.upper.setWidth (max w 32) + i.lower.setWidth (max w 32)) / 2).setWidth w

/-- `interval::contains`. -/
def contains (i : Interval w) (v : BitVec w) : Bool := decide (i.lower ≤ v) && decide (v < i.upper)

/-- `interval::set_lower`. -/
def setLower (i : Interval w) (lower : BitVec w) : Interval w := { i with lower := lower }

/-- `interval::set_upper`. -/
def setUpper (i : Interval w) (upper : BitVec w) : Interval w := { i with upper := upper }

/-- `interval::empty`, the sentinel `[0, 0)`. -/
def empty : Interval w := ⟨0, 0⟩

/-- `utility::overlap`: the two intervals share a point or touch. -/
def overlap (a b : Interval w) : Bool :=
  (decide (a.lower ≤ b.lower) && decide (b.lower ≤ a.upper)) ||
    (decide (b.lower ≤ a.lower) && decide (a.lower ≤ b.upper))

/-- `utility::hull`. -/
def hull (a b : Interval w) : Interval w := ⟨min a.lower b.lower, max a.upper b.upper⟩

/-! ## Small facts -/

@[simp] theorem setLower_lower (i : Interval w) (x : BitVec w) : (setLower i x).lower = x := rfl
@[simp] theorem setLower_upper (i : Interval w) (x : BitVec w) :
    (setLower i x).upper = i.upper := rfl
@[simp] theorem setUpper_lower (i : Interval w) (x : BitVec w) :
    (setUpper i x).lower = i.lower := rfl
@[simp] theorem setUpper_upper (i : Interval w) (x : BitVec w) : (setUpper i x).upper = x := rfl
@[simp] theorem empty_lower : (empty : Interval w).lower = 0 := rfl
@[simp] theorem empty_upper : (empty : Interval w).upper = 0 := rfl

@[simp] theorem contains_iff {i : Interval w} {v : BitVec w} :
    contains i v = true ↔ i.lower ≤ v ∧ v < i.upper := by
  simp [contains]

theorem overlap_iff {a b : Interval w} : overlap a b = true ↔
    (a.lower ≤ b.lower ∧ b.lower ≤ a.upper) ∨ (b.lower ≤ a.lower ∧ a.lower ≤ b.upper) := by
  simp [overlap]

/-- `width() > 0` only says that the bounds differ. -/
theorem width_pos_iff {i : Interval w} : 0 < width i ↔ i.lower ≠ i.upper := by
  rw [Word.pos_iff_ne_zero, width, ne_eq, Word.sub_eq_zero_iff, ne_comm]

/-- The width of a proper interval does not wrap. -/
theorem toNat_width {i : Interval w} (h : i.Proper) :
    (width i).toNat = i.upper.toNat - i.lower.toNat :=
  Word.toNat_sub_of_le (le_of_lt h)

theorem toNat_width_pos {i : Interval w} (h : i.Proper) : 0 < (width i).toNat := by
  have hlt : i.lower.toNat < i.upper.toNat := h
  rw [toNat_width h]
  omega

end Interval

end Leeloo
