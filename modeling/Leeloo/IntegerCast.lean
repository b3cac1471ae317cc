/-
Leeloo.IntegerCast — `integer_cast.h`.

`strict_integer_cast` has two overloads, and `sizeof` alone chooses between
them. The one for a smaller target compares the value with the bounds of
the target and with zero, and is right for every pair of types
(`strictIntegerCastNarrow_spec`). The other one converts without a check.
It loses a negative number in an unsigned target, the upper half of an
unsigned type in the signed type of the same size, and what is neither 0
nor 1 in `bool` (`strictIntegerCast_iff`).
-/
import Leeloo.Lib.IntegerType
import Leeloo.Stream

namespace Leeloo

open IntegerType

/-- `integer_overflow`. -/
inductive IntegerOverflow where
  | integerOverflow
  deriving DecidableEq

/-- `integer_overflow::what`. -/
def IntegerOverflow.what : IntegerOverflow → String
  | integerOverflow => "Integer overflow on cast operation!"

variable {From : IntegerType}

/-- `integer_cast<To>(from)`. -/
def integerCast (To : IntegerType) (x : From.Value) : To.Value :=
  ⟨To.convert x.val, To.represents_convert x.val⟩

/-- `strict_integer_cast<To>(from)` where `sizeof(To) >= sizeof(From)`. -/
def strictIntegerCastWide (To : IntegerType) (x : From.Value) : Except IntegerOverflow To.Value :=
  .ok (integerCast To x)

/-- `strict_integer_cast<To>(from)` where `sizeof(To) < sizeof(From)`. -/
def strictIntegerCastNarrow (To : IntegerType) (x : From.Value) :
    Except IntegerOverflow To.Value :=
  if less From From (From.convert To.max) x.val then .error .integerOverflow
  else if From.isSigned && To.isSigned && less From From x.val (From.convert To.min) then
    .error .integerOverflow
  else if From.isSigned && !To.isSigned && less From int x.val 0 then .error .integerOverflow
  else .ok (integerCast To x)

/-- `strict_integer_cast<To>(from)`. -/
def strictIntegerCast (To : IntegerType) (x : From.Value) : Except IntegerOverflow To.Value :=
  if From.size ≤ To.size then strictIntegerCastWide To x else strictIntegerCastNarrow To x

/-- A number the target can hold is returned, and any other throws. -/
def PreservesOrThrows (To : IntegerType) (x : From.Value) : Prop :=
  (∀ h : To.Represents x.val, strictIntegerCast To x = .ok ⟨x.val, h⟩) ∧
    (¬ To.Represents x.val → strictIntegerCast To x = .error .integerOverflow)

theorem integerCast_of_represents {To : IntegerType} {x : From.Value}
    (h : To.Represents x.val) : integerCast To x = ⟨x.val, h⟩ :=
  Value.ext (convert_of_represents h)

/-- **A cast to a smaller type** is right for every pair of types. -/
theorem strictIntegerCastNarrow_spec {To : IntegerType} (h : To.size < From.size)
    (x : From.Value) : strictIntegerCastNarrow To x =
      if hx : To.Represents x.val then .ok ⟨x.val, hx⟩ else .error .integerOverflow := by
  have hx := x.represented
  have hmax : From.Represents To.max :=
    represents_of_size_lt h To.represents_max (.inr To.represents_zero.2)
  have habove : less From From (From.convert To.max) x.val = decide (To.max < x.val) := by
    rw [convert_of_represents hmax, less_self hmax hx]
  unfold strictIntegerCastNarrow
  rw [habove]
  by_cases hgt : To.max < x.val
  · rw [if_pos (decide_eq_true hgt), dif_neg fun hrep => not_lt.mpr hrep.2 hgt]
  rw [if_neg (by simpa using hgt)]
  cases hsigned : From.isSigned with
  | false =>
    -- no lower bound is tested, and none is needed
    have hlow : To.min ≤ x.val := To.represents_zero.1.trans (min_eq_zero hsigned ▸ hx.1)
    have hrep : To.Represents x.val := ⟨hlow, not_lt.mp hgt⟩
    simp only [Bool.false_and, Bool.false_eq_true, if_false]
    rw [dif_pos hrep, integerCast_of_represents hrep]
  | true =>
    have hmin : From.Represents To.min :=
      represents_of_size_lt h To.represents_min (.inl hsigned)
    have hbelow : less From From x.val (From.convert To.min) = decide (x.val < To.min) := by
      rw [convert_of_represents hmin, less_self hx hmin]
    have hneg : less From int x.val 0 = decide (x.val < 0) :=
      less_int hsigned hx (by decide)
    rw [hbelow, hneg]
    cases hto : To.isSigned with
    | false =>
      have hzero := min_eq_zero hto
      by_cases hlt : x.val < 0
      · rw [dif_neg fun hrep => not_lt.mpr (hzero ▸ hrep.1) hlt]
        simp [hlt]
      · have hrep : To.Represents x.val := ⟨hzero ▸ not_lt.mp hlt, not_lt.mp hgt⟩
        rw [dif_pos hrep, integerCast_of_represents hrep]
        simp [hlt]
    | true =>
      by_cases hlt : x.val < To.min
      · rw [dif_neg fun hrep => not_lt.mpr hrep.1 hlt]
        simp [hlt]
      · have hrep : To.Represents x.val := ⟨not_lt.mp hlt, not_lt.mp hgt⟩
        rw [dif_pos hrep, integerCast_of_represents hrep]
        simp [hlt]

theorem preservesOrThrows_narrow {To : IntegerType} (h : To.size < From.size) (x : From.Value) :
    PreservesOrThrows To x := by
  have hcast : strictIntegerCast To x = _ :=
    (if_neg (not_le.mpr h)).trans (strictIntegerCastNarrow_spec h x)
  constructor
  · intro hrep
    rw [hcast, dif_pos hrep]
  · intro hnot
    rw [hcast, dif_neg hnot]

/-- **A cast to a type that is not smaller** never throws, and is right
exactly on the numbers of the target. -/
theorem preservesOrThrows_wide_iff {To : IntegerType} (h : From.size ≤ To.size)
    (x : From.Value) : PreservesOrThrows To x ↔ To.Represents x.val := by
  have hcast : strictIntegerCast To x = .ok (integerCast To x) := if_pos h
  unfold PreservesOrThrows
  rw [hcast]
  constructor
  · rintro ⟨_, hthrows⟩
    by_contra hnot
    cases hthrows hnot
  · intro hrep
    exact ⟨fun _ => congrArg _ (integerCast_of_represents hrep), fun hnot => absurd hrep hnot⟩

/-- What a type that is not smaller can fail to hold. -/
theorem represents_wide_iff {To : IntegerType} (h : From.size ≤ To.size) (x : From.Value) :
    To.Represents x.val ↔
      (x.val < 0 → To.isSigned = true) ∧ (From.size = To.size → x.val ≤ To.max) := by
  constructor
  · intro hrep
    refine ⟨fun hneg => ?_, fun _ => hrep.2⟩
    by_contra hto
    have hzero := min_eq_zero (Bool.eq_false_iff.mpr hto)
    exact not_lt.mpr (hzero ▸ hrep.1) hneg
  · rintro ⟨hsign, hupper⟩
    rcases Nat.lt_or_eq_of_le h with hlt | heq
    · refine represents_of_size_lt hlt x.represented ?_
      by_cases hneg : x.val < 0
      · exact .inl (hsign hneg)
      · exact .inr (not_lt.mp hneg)
    · refine ⟨?_, hupper heq⟩
      by_cases hneg : x.val < 0
      · exact (min_le_min h (hsign hneg)).trans x.represented.1
      · exact To.represents_zero.1.trans (not_lt.mp hneg)

/-- Between unsigned types the cast is always right. -/
theorem preservesOrThrows_unsigned {m n : ℕ+} (x : (unsigned m).Value) :
    PreservesOrThrows (unsigned n) x := by
  rcases Nat.lt_or_ge (unsigned n).size (unsigned m).size with hlt | hge
  · exact preservesOrThrows_narrow hlt x
  · exact (preservesOrThrows_wide_iff hge x).mpr (represents_unsigned_of_le hge x.represented)

/-- **When `strict_integer_cast` preserves the value or throws**: for a
smaller target always; otherwise unless the value is negative and the
target is not signed, or the target has the same size and ends below the
value. -/
theorem strictIntegerCast_iff (From To : IntegerType) (x : From.Value) :
    PreservesOrThrows To x ↔ To.size < From.size ∨
      ((x.val < 0 → To.isSigned = true) ∧ (From.size = To.size → x.val ≤ To.max)) := by
  rcases Nat.lt_or_ge To.size From.size with hlt | hge
  · exact iff_of_true (preservesOrThrows_narrow hlt x) (.inl hlt)
  · rw [preservesOrThrows_wide_iff hge, represents_wide_iff hge, or_iff_right (not_lt.mpr hge)]

/-- `strict_integer_cast<uint32_t>(-1)` returns 4294967295. -/
theorem not_preservesOrThrows :
    let x : (signed 4).Value := ⟨-1, by decide⟩
    strictIntegerCast (unsigned 4) x = .ok ⟨4294967295, by decide⟩ ∧
      ¬ (unsigned 4).Represents x.val ∧ ¬ PreservesOrThrows (unsigned 4) x := by
  refine ⟨rfl, by decide, fun h => ?_⟩
  exact absurd ((preservesOrThrows_wide_iff (le_refl 4) _).mp h) (by decide)

/-- The count `dump_stream` writes is the `size_t` of the intervals, cast
to a `uint32_t`. -/
theorem ListIntervals.dumpStream_eq_cast {w s : Nat} (l : ListIntervals w s)
    (h : (unsigned 8).Represents l.intervals.length) :
    l.dumpStream =
      match strictIntegerCast (unsigned 4) (⟨l.intervals.length, h⟩ : (unsigned 8).Value) with
      | .error _ => none
      | .ok nintervals => some ((Nat.toDigits 10 nintervals.val.toNat).map Bytes.ofChar ++
          l.intervals.flatMap recordBytes) := by
  have hrep : (unsigned 4).Represents (l.intervals.length : Int) ↔ l.intervals.length < 2 ^ 32 := by
    rw [represents_unsigned]
    show _ ∧ _ < (2 : Int) ^ 32 ↔ _
    omega
  obtain ⟨hok, hthrows⟩ :=
    preservesOrThrows_unsigned (n := 4) (⟨l.intervals.length, h⟩ : (unsigned 8).Value)
  unfold dumpStream
  by_cases hge : 2 ^ 32 ≤ l.intervals.length
  · rw [if_pos hge, hthrows fun hlt => not_lt.mpr hge (hrep.mp hlt)]
  · rw [if_neg hge, hok (hrep.mpr (not_le.mp hge))]
    rfl

end Leeloo
