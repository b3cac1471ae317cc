/-
Leeloo.Lib.IntegerType — the built-in integer types of C++, their values
and the conversions between them.

A type is `bool` or a signed or unsigned type of so many bytes of eight
bits, in two's complement, and `int` has four bytes. A value carries its
range (`Value`). A conversion keeps the number where the type can hold it,
and reduces it modulo the number of values otherwise; `bool` asks whether
it is zero.

A comparison first converts both sides to one type (`common`): operands
smaller than `int` become `int`, and of two types the wider is taken, the
unsigned one where they are equally wide.
-/
import Mathlib.Data.PNat.Basic
import Mathlib.Tactic.Positivity

/-- A built-in integer type. -/
inductive IntegerType where
  | bool
  | unsigned (bytes : ℕ+)
  | signed (bytes : ℕ+)
  deriving DecidableEq

namespace IntegerType

/-- `sizeof`. -/
def size : IntegerType → Nat
  | bool => 1
  | unsigned n => n
  | signed n => n

/-- `std::numeric_limits::is_signed`. -/
def isSigned : IntegerType → Bool
  | bool => false
  | unsigned _ => false
  | signed _ => true

/-- `std::numeric_limits::min()`. -/
def min : IntegerType → Int
  | bool => 0
  | unsigned _ => 0
  | signed n => -2 ^ (8 * (n : Nat) - 1)

/-- `std::numeric_limits::max()`. -/
def max : IntegerType → Int
  | bool => 1
  | unsigned n => 2 ^ (8 * (n : Nat)) - 1
  | signed n => 2 ^ (8 * (n : Nat) - 1) - 1

/-- The number is one the type can hold. -/
def Represents (t : IntegerType) (x : Int) : Prop := t.min ≤ x ∧ x ≤ t.max

instance (t : IntegerType) : DecidablePred t.Represents := fun _ =>
  inferInstanceAs (Decidable (_ ∧ _))

/-- A value of a type. -/
@[ext] structure Value (t : IntegerType) where
  val : Int
  represented : t.Represents val
  deriving DecidableEq

/-- What a number becomes in a type. -/
def convert : IntegerType → Int → Int
  | bool, x => if x = 0 then 0 else 1
  | unsigned n, x => x % 2 ^ (8 * (n : Nat))
  | signed n, x => x.bmod (2 ^ (8 * (n : Nat)))

/-! ## Ranges -/

theorem represents_bool {x : Int} : bool.Represents x ↔ 0 ≤ x ∧ x ≤ 1 := Iff.rfl

theorem represents_unsigned {n : ℕ+} {x : Int} :
    (unsigned n).Represents x ↔ 0 ≤ x ∧ x < 2 ^ (8 * (n : Nat)) :=
  and_congr_right fun _ => Int.le_sub_one_iff

theorem represents_signed {n : ℕ+} {x : Int} :
    (signed n).Represents x ↔ -2 ^ (8 * (n : Nat) - 1) ≤ x ∧ x < 2 ^ (8 * (n : Nat) - 1) :=
  and_congr_right fun _ => Int.le_sub_one_iff

/-- A type that is not signed starts at zero. -/
theorem min_eq_zero {t : IntegerType} (h : t.isSigned = false) : t.min = 0 := by
  cases t with
  | bool => rfl
  | unsigned n => rfl
  | signed n => cases h

theorem represents_zero (t : IntegerType) : t.Represents 0 := by
  cases t with
  | bool => decide
  | unsigned n => exact represents_unsigned.mpr ⟨le_refl 0, by positivity⟩
  | signed n => exact represents_signed.mpr ⟨neg_nonpos.mpr (by positivity), by positivity⟩

theorem represents_min (t : IntegerType) : t.Represents t.min :=
  ⟨le_refl _, t.represents_zero.1.trans t.represents_zero.2⟩

theorem represents_max (t : IntegerType) : t.Represents t.max :=
  ⟨t.represents_zero.1.trans t.represents_zero.2, le_refl _⟩

/-- A signed type has half of the numbers below zero. -/
theorem two_pow_bits (n : ℕ+) : (2 : Int) ^ (8 * (n : Nat)) = 2 * 2 ^ (8 * (n : Nat) - 1) := by
  have hn := n.pos
  rw [← Int.pow_succ']
  congr 1
  omega

theorem represents_convert (t : IntegerType) (x : Int) : t.Represents (t.convert x) := by
  cases t with
  | bool =>
    show 0 ≤ (if x = 0 then (0 : Int) else 1) ∧ (if x = 0 then (0 : Int) else 1) ≤ 1
    split <;> decide
  | unsigned n =>
    have hpos : (0 : Int) < 2 ^ (8 * (n : Nat)) := by positivity
    exact represents_unsigned.mpr ⟨Int.emod_nonneg x hpos.ne', Int.emod_lt_of_pos x hpos⟩
  | signed n =>
    have hpos : 0 < 2 ^ (8 * (n : Nat)) := Nat.two_pow_pos _
    have hhalf := two_pow_bits n
    have hle := Int.le_bmod (x := x) hpos
    have hlt := Int.bmod_lt (x := x) hpos
    push_cast at hle hlt
    rw [represents_signed, convert]
    omega

/-- A number the type can hold is kept. -/
theorem convert_of_represents {t : IntegerType} {x : Int} (h : t.Represents x) :
    t.convert x = x := by
  cases t with
  | bool =>
    rw [represents_bool] at h
    show (if x = 0 then (0 : Int) else 1) = x
    split <;> omega
  | unsigned n =>
    rw [represents_unsigned] at h
    exact Int.emod_eq_of_lt h.1 h.2
  | signed n =>
    have hhalf := two_pow_bits n
    rw [represents_signed] at h
    apply Int.bmod_eq_of_le <;> push_cast <;> omega

/-- A wider unsigned type holds the values of an unsigned type. -/
theorem represents_unsigned_of_le {m n : ℕ+} (h : m ≤ n) {x : Int}
    (hx : (unsigned m).Represents x) : (unsigned n).Represents x := by
  have hpow : (2 : Int) ^ (8 * (m : Nat)) ≤ 2 ^ (8 * (n : Nat)) :=
    pow_le_pow_right₀ (by omega) (Nat.mul_le_mul_left 8 h)
  rw [represents_unsigned] at hx ⊢
  omega

/-- A wider signed type holds the values of a signed type. -/
theorem represents_signed_of_le {m n : ℕ+} (h : m ≤ n) {x : Int}
    (hx : (signed m).Represents x) : (signed n).Represents x := by
  have hmn : (m : Nat) ≤ n := h
  have hpow : (2 : Int) ^ (8 * (m : Nat) - 1) ≤ 2 ^ (8 * (n : Nat) - 1) :=
    pow_le_pow_right₀ (by omega) (by omega)
  rw [represents_signed] at hx ⊢
  omega

/-- A signed type of more bytes holds the values of an unsigned type. -/
theorem represents_signed_of_unsigned {m n : ℕ+} (h : m < n) {x : Int}
    (hx : (unsigned m).Represents x) : (signed n).Represents x := by
  have hmn : (m : Nat) < n := h
  have hpow : (2 : Int) ^ (8 * (m : Nat)) ≤ 2 ^ (8 * (n : Nat) - 1) :=
    pow_le_pow_right₀ (by omega) (by omega)
  rw [represents_unsigned] at hx
  rw [represents_signed]
  omega

/-- A larger type holds the values of a smaller one, the negative ones if
it is signed. -/
theorem represents_of_size_lt {s t : IntegerType} (h : s.size < t.size) {x : Int}
    (hx : s.Represents x) (hsign : t.isSigned = true ∨ 0 ≤ x) : t.Represents x := by
  have hbyte : bool.Represents x → (unsigned 1).Represents x := fun hx =>
    ⟨hx.1, le_trans hx.2 (by decide)⟩
  cases t with
  | bool =>
    cases s with
    | bool => exact hx
    | unsigned m => exact absurd h (not_lt.mpr m.pos)
    | signed m => exact absurd h (not_lt.mpr m.pos)
  | unsigned n =>
    cases s with
    | bool => exact represents_unsigned_of_le one_le (hbyte hx)
    | unsigned m => exact represents_unsigned_of_le (le_of_lt h) hx
    | signed m =>
      have hpow : (2 : Int) ^ (8 * (m : Nat) - 1) ≤ 2 ^ (8 * (n : Nat)) := by
        have hmn : (m : Nat) < n := h
        exact pow_le_pow_right₀ (by omega) (by omega)
      rw [represents_signed] at hx
      exact represents_unsigned.mpr ⟨hsign.resolve_left Bool.false_ne_true, hx.2.trans_le hpow⟩
  | signed n =>
    cases s with
    | bool => exact represents_signed_of_unsigned h (hbyte hx)
    | unsigned m => exact represents_signed_of_unsigned h hx
    | signed m => exact represents_signed_of_le (le_of_lt h) hx

/-- A signed type reaches as low as the types that are not larger. -/
theorem min_le_min {s t : IntegerType} (h : s.size ≤ t.size) (hsigned : t.isSigned = true) :
    t.min ≤ s.min := by
  cases hs : s.isSigned with
  | false =>
    rw [min_eq_zero hs]
    exact t.represents_zero.1
  | true =>
    cases s with
    | bool => cases hs
    | unsigned m => cases hs
    | signed m =>
      cases t with
      | bool => cases hsigned
      | unsigned n => cases hsigned
      | signed n =>
        have hmn : (m : Nat) ≤ n := h
        exact neg_le_neg (pow_le_pow_right₀ (by omega) (by omega))

/-! ## Comparisons -/

/-- `sizeof(int)`, which is 4. -/
def intBytes : ℕ+ := Nat.succPNat 3

/-- `int`. -/
def int : IntegerType := signed intBytes

/-- Integral promotion. -/
def promote : IntegerType → IntegerType
  | bool => int
  | unsigned n => if n < intBytes then int else unsigned n
  | signed n => if n < intBytes then int else signed n

/-- The usual arithmetic conversions: the type two operands are compared
in. A promoted type is not `bool`. -/
def common (s t : IntegerType) : IntegerType :=
  match s.promote, t.promote with
  | unsigned m, unsigned n => unsigned (Max.max m n)
  | signed m, signed n => signed (Max.max m n)
  | unsigned m, signed n => if m < n then signed n else unsigned m
  | signed m, unsigned n => if n < m then signed m else unsigned n
  | s, _ => s

/-- `x < y` for operands of two types. -/
def less (s t : IntegerType) (x y : Int) : Bool :=
  decide ((common s t).convert x < (common s t).convert y)

/-- A signed operand is promoted to a signed type that is at least `int`. -/
theorem promote_signed (n : ℕ+) : (signed n).promote = signed (Max.max n intBytes) := by
  show (if n < intBytes then int else signed n) = _
  by_cases h : n < intBytes
  · rw [if_pos h, max_eq_right h.le]
    rfl
  · rw [if_neg h, max_eq_left (not_lt.mp h)]

theorem represents_promote {t : IntegerType} {x : Int} (h : t.Represents x) :
    t.promote.Represents x := by
  cases t with
  | bool => exact ⟨le_trans (by decide) h.1, le_trans h.2 (by decide)⟩
  | unsigned n =>
    show (if n < intBytes then int else unsigned n).Represents x
    by_cases hlt : n < intBytes
    · rw [if_pos hlt]
      exact represents_signed_of_unsigned hlt h
    · rw [if_neg hlt]
      exact h
  | signed n =>
    rw [promote_signed]
    exact represents_signed_of_le (le_max_left n intBytes) h

/-- Two operands of one type are compared as promoted. -/
theorem common_self (t : IntegerType) : common t t = t.promote := by
  unfold common
  cases t.promote with
  | bool => rfl
  | unsigned n => simp
  | signed n => simp

/-- A comparison inside one type compares the numbers. -/
theorem less_self {t : IntegerType} {x y : Int} (hx : t.Represents x) (hy : t.Represents y) :
    less t t x y = decide (x < y) := by
  rw [less, common_self, convert_of_represents (represents_promote hx),
    convert_of_represents (represents_promote hy)]

/-- So does a comparison of a signed operand with an `int`. -/
theorem less_int {t : IntegerType} (h : t.isSigned = true) {x y : Int} (hx : t.Represents x)
    (hy : int.Represents y) : less t int x y = decide (x < y) := by
  cases t with
  | bool => cases h
  | unsigned n => cases h
  | signed n =>
    have hcommon : common (signed n) int = signed (Max.max n intBytes) := by
      unfold common int
      rw [promote_signed, promote_signed, max_self]
      exact congrArg signed (max_eq_left (le_max_right n intBytes))
    rw [less, hcommon, convert_of_represents (represents_signed_of_le (le_max_left n intBytes) hx),
      convert_of_represents (represents_signed_of_le (le_max_right n intBytes) hy)]

end IntegerType
