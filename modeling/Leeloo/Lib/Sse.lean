/-
Leeloo.Lib.Sse — the 128-bit integer vectors of SSE, and the intrinsics on
them.

A vector is its four 32-bit lanes, the lowest first. The intrinsics on
64-bit lanes see two halves of two lanes each. Comparisons are signed,
additions and subtractions wrap, and a blend looks at the sign bit of each
lane of its mask only.

`uremEpi32` is the remainder through double division, with the division
taken as exact: both operands are read as signed integers, and the
quotient is rounded down. On a positive divisor that is the remainder of
the signed operand (`toNat_uremLane_of_pos`); on a negative one the result
is never positive (`toInt_uremLane_of_neg`).
-/
import Mathlib.Data.BitVec
import Mathlib.Data.Int.DivMod

namespace Sse

/-- `__m128i`, by its 32-bit lanes. -/
@[ext] structure M128i where
  e0 : BitVec 32
  e1 : BitVec 32
  e2 : BitVec 32
  e3 : BitVec 32
  deriving DecidableEq, Repr

namespace M128i

/-- Lane `j`, `_mm_extract_epi32`. -/
def lane (v : M128i) : Fin 4 → BitVec 32
  | 0 => v.e0
  | 1 => v.e1
  | 2 => v.e2
  | 3 => v.e3

/-- A function on every lane. -/
def map (f : BitVec 32 → BitVec 32) (a : M128i) : M128i := ⟨f a.e0, f a.e1, f a.e2, f a.e3⟩

/-- A function on every pair of lanes. -/
def map₂ (f : BitVec 32 → BitVec 32 → BitVec 32) (a b : M128i) : M128i :=
  ⟨f a.e0 b.e0, f a.e1 b.e1, f a.e2 b.e2, f a.e3 b.e3⟩

/-- `_mm_extract_epi64(v, 0)`. -/
def lo64 (v : M128i) : BitVec 64 := v.e1 ++ v.e0

/-- `_mm_extract_epi64(v, 1)`. -/
def hi64 (v : M128i) : BitVec 64 := v.e3 ++ v.e2

/-- The vector of two 64-bit halves. -/
def ofEpi64 (lo hi : BitVec 64) : M128i :=
  ⟨lo.setWidth 32, lo.extractLsb' 32 32, hi.setWidth 32, hi.extractLsb' 32 32⟩

end M128i

open M128i

/-- `_mm_set1_epi32`. -/
def set1Epi32 (x : BitVec 32) : M128i := ⟨x, x, x, x⟩

/-- `_mm_set_epi32`, the highest lane first. -/
def setEpi32 (e3 e2 e1 e0 : BitVec 32) : M128i := ⟨e0, e1, e2, e3⟩

/-- `_mm_setzero_si128`. -/
def setzero : M128i := set1Epi32 0

/-- `_mm_add_epi32`. -/
def addEpi32 (a b : M128i) : M128i := map₂ (· + ·) a b

/-- `_mm_sub_epi32`. -/
def subEpi32 (a b : M128i) : M128i := map₂ (· - ·) a b

/-- `_mm_srli_epi32`. -/
def srliEpi32 (a : M128i) (imm : Nat) : M128i := map (· >>> imm) a

/-- A lane of a mask: all ones, or all zeros. -/
def maskLane (c : Bool) : BitVec 32 := if c then BitVec.allOnes 32 else 0

/-- `_mm_cmpgt_epi32`: the mask of the lanes where `a` is greater. -/
def cmpgtEpi32 (a b : M128i) : M128i := map₂ (fun x y => maskLane (y.slt x)) a b

/-- `_mm_test_all_zeros`. -/
def testAllZeros (a mask : M128i) : Bool :=
  map₂ (· &&& ·) a mask == setzero

/-- `_mm_blendv_ps`: the lanes of `b` where the sign bit of the mask is
set. -/
def blendvPs (a b mask : M128i) : M128i :=
  ⟨if mask.e0.msb then b.e0 else a.e0, if mask.e1.msb then b.e1 else a.e1,
    if mask.e2.msb then b.e2 else a.e2, if mask.e3.msb then b.e3 else a.e3⟩

/-- `_mm_blendv_pd`, on the two 64-bit halves. -/
def blendvPd (a b mask : M128i) : M128i :=
  ofEpi64 (if mask.lo64.msb then b.lo64 else a.lo64) (if mask.hi64.msb then b.hi64 else a.hi64)

/-- `_mm_mul_epu32`: the products of lanes 0 and 2, in 64 bits. -/
def mulEpu32 (a b : M128i) : M128i :=
  ofEpi64 (a.e0.setWidth 64 * b.e0.setWidth 64) (a.e2.setWidth 64 * b.e2.setWidth 64)

/-- `_mm_sub_epi64`. -/
def subEpi64 (a b : M128i) : M128i := ofEpi64 (a.lo64 - b.lo64) (a.hi64 - b.hi64)

/-- `_mm_insert_epi64`. -/
def insertEpi64 (v : M128i) (x : BitVec 64) : Fin 2 → M128i
  | 0 => ofEpi64 x v.hi64
  | 1 => ofEpi64 v.lo64 x

/-- `_mm_unpacklo_epi32`. -/
def unpackloEpi32 (a b : M128i) : M128i := ⟨a.e0, b.e0, a.e1, b.e1⟩

/-- `_mm_shuffle_epi32`: two bits of `imm` choose the source of a lane. -/
def shuffleEpi32 (a : M128i) (imm : Nat) : M128i :=
  ⟨a.lane (Fin.ofNat 4 imm), a.lane (Fin.ofNat 4 (imm >>> 2)),
    a.lane (Fin.ofNat 4 (imm >>> 4)), a.lane (Fin.ofNat 4 (imm >>> 6))⟩

/-- A lane of the remainder through doubles: both operands converted as
signed integers, the exact quotient rounded down, the difference
converted back. -/
def uremLane (a div : BitVec 32) : BitVec 32 :=
  let integerPart := Int.fdiv a.toInt div.toInt
  BitVec.ofInt 32 (a.toInt - integerPart * div.toInt)

/-- `_mm_urem_epi32`. -/
def uremEpi32 (a div : M128i) : M128i := map₂ uremLane a div

/-! ## Lanes of the results -/

theorem lane_ext_iff {a b : M128i} : a = b ↔ ∀ j, a.lane j = b.lane j := by
  constructor
  · rintro rfl j
    rfl
  · intro h
    exact M128i.ext (h 0) (h 1) (h 2) (h 3)

@[simp] theorem lane_map (f : BitVec 32 → BitVec 32) (a : M128i) (j : Fin 4) :
    (a.map f).lane j = f (a.lane j) := by
  match j with
  | 0 | 1 | 2 | 3 => rfl

@[simp] theorem lane_map₂ (f : BitVec 32 → BitVec 32 → BitVec 32) (a b : M128i) (j : Fin 4) :
    (map₂ f a b).lane j = f (a.lane j) (b.lane j) := by
  match j with
  | 0 | 1 | 2 | 3 => rfl

@[simp] theorem lane_set1Epi32 (x : BitVec 32) (j : Fin 4) : (set1Epi32 x).lane j = x := by
  match j with
  | 0 | 1 | 2 | 3 => rfl

@[simp] theorem lane_addEpi32 (a b : M128i) (j : Fin 4) :
    (addEpi32 a b).lane j = a.lane j + b.lane j := lane_map₂ _ a b j

@[simp] theorem lane_subEpi32 (a b : M128i) (j : Fin 4) :
    (subEpi32 a b).lane j = a.lane j - b.lane j := lane_map₂ _ a b j

@[simp] theorem lane_uremEpi32 (a b : M128i) (j : Fin 4) :
    (uremEpi32 a b).lane j = uremLane (a.lane j) (b.lane j) := lane_map₂ _ a b j

@[simp] theorem lane_cmpgtEpi32 (a b : M128i) (j : Fin 4) :
    (cmpgtEpi32 a b).lane j = maskLane ((b.lane j).slt (a.lane j)) := lane_map₂ _ a b j

@[simp] theorem msb_maskLane (c : Bool) : (maskLane c).msb = c := by
  cases c <;> rfl

@[simp] theorem maskLane_eq_zero_iff (c : Bool) : maskLane c = 0#32 ↔ c = false := by
  cases c <;> decide

@[simp] theorem maskLane_and_ones (c : Bool) : maskLane c &&& 0xFFFFFFFF#32 = maskLane c := by
  cases c <;> rfl

/-- A blend on a comparison takes the lanes that compare greater. -/
theorem lane_blendvPs_cmpgt (a b x y : M128i) (j : Fin 4) :
    (blendvPs a b (cmpgtEpi32 x y)).lane j =
      if (y.lane j).slt (x.lane j) then b.lane j else a.lane j := by
  have hif : ∀ (c : Bool) (m n : BitVec 32),
      (if (maskLane c).msb then m else n) = if c then m else n := by
    intro c m n
    rw [msb_maskLane]
  match j with
  | 0 | 1 | 2 | 3 => exact hif _ _ _

/-- The test for zeros of a comparison: no lane compares greater. -/
theorem testAllZeros_cmpgt_iff (x y : M128i) :
    testAllZeros (cmpgtEpi32 x y) (set1Epi32 0xFFFFFFFF) = true ↔
      ∀ j, (y.lane j).slt (x.lane j) = false := by
  unfold testAllZeros
  rw [beq_iff_eq, lane_ext_iff]
  simp [setzero]

@[simp] theorem lo64_ofEpi64 (lo hi : BitVec 64) : (ofEpi64 lo hi).lo64 = lo := by
  apply BitVec.eq_of_getLsbD_eq
  intro i hi'
  simp only [lo64, ofEpi64, BitVec.getLsbD_append, BitVec.getLsbD_setWidth,
    BitVec.getLsbD_extractLsb']
  by_cases h : i < 32
  · simp [h]
  · simp [h, show i - 32 < 32 by omega, show 32 + (i - 32) = i by omega]

@[simp] theorem hi64_ofEpi64 (lo hi : BitVec 64) : (ofEpi64 lo hi).hi64 = hi :=
  lo64_ofEpi64 hi lo

theorem msb_lo64 (v : M128i) : v.lo64.msb = v.e1.msb := by
  exact BitVec.msb_append.trans (if_neg (by omega))

theorem msb_hi64 (v : M128i) : v.hi64.msb = v.e3.msb := by
  exact BitVec.msb_append.trans (if_neg (by omega))

/-- A half with a zero lane above is that lane in 64 bits. -/
theorem lo64_zero (x y z : BitVec 32) : (M128i.mk x 0 y z).lo64 = x.setWidth 64 := by
  apply BitVec.eq_of_getLsbD_eq
  intro i hi
  simp only [lo64, BitVec.getLsbD_append, BitVec.getLsbD_setWidth]
  by_cases h : i < 32
  · simp [h, hi]
  · simp [h, hi, BitVec.getLsbD_of_ge x i (by omega)]

theorem hi64_zero (x y z : BitVec 32) : (M128i.mk y z x 0).hi64 = x.setWidth 64 :=
  lo64_zero x y z

@[simp] theorem e0_ofEpi64 (lo hi : BitVec 64) : (ofEpi64 lo hi).e0 = lo.setWidth 32 := rfl

@[simp] theorem e2_ofEpi64 (lo hi : BitVec 64) : (ofEpi64 lo hi).e2 = hi.setWidth 32 := rfl

/-! ## The remainder -/

/-- The remainder through doubles is the remainder rounded down. -/
theorem uremLane_eq (a div : BitVec 32) :
    uremLane a div = BitVec.ofInt 32 (Int.fmod a.toInt div.toInt) := by
  unfold uremLane
  rw [Int.fmod_def, Int.mul_comm div.toInt]

/-- On a positive divisor: the remainder of the operand as a signed
integer. -/
theorem toNat_uremLane_of_pos {a div : BitVec 32} (hpos : 0 < div.toNat)
    (hdiv : div.toNat < 2 ^ 31) :
    ((uremLane a div).toNat : Int) = a.toInt % div.toNat := by
  have htoInt : div.toInt = div.toNat := BitVec.toInt_eq_toNat_of_lt (by omega)
  have hlow := Int.emod_nonneg a.toInt (show (div.toNat : Int) ≠ 0 by omega)
  have hhigh := Int.emod_lt_of_pos a.toInt (show (0 : Int) < div.toNat by omega)
  rw [uremLane_eq, htoInt, Int.fmod_eq_emod_of_nonneg _ (by omega), BitVec.toNat_ofInt]
  generalize a.toInt % (div.toNat : Int) = r at hlow hhigh
  omega

/-- On a negative divisor: between the divisor and zero. -/
theorem toInt_uremLane_of_neg {a div : BitVec 32} (hdiv : div.toInt < 0) :
    div.toInt < (uremLane a div).toInt ∧ (uremLane a div).toInt ≤ 0 := by
  have hbound : -(2 : Int) ^ 31 ≤ div.toInt := by
    have := BitVec.le_two_mul_toInt (x := div)
    omega
  have hflip : Int.fmod a.toInt div.toInt = -Int.fmod (-a.toInt) (-div.toInt) := by
    rw [← Int.neg_fmod_neg, Int.neg_neg, Int.neg_neg]
  have hlow := Int.fmod_nonneg_of_pos (-a.toInt) (show 0 < -div.toInt by omega)
  have hhigh := Int.fmod_lt_of_pos (-a.toInt) (show 0 < -div.toInt by omega)
  rw [uremLane_eq, hflip, BitVec.toInt_ofInt]
  generalize Int.fmod (-a.toInt) (-div.toInt) = r at hlow hhigh
  rw [Int.bmod_eq_of_le (by omega) (by omega)]
  omega

end Sse
