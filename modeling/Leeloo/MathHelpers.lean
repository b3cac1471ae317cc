/-
Leeloo.MathHelpers — `exp_mod` and `gcd` of `math_helpers.h`, on 32-bit
integers.

The products of `exp_mod` are 64-bit products of two 32-bit integers.
`expModProducts` lists their exact values, which all fit.
-/
import Leeloo.Lib.Word

namespace Leeloo

/-- The 64-bit product of two 32-bit integers, reduced modulo `m`. -/
def mulMod (x y m : BitVec 32) : BitVec 32 :=
  ((x.setWidth 64 * y.setWidth 64) % m.setWidth 64).setWidth 32

theorem toNat_shift_lt {e : BitVec 32} (h : 0 < e) : (e >>> 1).toNat < e.toNat := by
  have h : 0 < e.toNat := h
  rw [BitVec.toNat_ushiftRight, Nat.shiftRight_eq_div_pow]
  omega

/-- The loop of `exp_mod`. -/
def expModLoop (m r v e : BitVec 32) : BitVec 32 :=
  if 0 < e then
    expModLoop m (if e &&& 1 = 1 then mulMod r v m else r) (mulMod v v m) (e >>> 1)
  else r
termination_by e.toNat
decreasing_by exact toNat_shift_lt ‹_›

/-- `exp_mod`. -/
def expMod (v e m : BitVec 32) : BitVec 32 := expModLoop m 1 v e

/-- The exact values of the products that the loop computes. -/
def expModProducts (m r v e : BitVec 32) : List Nat :=
  if 0 < e then
    (if e &&& 1 = 1 then [r.toNat * v.toNat] else []) ++ [v.toNat * v.toNat] ++
      expModProducts m (if e &&& 1 = 1 then mulMod r v m else r) (mulMod v v m) (e >>> 1)
  else []
termination_by e.toNat
decreasing_by exact toNat_shift_lt ‹_›

/-- `gcd`. -/
def gcd (a b : BitVec 32) : BitVec 32 :=
  if a ≠ 0 then gcd (b % a) a else b
termination_by a.toNat
decreasing_by
  have hne : a ≠ 0 := ‹_›
  have hpos : 0 < a := Word.pos_iff_ne_zero.mpr hne
  rw [BitVec.toNat_umod]
  exact Nat.mod_lt _ hpos

/-! ## Square and multiply -/

theorem mul_toNat_lt (x y : BitVec 32) : x.toNat * y.toNat < 2 ^ 64 := by
  have hmul := Nat.mul_lt_mul'' x.isLt y.isLt
  omega

/-- A product of two words fits in 64 bits. -/
theorem toNat_mulMod {m : BitVec 32} (hm : 0 < m.toNat) (x y : BitVec 32) :
    (mulMod x y m).toNat = x.toNat * y.toNat % m.toNat := by
  have hx := x.isLt
  have hy := y.isLt
  have hm32 := m.isLt
  have hmod : x.toNat * y.toNat % m.toNat < m.toNat := Nat.mod_lt _ hm
  unfold mulMod
  simp only [BitVec.toNat_setWidth, BitVec.toNat_umod, BitVec.toNat_mul]
  rw [Nat.mod_eq_of_lt (show x.toNat < 2 ^ 64 by omega),
    Nat.mod_eq_of_lt (show y.toNat < 2 ^ 64 by omega), Nat.mod_eq_of_lt (mul_toNat_lt x y),
    Nat.mod_eq_of_lt (show m.toNat < 2 ^ 64 by omega), Nat.mod_eq_of_lt (by omega)]

/-- The accumulator times the power still to come is kept, modulo `m`. -/
theorem toNat_expModLoop {m : BitVec 32} (hm : 0 < m.toNat) (r v e : BitVec 32)
    (hr : r.toNat < m.toNat) :
    (expModLoop m r v e).toNat = r.toNat * v.toNat ^ e.toNat % m.toNat := by
  induction r, v, e using expModLoop.induct m with
  | case1 r v e hpos ih =>
    have hshift : (e >>> 1).toNat = e.toNat / 2 := by
      rw [BitVec.toNat_ushiftRight, Nat.shiftRight_eq_div_pow, pow_one]
    have hsq : (mulMod v v m).toNat = v.toNat ^ 2 % m.toNat := by
      rw [toNat_mulMod hm, pow_two]
    have hpow : ∀ k, (v.toNat ^ 2 % m.toNat) ^ k % m.toNat = v.toNat ^ (2 * k) % m.toNat := by
      intro k
      rw [← Nat.pow_mod, pow_mul]
    have hbit : e &&& 1 = 1 ↔ e.toNat % 2 = 1 := by
      rw [BitVec.toNat_eq, BitVec.toNat_and]
      show e.toNat &&& 1 = 1 ↔ _
      rw [Nat.and_one_is_mod]
    unfold expModLoop
    rw [if_pos hpos]
    by_cases hodd : e &&& 1 = 1
    · rw [dif_pos hodd] at ih
      rw [if_pos hodd]
      have hr' := toNat_mulMod hm r v
      have hexp : e.toNat = 2 * (e.toNat / 2) + 1 := by
        have := hbit.mp hodd
        omega
      rw [ih (by rw [hr']; exact Nat.mod_lt _ hm), hr', hsq, hshift]
      calc r.toNat * v.toNat % m.toNat * (v.toNat ^ 2 % m.toNat) ^ (e.toNat / 2) % m.toNat
          = r.toNat * v.toNat * v.toNat ^ (2 * (e.toNat / 2)) % m.toNat := by
            rw [Nat.mod_mul_mod, ← Nat.mul_mod_mod, hpow, Nat.mul_mod_mod]
        _ = r.toNat * v.toNat ^ e.toNat % m.toNat := by
            rw [Nat.mul_assoc, ← pow_succ', ← hexp]
    · rw [dif_neg hodd] at ih
      rw [if_neg hodd]
      have hexp : e.toNat = 2 * (e.toNat / 2) := by
        have := mt hbit.mpr hodd
        omega
      rw [ih hr, hsq, hshift, ← Nat.mul_mod_mod, hpow, Nat.mul_mod_mod, ← hexp]
  | case2 r v e hzero =>
    have h0 : e.toNat = 0 := by
      have hle : ¬ 0 < e.toNat := hzero
      omega
    unfold expModLoop
    rw [if_neg hzero, h0, pow_zero, Nat.mul_one, Nat.mod_eq_of_lt hr]

/-- `exp_mod` is the power, modulo `m`. -/
theorem toNat_expMod {m : BitVec 32} (hm : 1 < m.toNat) (v e : BitVec 32) :
    (expMod v e m).toNat = v.toNat ^ e.toNat % m.toNat := by
  have hone : (1 : BitVec 32).toNat = 1 := rfl
  unfold expMod
  rw [toNat_expModLoop (by omega) 1 v e (by omega), hone, Nat.one_mul]

theorem expModProducts_lt (m r v e : BitVec 32) :
    ∀ x ∈ expModProducts m r v e, x < 2 ^ 64 := by
  induction r, v, e using expModProducts.induct m with
  | case1 r v e hpos ih =>
    unfold expModProducts
    rw [if_pos hpos]
    intro x hx
    simp only [List.mem_append, List.mem_singleton] at hx
    obtain (hprod | rfl) | hrest := hx
    · by_cases hodd : e &&& 1 = 1
      · rw [if_pos hodd, List.mem_singleton] at hprod
        rw [hprod]
        exact mul_toNat_lt r v
      · rw [if_neg hodd] at hprod
        cases hprod
    · exact mul_toNat_lt v v
    · exact ih x hrest
  | case2 r v e hzero =>
    unfold expModProducts
    rw [if_neg hzero]
    simp

/-! ## The Euclidean algorithm -/

theorem toNat_gcd (a b : BitVec 32) : (gcd a b).toNat = Nat.gcd a.toNat b.toNat := by
  induction a, b using gcd.induct with
  | case1 a b hne ih =>
    unfold gcd
    rw [if_pos hne, ih, BitVec.toNat_umod, ← Nat.gcd_rec]
  | case2 a b hzero =>
    have h0 : a = 0 := by simpa using hzero
    unfold gcd
    rw [if_neg hzero, h0]
    simp

theorem gcd_eq_one_iff (a b : BitVec 32) : gcd a b = 1 ↔ Nat.Coprime a.toNat b.toNat := by
  rw [BitVec.toNat_eq, toNat_gcd]
  rfl

end Leeloo
