/-
Leeloo.Lib.QuadraticResidue — the residue permutation of a prime `p` with
`p % 4 = 3`.

`v ↦ v² mod p` is two-to-one on the nonzero residues. When `-1` is not a
square, sending one half of `[0, p)` to `v²` and the other half to `-v²`
is a permutation of `[0, p)`.
-/
import Mathlib.NumberTheory.LegendreSymbol.Basic

namespace QuadraticResidue

/-- `v²` on the lower half, `-v²` on the upper half, modulo `p`. -/
def permute (p v : Nat) : Nat := if v ≤ p / 2 then v * v % p else p - v * v % p

variable {p : Nat}

/-- A square modulo `p` vanishes only at 0. -/
theorem mul_self_mod_pos (hp : p.Prime) {v : Nat} (h0 : 0 < v) (hv : v < p) :
    0 < v * v % p := by
  rw [Nat.pos_iff_ne_zero]
  intro h
  have hdvd : p ∣ v := (hp.dvd_mul.mp (Nat.dvd_of_mod_eq_zero h)).elim id id
  exact absurd (Nat.le_of_dvd h0 hdvd) (by omega)

theorem permute_lt (hp : p.Prime) {v : Nat} (hv : v < p) : permute p v < p := by
  have hmod : v * v % p < p := Nat.mod_lt _ hp.pos
  unfold permute
  by_cases h : v ≤ p / 2
  · rw [if_pos h]
    exact hmod
  · rw [if_neg h]
    have hpos := mul_self_mod_pos hp (by omega) hv
    omega

/-- Two squares agree modulo `p` only for equal or opposite roots. -/
theorem eq_or_add_eq_of_mul_self (hp : p.Prime) {v x : Nat} (hv : v < p) (hx : x < p)
    (h : v * v % p = x * x % p) : v = x ∨ v + x = p ∨ v + x = 0 := by
  have : Fact p.Prime := ⟨hp⟩
  have hcast : (v : ZMod p) * v = x * x := by
    exact_mod_cast (ZMod.natCast_eq_natCast_iff' (v * v) (x * x) p).mpr h
  obtain heq | hneg := mul_self_eq_mul_self_iff.mp hcast
  · have hmod := (ZMod.natCast_eq_natCast_iff' v x p).mp heq
    rw [Nat.mod_eq_of_lt hv, Nat.mod_eq_of_lt hx] at hmod
    exact Or.inl hmod
  · have hzero : ((v + x : Nat) : ZMod p) = 0 := by
      push_cast
      rw [hneg, neg_add_cancel]
    have hdvd := (ZMod.natCast_eq_zero_iff (v + x) p).mp hzero
    obtain ⟨k, hk⟩ := hdvd
    have hk2 : k < 2 := by
      by_contra hge
      have : p * 2 ≤ p * k := Nat.mul_le_mul_left p (by omega)
      omega
    have hk01 : k = 0 ∨ k = 1 := by omega
    obtain rfl | rfl := hk01
    · exact Or.inr (Or.inr (by omega))
    · exact Or.inr (Or.inl (by omega))

/-- A sum of two squares vanishes modulo `p` only at 0 when `-1` is not a
square. -/
theorem mul_self_add_ne (hp : p.Prime) (h3 : p % 4 = 3) {v x : Nat} (hx0 : 0 < x) (hx : x < p) :
    v * v % p + x * x % p ≠ p := by
  have : Fact p.Prime := ⟨hp⟩
  intro h
  have hx' : (x : ZMod p) ≠ 0 := by
    intro hz
    exact absurd (Nat.le_of_dvd hx0 ((ZMod.natCast_eq_zero_iff x p).mp hz)) (by omega)
  have hsum : ((v * v % p + x * x % p : Nat) : ZMod p) = 0 := by
    rw [h, ZMod.natCast_self]
  have hneg : (v : ZMod p) ^ 2 = -(x : ZMod p) ^ 2 := by
    rw [Nat.cast_add, ZMod.natCast_mod, ZMod.natCast_mod, Nat.cast_mul, Nat.cast_mul] at hsum
    rw [pow_two, pow_two]
    exact eq_neg_of_add_eq_zero_left hsum
  exact ZMod.mod_four_ne_three_of_sq_eq_neg_sq' hx' hneg h3

/-- **The residue map is one-to-one** for a prime `p` with `p % 4 = 3`. -/
theorem permute_injOn (hp : p.Prime) (h3 : p % 4 = 3) :
    Set.InjOn (permute p) (Set.Iio p) := by
  intro v hv x hx h
  have hv : v < p := hv
  have hx : x < p := hx
  have hvm : v * v % p < p := Nat.mod_lt _ hp.pos
  have hxm : x * x % p < p := Nat.mod_lt _ hp.pos
  unfold permute at h
  by_cases hv2 : v ≤ p / 2
  · by_cases hx2 : x ≤ p / 2
    · -- two roots of the lower half
      rw [if_pos hv2, if_pos hx2] at h
      obtain heq | hadd | hadd := eq_or_add_eq_of_mul_self hp hv hx h
      · exact heq
      · omega
      · omega
    · rw [if_pos hv2, if_neg hx2] at h
      exact absurd (by omega) (mul_self_add_ne (v := v) hp h3 (by omega) hx)
  · by_cases hx2 : x ≤ p / 2
    · rw [if_neg hv2, if_pos hx2] at h
      exact absurd (by omega) (mul_self_add_ne (v := x) hp h3 (by omega) hv)
    · rw [if_neg hv2, if_neg hx2] at h
      obtain heq | hadd | hadd := eq_or_add_eq_of_mul_self hp hv hx (by omega)
      · exact heq
      · omega
      · omega

end QuadraticResidue
