/-
Leeloo.Lib.PowerMap — affine and power maps modulo a prime.

`x ↦ a x + b` is one-to-one modulo `p` when `p` does not divide `a`, and
`x ↦ x^c` is when `c` is coprime to `p - 1`, the order of the group of
nonzero residues. Both send `[0, p)` into itself, so both permute it.
-/
import Mathlib.FieldTheory.Finite.Basic
import Mathlib.GroupTheory.OrderOfElement

namespace PowerMap

variable {p : Nat}

/-- `a x + b` modulo `p`. -/
def affine (p a b x : Nat) : Nat := (a * x + b) % p

/-- `x^c` modulo `p`. -/
def power (p c x : Nat) : Nat := x ^ c % p

/-- Two numbers below `p` with equal images in `ZMod p` are equal. -/
theorem eq_of_natCast_eq {x y : Nat} (hx : x < p) (hy : y < p)
    (h : (x : ZMod p) = (y : ZMod p)) : x = y := by
  have hmod := (ZMod.natCast_eq_natCast_iff' x y p).mp h
  rwa [Nat.mod_eq_of_lt hx, Nat.mod_eq_of_lt hy] at hmod

theorem affine_injOn (hp : p.Prime) {a b : Nat} (ha : 0 < a) (hap : a < p) :
    Set.InjOn (affine p a b) (Set.Iio p) := by
  have : Fact p.Prime := ⟨hp⟩
  intro x hx y hy h
  have ha0 : (a : ZMod p) ≠ 0 := by
    intro hzero
    exact absurd (Nat.le_of_dvd ha ((ZMod.natCast_eq_zero_iff a p).mp hzero)) (by omega)
  have hcast : (a : ZMod p) * x + b = a * y + b := by
    exact_mod_cast (ZMod.natCast_eq_natCast_iff' (a * x + b) (a * y + b) p).mpr h
  exact eq_of_natCast_eq hx hy (mul_left_cancel₀ ha0 (add_right_cancel hcast))

/-- The nonzero residues form a group of order `p - 1`, where a power
coprime to the order can be undone. -/
theorem power_injOn (hp : p.Prime) {c : Nat} (hc : 0 < c) (hcop : Nat.Coprime c (p - 1)) :
    Set.InjOn (power p c) (Set.Iio p) := by
  have : Fact p.Prime := ⟨hp⟩
  intro x hx y hy h
  apply eq_of_natCast_eq hx hy
  have hcast : (x : ZMod p) ^ c = (y : ZMod p) ^ c := by
    exact_mod_cast (ZMod.natCast_eq_natCast_iff' (x ^ c) (y ^ c) p).mpr h
  by_cases hx0 : (x : ZMod p) = 0
  · rw [hx0, zero_pow (by omega)] at hcast
    rw [hx0, eq_comm, ← pow_eq_zero_iff (n := c) (by omega), ← hcast]
  · have hy0 : (y : ZMod p) ≠ 0 := by
      intro hzero
      rw [hzero, zero_pow (by omega), pow_eq_zero_iff (by omega)] at hcast
      exact hx0 hcast
    have hcard : (Nat.card (ZMod p)ˣ).Coprime c := by
      rw [Nat.card_eq_fintype_card, ZMod.card_units]
      exact hcop.symm
    have hunits : (Units.mk0 _ hx0) ^ c = (Units.mk0 _ hy0) ^ c := by
      ext
      simpa using hcast
    have heq := (powCoprime hcard).injective hunits
    exact congrArg Units.val heq

end PowerMap
