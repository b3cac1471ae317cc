/-
Leeloo.PrimeHelpers — `prime_helpers.h`: the trial division of `is_prime`
and the search of `find_previous_matching_prime`.

The double `sqrt` is the integer square root, which it is for every
integer of at most 32 bits. The loop variables never leave the range of
the source's `Integer` (`d` stops after the square root, `p` is at least
3 when 2 is subtracted), so they are natural numbers here.
-/
import Mathlib.Data.Nat.Prime.Basic
import Leeloo.Lib.Word

namespace Leeloo

/-- The loop of `is_prime` from `d` on. -/
def isPrimeLoop (v vSqrt d : Nat) : Bool :=
  if d ≤ vSqrt then
    if v % d = 0 then false else isPrimeLoop v vSqrt (d + 1)
  else true
termination_by vSqrt + 1 - d

/-- `is_prime`: trial division from 3 up to the square root. -/
def isPrime (v : Nat) : Bool := isPrimeLoop v v.sqrt 3

/-- The loop of `find_previous_matching_prime` from `p` down. -/
def previousMatchingPrimeLoop (p : Nat) : Nat :=
  if 3 ≤ p then
    if isPrime p && (p &&& 3 == 3) then p else previousMatchingPrimeLoop (p - 2)
  else 0
termination_by p

/-- `find_previous_matching_prime`. -/
def findPreviousMatchingPrime {w : Nat} (v : BitVec w) : BitVec w :=
  let p := if v &&& 1#w = 0 then v - 1#w else v
  BitVec.ofNat w (previousMatchingPrimeLoop p.toNat)

/-! ## `is_prime` on odd numbers -/

theorem isPrimeLoop_iff (v vSqrt d : Nat) :
    isPrimeLoop v vSqrt d = true ↔ ∀ m, d ≤ m → m ≤ vSqrt → ¬ m ∣ v := by
  induction d using isPrimeLoop.induct v vSqrt with
  | case1 d hle hdvd =>
    unfold isPrimeLoop
    rw [if_pos hle, if_pos hdvd]
    simp only [Bool.false_eq_true, false_iff, not_forall]
    exact ⟨d, le_refl d, hle, fun h => h (Nat.dvd_of_mod_eq_zero hdvd)⟩
  | case2 d hle hdvd ih =>
    unfold isPrimeLoop
    rw [if_pos hle, if_neg hdvd, ih]
    constructor
    · intro h m hdm hm
      by_cases hmd : m = d
      · rw [hmd]
        exact fun hd => hdvd (Nat.mod_eq_zero_of_dvd hd)
      · exact h m (by omega) hm
    · intro h m hdm hm
      exact h m (by omega) hm
  | case3 d hgt =>
    unfold isPrimeLoop
    rw [if_neg hgt]
    simp only [true_iff]
    intro m hdm hm
    omega

/-- Not dividing by 2 is right for odd numbers, and only for those. -/
theorem isPrime_iff {v : Nat} (hodd : v % 2 = 1) (h3 : 3 ≤ v) :
    isPrime v = true ↔ v.Prime := by
  unfold isPrime
  rw [isPrimeLoop_iff, Nat.prime_def_le_sqrt]
  constructor
  · intro h
    refine ⟨by omega, ?_⟩
    intro m hm2 hm hdvd
    by_cases hm3 : 3 ≤ m
    · exact h m hm3 hm hdvd
    · obtain rfl : m = 2 := by omega
      omega
  · intro h m hm3 hm
    exact h.2 m (by omega) hm

/-! ## `find_previous_matching_prime` -/

/-- From an odd number, or from a number below 3, the search ends on a
prime that is 3 modulo 4, or on 0. -/
theorem previousMatchingPrimeLoop_spec (p : Nat) (hodd : 3 ≤ p → p % 2 = 1) :
    previousMatchingPrimeLoop p = 0 ∨
      (previousMatchingPrimeLoop p ≤ p ∧ (previousMatchingPrimeLoop p).Prime ∧
        previousMatchingPrimeLoop p % 4 = 3) := by
  induction p using previousMatchingPrimeLoop.induct with
  | case1 p h3 hp =>
    unfold previousMatchingPrimeLoop
    rw [if_pos h3, if_pos hp]
    simp only [Bool.and_eq_true, beq_iff_eq] at hp
    have hmod : p &&& 3 = p % 4 := Nat.and_two_pow_sub_one_eq_mod p 2
    exact Or.inr ⟨le_refl p, (isPrime_iff (hodd h3) h3).mp hp.1, by rw [← hmod, hp.2]⟩
  | case2 p h3 hp ih =>
    unfold previousMatchingPrimeLoop
    rw [if_pos h3, if_neg hp]
    have hodd' := hodd h3
    obtain h0 | ⟨hle, hprime, hmod⟩ := ih (by omega)
    · exact Or.inl h0
    · exact Or.inr ⟨by omega, hprime, hmod⟩
  | case3 p h3 =>
    unfold previousMatchingPrimeLoop
    rw [if_neg h3]
    exact Or.inl rfl

/-- The search ends no lower than any number it would accept. -/
theorem le_previousMatchingPrimeLoop {q p : Nat} (hq : q.Prime) (hmod : q % 4 = 3) (hle : q ≤ p)
    (hodd : p % 2 = 1) : q ≤ previousMatchingPrimeLoop p := by
  induction p using previousMatchingPrimeLoop.induct with
  | case1 p h3 hp =>
    unfold previousMatchingPrimeLoop
    rw [if_pos h3, if_pos hp]
    exact hle
  | case2 p h3 hp ih =>
    unfold previousMatchingPrimeLoop
    rw [if_pos h3, if_neg hp]
    have hne : q ≠ p := by
      rintro rfl
      have hand : q &&& 3 = q % 4 := Nat.and_two_pow_sub_one_eq_mod q 2
      exact hp (by simp [(isPrime_iff hodd h3).mpr hq, hand, hmod])
    have hparity : q % 2 = 1 := by omega
    exact ih (by omega) (by omega)
  | case3 p h3 => omega

/-- The search starts from the last odd number up to `v`. -/
theorem findPreviousMatchingPrime_eq_loop {w : Nat} (hw : 0 < w) {v : BitVec w}
    (hv : 0 < v.toNat) :
    ∃ p, p ≤ v.toNat ∧ v.toNat ≤ p + 1 ∧ p % 2 = 1 ∧
      (findPreviousMatchingPrime v).toNat = previousMatchingPrimeLoop p := by
  have h1 : (1#w).toNat = 1 := Word.toNat_one (Nat.one_lt_two_pow (by omega))
  have hand : (v &&& 1#w).toNat = v.toNat % 2 := by
    rw [BitVec.toNat_and, h1, Nat.and_one_is_mod]
  have hstart : ∃ p, p ≤ v.toNat ∧ v.toNat ≤ p + 1 ∧ p % 2 = 1 ∧
      findPreviousMatchingPrime v = BitVec.ofNat w (previousMatchingPrimeLoop p) := by
    unfold findPreviousMatchingPrime
    by_cases heven : v &&& 1#w = 0
    · have hmod : v.toNat % 2 = 0 := by
        rw [← hand, heven]
        simp
      have hsub : (v - 1#w).toNat = v.toNat - 1 := by
        rw [Word.toNat_sub_of_le (by rw [BitVec.le_def, h1]; omega), h1]
      refine ⟨(v - 1#w).toNat, by omega, by omega, by omega, ?_⟩
      rw [if_pos heven]
    · have hmod : v.toNat % 2 ≠ 0 := by
        intro h
        apply heven
        apply BitVec.eq_of_toNat_eq
        rw [hand, h]
        simp
      refine ⟨v.toNat, le_refl _, by omega, by omega, ?_⟩
      rw [if_neg heven]
  obtain ⟨p, hle, hge, hodd, heq⟩ := hstart
  refine ⟨p, hle, hge, hodd, ?_⟩
  have hbound : previousMatchingPrimeLoop p ≤ p := by
    obtain h0 | h := previousMatchingPrimeLoop_spec p fun _ => hodd
    · omega
    · exact h.1
  rw [heq, BitVec.toNat_ofNat]
  exact Nat.mod_eq_of_lt (by omega)

/-- **The prime of a generator.** Below `v ≥ 1` the search returns 0 or a
prime that is 3 modulo 4. -/
theorem findPreviousMatchingPrime_spec {w : Nat} (hw : 0 < w) {v : BitVec w}
    (hv : 0 < v.toNat) :
    (findPreviousMatchingPrime v).toNat = 0 ∨
      ((findPreviousMatchingPrime v).toNat ≤ v.toNat ∧
        (findPreviousMatchingPrime v).toNat.Prime ∧
        (findPreviousMatchingPrime v).toNat % 4 = 3) := by
  obtain ⟨p, hle, _, hodd, heq⟩ := findPreviousMatchingPrime_eq_loop hw hv
  rw [heq]
  obtain h0 | ⟨hpl, hprime, hmod⟩ := previousMatchingPrimeLoop_spec p fun _ => hodd
  · exact Or.inl h0
  · exact Or.inr ⟨by omega, hprime, hmod⟩

/-- No prime that is 3 modulo 4 lies between the result and `v`. -/
theorem le_findPreviousMatchingPrime {w q : Nat} (hw : 0 < w) {v : BitVec w} (hq : q.Prime)
    (hmod : q % 4 = 3) (hle : q ≤ v.toNat) : q ≤ (findPreviousMatchingPrime v).toNat := by
  have hpos := hq.pos
  obtain ⟨p, _, hge, hodd, heq⟩ := findPreviousMatchingPrime_eq_loop hw (v := v) (by omega)
  rw [heq]
  exact le_previousMatchingPrimeLoop hq hmod (by omega) hodd

end Leeloo
