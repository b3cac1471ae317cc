/-
Leeloo.UprngInit — `init` of `uprng<uint32_t>`, with `find_next_prime` and
`random_prime_with` of `prime_helpers.h`.

The random engine is a state and a draw in a closed range. The retry loop
of `random_prime_with` ends only on a draw coprime to `n`, so it has a
fuel; `none` is a loop that has not ended, or a failed `assert`.

`find_next_prime` adds 2 in 32 bits. Above the largest 32-bit prime the
sum wraps to 1, which `is_prime` accepts. Below 4 the prime is 3, and
`[0, 0]` holds nothing coprime to 2.
-/
import Mathlib.NumberTheory.LucasPrimality
import Mathlib.Tactic.NormNum.Prime
import Mathlib.Tactic.ReduceModChar
import Leeloo.UprngU32

namespace Leeloo

/-- Below 9 there is no divisor to try. -/
theorem le_of_isPrime_eq_false {v : Nat} (h : isPrime v = false) : 9 ≤ v := by
  by_contra hlt
  have hsqrt : v.sqrt < 3 := Nat.sqrt_lt'.mpr (by omega)
  unfold isPrime isPrimeLoop at h
  rw [if_neg (by omega)] at h
  cases h

/-- The loop of `find_next_prime`. -/
def findNextPrimeLoop (p : BitVec 32) : BitVec 32 :=
  if isPrime p.toNat then p else findNextPrimeLoop (p + 2)
termination_by 2 ^ 32 - (p - 2).toNat
decreasing_by
  have h9 := le_of_isPrime_eq_false (Bool.eq_false_iff.mpr ‹¬ isPrime p.toNat = true›)
  have hsub : (p - 2).toNat = p.toNat - 2 :=
    Word.toNat_sub_of_le (by rw [BitVec.le_def]; show 2 ≤ p.toNat; omega)
  rw [BitVec.add_sub_cancel, hsub]
  have := p.isLt
  omega

/-- `find_next_prime`. -/
def findNextPrime (v : BitVec 32) : BitVec 32 :=
  findNextPrimeLoop (if v &&& 1 = 0 then v + 1 else v)

/-- The random engine, by the draw of an integer in a closed range. -/
structure Engine where
  State : Type
  draw : BitVec 32 → BitVec 32 → State → BitVec 32 × State

/-- The draws stay in the range. -/
def Engine.InRange (e : Engine) : Prop :=
  ∀ lo hi st, lo ≤ hi → lo ≤ (e.draw lo hi st).1 ∧ (e.draw lo hi st).1 ≤ hi

/-- `random_prime_with`, `fuel` draws at most. -/
def randomPrimeWith (e : Engine) (n : BitVec 32) : Nat → e.State → Option (BitVec 32 × e.State)
  | 0, _ => none
  | fuel + 1, st =>
    let (ret, st) := e.draw 0 (n - 2) st
    if gcd ret n ≠ 1 then randomPrimeWith e n fuel st else some (ret, st)

/-- `init`. -/
def UprngU32.init (e : Engine) (max : BitVec 32) (fuel : Nat) (st : e.State) :
    Option (UprngU32 × e.State) := do
  let (a, st) := e.draw 1 (max - 1) st
  let (b, st) := e.draw 0 (max - 1) st
  let prime := findNextPrime max
  if prime = 0 then none
  else
    let (c, st) ← randomPrimeWith e (prime - 1) fuel st
    let (n, st) := e.draw 1 4 st
    some ({ prime, max, a, b, c, n, curStep := 0 }, st)

/-! ## `find_next_prime` -/

/-- The largest prime of 32 bits, by Lucas's test with base 2. -/
theorem prime_4294967291 : Nat.Prime 4294967291 := by
  apply lucas_primality 4294967291 2
  · norm_num
    reduce_mod_char
  · intro q hq hdvd
    have hfactors : (4294967291 - 1 : Nat) = 2 * 5 * 19 * 22605091 := by norm_num
    rw [hfactors, hq.dvd_mul, hq.dvd_mul, hq.dvd_mul, Nat.prime_dvd_prime_iff_eq hq (by norm_num),
      Nat.prime_dvd_prime_iff_eq hq (by norm_num), Nat.prime_dvd_prime_iff_eq hq (by norm_num),
      Nat.prime_dvd_prime_iff_eq hq (by norm_num)] at hdvd
    obtain ((rfl | rfl) | rfl) | rfl := hdvd
    · norm_num
      reduce_mod_char
      decide
    · norm_num
      reduce_mod_char
      decide
    · norm_num
      reduce_mod_char
      decide
    · norm_num
      reduce_mod_char
      decide

/-- From an odd number up to the largest prime, the search ends on a prime
before it can wrap. -/
theorem findNextPrimeLoop_spec (p : BitVec 32) (hodd : p.toNat % 2 = 1) (h3 : 3 ≤ p.toNat)
    (hle : p.toNat ≤ 4294967291) :
    (findNextPrimeLoop p).toNat.Prime ∧ p ≤ findNextPrimeLoop p := by
  induction p using findNextPrimeLoop.induct with
  | case1 p hp =>
    unfold findNextPrimeLoop
    rw [if_pos hp]
    exact ⟨(isPrime_iff hodd h3).mp hp, BitVec.le_refl p⟩
  | case2 p hp ih =>
    unfold findNextPrimeLoop
    rw [if_neg hp]
    have hne : p.toNat ≠ 4294967291 := by
      intro heq
      apply hp
      rw [isPrime_iff hodd h3, heq]
      exact prime_4294967291
    have hadd : (p + 2).toNat = p.toNat + 2 := BitVec.toNat_add_of_lt (by
      show p.toNat + 2 < 2 ^ 32
      omega)
    obtain ⟨hprime, hge⟩ := ih (by omega) (by omega) (by omega)
    refine ⟨hprime, ?_⟩
    rw [BitVec.le_def] at hge ⊢
    omega

/-- The search starts on the first odd number from `v` on. -/
theorem findNextPrime_eq_loop (v : BitVec 32) :
    ∃ p, p.toNat % 2 = 1 ∧ v.toNat ≤ p.toNat ∧ p.toNat ≤ v.toNat + 1 ∧
      findNextPrime v = findNextPrimeLoop p := by
  have hand : (v &&& 1).toNat = v.toNat % 2 := by
    rw [BitVec.toNat_and]
    exact Nat.and_one_is_mod _
  unfold findNextPrime
  by_cases heven : v &&& 1 = 0
  · have hmod : v.toNat % 2 = 0 := by
      rw [← hand, heven]
      rfl
    have hadd : (v + 1).toNat = v.toNat + 1 := BitVec.toNat_add_of_lt (by
      show v.toNat + 1 < 2 ^ 32
      omega)
    rw [if_pos heven]
    exact ⟨v + 1, by omega, by omega, by omega, rfl⟩
  · have hmod : v.toNat % 2 ≠ 0 := by
      intro h
      exact heven (BitVec.eq_of_toNat_eq (by rw [hand, h]; rfl))
    rw [if_neg heven]
    exact ⟨v, by omega, by omega, by omega, rfl⟩

theorem findNextPrime_spec {v : BitVec 32} (h2 : 2 ≤ v.toNat) (hle : v.toNat ≤ 4294967291) :
    (findNextPrime v).toNat.Prime ∧ v.toNat ≤ (findNextPrime v).toNat ∧
      (findNextPrime v).toNat % 2 = 1 := by
  obtain ⟨p, hodd, hge, hnear, heq⟩ := findNextPrime_eq_loop v
  obtain ⟨hprime, hp⟩ := findNextPrimeLoop_spec p hodd (by omega) (by omega)
  rw [BitVec.le_def] at hp
  rw [heq]
  refine ⟨hprime, by omega, ?_⟩
  obtain h2 | hodd := hprime.eq_two_or_odd
  · omega
  · exact hodd

/-- Above the largest prime of 32 bits, the search wraps to 1. -/
theorem findNextPrime_wraps {v : BitVec 32} (hgt : 4294967291 < v.toNat) :
    findNextPrime v = 1 := by
  have hcomposite : ∀ p : BitVec 32, 3 ≤ p.toNat → p.toNat % 2 = 1 → ¬ p.toNat.Prime →
      findNextPrimeLoop p = findNextPrimeLoop (p + 2) := by
    intro p h3 hodd hp
    conv_lhs => unfold findNextPrimeLoop
    rw [if_neg (by rw [isPrime_iff hodd h3]; exact hp)]
  have hone : findNextPrimeLoop 1 = 1 := by
    unfold findNextPrimeLoop
    rw [if_pos (by decide +kernel)]
  have hlast : findNextPrimeLoop 4294967295 = 1 := by
    rw [hcomposite _ (by decide) (by decide) (by
      show ¬ Nat.Prime 4294967295
      norm_num)]
    exact hone
  obtain ⟨p, hodd, hge, _, heq⟩ := findNextPrime_eq_loop v
  have hword := p.isLt
  obtain hp | hp : p.toNat = 4294967293 ∨ p.toNat = 4294967295 := by omega
  · obtain rfl : p = 4294967293 := BitVec.eq_of_toNat_eq hp
    rw [heq, hcomposite _ (by decide) (by decide) (by
      show ¬ Nat.Prime 4294967293
      norm_num)]
    exact hlast
  · obtain rfl : p = 4294967295 := BitVec.eq_of_toNat_eq hp
    rw [heq, hlast]

/-! ## `random_prime_with` -/

/-- Where no number of the range is coprime to `n`, the loop never ends. -/
theorem randomPrimeWith_eq_none {e : Engine} (he : e.InRange) {n : BitVec 32}
    (h : ∀ ret ≤ n - 2, gcd ret n ≠ 1) (fuel : Nat) (st : e.State) :
    randomPrimeWith e n fuel st = none := by
  induction fuel generalizing st with
  | zero => rfl
  | succ fuel ih =>
    have hdraw := (he 0 (n - 2) st (Word.zero_le _)).2
    unfold randomPrimeWith
    simp only
    rw [if_pos (h _ hdraw)]
    exact ih _

/-- The engine that always draws the number nearest to `ret`. -/
def nearestEngine (ret : BitVec 32) : Engine := ⟨Unit, fun lo hi st => (max lo (min ret hi), st)⟩

theorem nearestEngine_inRange (ret : BitVec 32) : (nearestEngine ret).InRange :=
  fun _ _ _ hle => ⟨le_max_left _ _, max_le hle (min_le_right _ _)⟩

/-- The loop can end exactly when the range has a number coprime to `n`. -/
theorem randomPrimeWith_ends_iff (n : BitVec 32) :
    (∃ e : Engine, e.InRange ∧ ∃ fuel st r, randomPrimeWith e n fuel st = some r) ↔
      ∃ ret ≤ n - 2, gcd ret n = 1 := by
  constructor
  · rintro ⟨e, he, fuel, st, r, hr⟩
    by_contra hnone
    have hall : ∀ ret ≤ n - 2, gcd ret n ≠ 1 := fun ret hle h => hnone ⟨ret, hle, h⟩
    rw [randomPrimeWith_eq_none he hall] at hr
    cases hr
  · rintro ⟨ret, hle, hgcd⟩
    refine ⟨nearestEngine ret, nearestEngine_inRange ret, 1, (), (ret, ()), ?_⟩
    have hdraw : max 0 (min ret (n - 2)) = ret := by
      rw [min_eq_left hle, max_eq_right (Word.zero_le _)]
    show (if gcd (max 0 (min ret (n - 2))) n ≠ 1 then none
      else some (max 0 (min ret (n - 2)), ())) = _
    rw [hdraw, if_neg (not_not_intro hgcd)]
    rfl

theorem randomPrimeWith_spec {e : Engine} (he : e.InRange) {n : BitVec 32} {fuel : Nat}
    {st : e.State} {r : BitVec 32 × e.State} (h : randomPrimeWith e n fuel st = some r) :
    r.1 ≤ n - 2 ∧ gcd r.1 n = 1 := by
  induction fuel generalizing st with
  | zero => cases h
  | succ fuel ih =>
    unfold randomPrimeWith at h
    simp only at h
    by_cases hgcd : gcd (e.draw 0 (n - 2) st).1 n ≠ 1
    · rw [if_pos hgcd] at h
      exact ih h
    · rw [if_neg hgcd] at h
      cases h
      exact ⟨(he 0 (n - 2) st (Word.zero_le _)).2, by simpa using hgcd⟩

/-! ## `init` -/

/-- From a prime of at least 5 on, 1 is in the range. -/
theorem exists_coprime {p : BitVec 32} (h5 : 5 ≤ p.toNat) :
    ∃ ret ≤ p - 3, gcd ret (p - 1) = 1 := by
  have hsub : (p - 3).toNat = p.toNat - 3 :=
    Word.toNat_sub_of_le (by rw [BitVec.le_def]; show 3 ≤ p.toNat; omega)
  refine ⟨1, ?_, ?_⟩
  · rw [BitVec.le_def, hsub]
    show 1 ≤ p.toNat - 3
    omega
  · rw [gcd_eq_one_iff]
    exact Nat.coprime_one_left _

/-- **The parameters of `uprng`.** For `max ≥ 2`, the search finds a prime
that is at least `max` and the retry loop has a number to find exactly
from 4 to the largest prime of 32 bits. -/
theorem init_usable_iff (max : BitVec 32) (h2 : 2 ≤ max) :
    ((findNextPrime max).toNat.Prime ∧ max ≤ findNextPrime max ∧
      (∃ ret ≤ findNextPrime max - 3, gcd ret (findNextPrime max - 1) = 1) ∧
      ∃ e : Engine, e.InRange ∧
        ∃ fuel st r, randomPrimeWith e (findNextPrime max - 1) fuel st = some r) ↔
    4 ≤ max.toNat ∧ max.toNat ≤ 4294967291 := by
  have h2' : 2 ≤ max.toNat := h2
  constructor
  · rintro ⟨hprime, hge, ⟨ret, hret, hgcd⟩, _⟩
    have hle : max.toNat ≤ 4294967291 := by
      by_contra hgt
      rw [findNextPrime_wraps (by omega)] at hprime
      exact Nat.not_prime_one hprime
    refine ⟨?_, hle⟩
    by_contra hlt
    -- the prime is 3, and the range is `[0, 0]`
    have hthree : findNextPrime max = 3 := by
      have hloop : findNextPrimeLoop 3 = 3 := by
        unfold findNextPrimeLoop
        rw [if_pos (by decide +kernel)]
      obtain hmax | hmax : max.toNat = 2 ∨ max.toNat = 3 := by omega
      · obtain rfl : max = 2 := BitVec.eq_of_toNat_eq hmax
        exact hloop
      · obtain rfl : max = 3 := BitVec.eq_of_toNat_eq hmax
        exact hloop
    rw [hthree] at hret hgcd
    have hzero : ret = 0 := by
      apply BitVec.eq_of_toNat_eq
      have hret : ret.toNat ≤ 0 := hret
      exact Nat.le_zero.mp hret
    rw [hzero, gcd_eq_one_iff] at hgcd
    exact absurd hgcd (by decide)
  · rintro ⟨h4, hle⟩
    obtain ⟨hprime, hge, hodd⟩ := findNextPrime_spec h2' hle
    have hcoprime := exists_coprime (p := findNextPrime max) (by omega)
    refine ⟨hprime, hge, hcoprime, ?_⟩
    rw [randomPrimeWith_ends_iff, BitVec.sub_sub]
    exact hcoprime

theorem init_usable_twenty :
    ((findNextPrime 20).toNat.Prime ∧ 20 ≤ findNextPrime 20 ∧
      (∃ ret ≤ findNextPrime 20 - 3, gcd ret (findNextPrime 20 - 1) = 1) ∧
      ∃ e : Engine, e.InRange ∧
        ∃ fuel st r, randomPrimeWith e (findNextPrime 20 - 1) fuel st = some r) ↔
    4 ≤ (20 : BitVec 32).toNat ∧ (20 : BitVec 32).toNat ≤ 4294967291 :=
  init_usable_iff 20 (by decide)

/-- For the largest 32-bit `max`, the search returns 1. -/
theorem init_unusable_largest : ¬ (findNextPrime 0xFFFFFFFF).toNat.Prime := by
  rw [findNextPrime_wraps (by decide)]
  exact Nat.not_prime_one

open UprngU32 in
/-- **A generator from `init`** enumerates `[0, max)`: whatever the engine
draws in its ranges, an `init` that ends leaves parameters whose period
lists each integer once. -/
theorem init_enumerates {e : Engine} (he : e.InRange) {max : BitVec 32} (h4 : 4 ≤ max.toNat)
    (hle : max.toNat ≤ 4294967291) {fuel : Nat} {st st' : e.State} {u : UprngU32}
    (h : init e max fuel st = some (u, st')) :
    ∃ out u', calls (u.prime.toNat - u.max.toNat + 1) u.max.toNat u = some (out, u') ∧
      (out.map BitVec.toNat).Perm (List.range max.toNat) := by
  obtain ⟨hprime, hge, hodd⟩ := findNextPrime_spec (v := max) (by omega) hle
  have hsub : (max - 1).toNat = max.toNat - 1 :=
    Word.toNat_sub_of_le (by rw [BitVec.le_def]; show 1 ≤ max.toNat; omega)
  have hprimeSub : (findNextPrime max - 1).toNat = (findNextPrime max).toNat - 1 :=
    Word.toNat_sub_of_le (by rw [BitVec.le_def]; show 1 ≤ (findNextPrime max).toNat; omega)
  unfold init at h
  simp only at h
  rw [if_neg (by
    intro hzero
    rw [hzero] at hprime
    exact Nat.not_prime_zero hprime)] at h
  simp only [Option.bind_eq_bind, Option.bind_eq_some_iff] at h
  obtain ⟨r, hr, hu⟩ := h
  obtain ⟨_, hgcd⟩ := randomPrimeWith_spec he hr
  have ha := he 1 (max - 1) st (by rw [BitVec.le_def, hsub]; show 1 ≤ max.toNat - 1; omega)
  have hb := he 0 (max - 1) (e.draw 1 (max - 1) st).2 (Word.zero_le _)
  have hn := he 1 4 r.2 (by decide)
  rw [gcd_eq_one_iff, hprimeSub] at hgcd
  simp only [BitVec.le_def, hsub] at ha hb
  have ha1 : 1 ≤ (e.draw 1 (max - 1) st).1.toNat := ha.1
  cases hu
  have hc : 0 < r.1.toNat := by
    by_contra hzero
    rw [Nat.eq_zero_of_not_pos hzero, Nat.coprime_zero_left] at hgcd
    omega
  exact Params.calls_period ⟨hprime, by show 2 ≤ max.toNat; omega, hge, ha1,
    by show (e.draw 1 (max - 1) st).1.toNat < max.toNat; omega,
    by show (e.draw 0 (max - 1) (e.draw 1 (max - 1) st).2).1.toNat < max.toNat; omega,
    hc, hgcd, hn.1⟩

end Leeloo
