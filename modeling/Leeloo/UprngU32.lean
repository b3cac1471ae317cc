/-
Leeloo.UprngU32 — `uprng<uint32_t>` of `uprng.h`, the generator of unique
random integers by affine and power maps modulo a prime.

`get_step` repeats `x ↦ (a x + b)^c` modulo `_prime`. With the parameters
that `init` chooses (`Params`) one round permutes `[0, _prime)`, and so do
`_n` rounds. `operator()` walks the positions of a period and skips what
is at least `_max`; among `_prime - _max + 1` positions in a row, one is
not skipped.
-/
import Mathlib.Data.Set.Function
import Mathlib.Data.List.Range
import Leeloo.Lib.PowerMap
import Leeloo.MathHelpers
import Leeloo.Uni

namespace Leeloo

open RangePerm PowerMap

/-- The data members of `uprng<uint32_t>`. -/
structure UprngU32 where
  prime : BitVec 32
  max : BitVec 32
  a : BitVec 32
  b : BitVec 32
  c : BitVec 32
  n : BitVec 32
  curStep : BitVec 32
  deriving DecidableEq, Repr

namespace UprngU32

/-- `l`. -/
def l (X a b p : BitVec 32) : BitVec 32 :=
  ((a.setWidth 64 * X.setWidth 64 + b.setWidth 64) % p.setWidth 64).setWidth 32

/-- `g`. -/
def g (X c p : BitVec 32) : BitVec 32 := expMod X c p

/-- The body of the loop of `get_step`. -/
def round (u : UprngU32) (ret : BitVec 32) : BitVec 32 := g (l ret u.a u.b u.prime) u.c u.prime

/-- `get_step`. -/
def getStep (u : UprngU32) (step : BitVec 32) : BitVec 32 := u.round^[u.n.toNat] step

/-- The exact values of the 64-bit sum and products of `i` rounds. -/
def roundsValues (u : UprngU32) : Nat → BitVec 32 → List Nat
  | 0, _ => []
  | i + 1, ret =>
    (u.a.toNat * ret.toNat + u.b.toNat) ::
      expModProducts u.prime 1 (l ret u.a u.b u.prime) u.c ++ roundsValues u i (u.round ret)

/-- The exact values of the 64-bit sums and products of `get_step`. -/
def getStepValues (u : UprngU32) (step : BitVec 32) : List Nat := u.roundsValues u.n.toNat step

/-- The loop of `operator()`, `fuel` iterations at most. -/
def nextLoop (u : UprngU32) : Nat → Option (BitVec 32 × UprngU32)
  | 0 => none
  | fuel + 1 =>
    let (pos, curStep) := posIncrement u.curStep u.prime
    let res := u.getStep pos
    if u.max ≤ res then nextLoop { u with curStep } fuel else some (res, { u with curStep })

/-- `n` calls of `operator()`, of `fuel` iterations at most each. -/
def calls (fuel : Nat) : Nat → UprngU32 → Option (List (BitVec 32) × UprngU32)
  | 0, u => some ([], u)
  | n + 1, u => do
    let (v, u) ← u.nextLoop fuel
    let (out, u) ← calls fuel n u
    some (v :: out, u)

/-- What `init` chooses. -/
structure Params (u : UprngU32) : Prop where
  prime : u.prime.toNat.Prime
  two_le_max : 2 ≤ u.max.toNat
  max_le_prime : u.max.toNat ≤ u.prime.toNat
  a_pos : 1 ≤ u.a.toNat
  a_lt : u.a.toNat < u.max.toNat
  b_lt : u.b.toNat < u.max.toNat
  c_pos : 0 < u.c.toNat
  coprime : Nat.Coprime u.c.toNat (u.prime.toNat - 1)
  n_pos : 1 ≤ u.n.toNat

/-! ## A round -/

theorem affine_lt_two_pow (X a b : BitVec 32) : a.toNat * X.toNat + b.toNat < 2 ^ 64 := by
  have hmul := Nat.mul_le_mul (Nat.le_sub_one_of_lt a.isLt) (Nat.le_sub_one_of_lt X.isLt)
  have hb := b.isLt
  omega

theorem toNat_l {p : BitVec 32} (hp : 0 < p.toNat) (X a b : BitVec 32) :
    (l X a b p).toNat = affine p.toNat a.toNat b.toNat X.toNat := by
  have hX := X.isLt
  have ha := a.isLt
  have hb := b.isLt
  have hp32 := p.isLt
  have hsum := affine_lt_two_pow X a b
  have hmod : (a.toNat * X.toNat + b.toNat) % p.toNat < p.toNat := Nat.mod_lt _ hp
  unfold l affine
  simp only [BitVec.toNat_setWidth, BitVec.toNat_umod, BitVec.toNat_add, BitVec.toNat_mul]
  rw [Nat.mod_eq_of_lt (show a.toNat < 2 ^ 64 by omega),
    Nat.mod_eq_of_lt (show X.toNat < 2 ^ 64 by omega),
    Nat.mod_eq_of_lt (show b.toNat < 2 ^ 64 by omega),
    Nat.mod_eq_of_lt (show p.toNat < 2 ^ 64 by omega),
    Nat.mod_eq_of_lt (show a.toNat * X.toNat < 2 ^ 64 by omega), Nat.mod_eq_of_lt hsum,
    Nat.mod_eq_of_lt (show (a.toNat * X.toNat + b.toNat) % p.toNat < 2 ^ 32 by omega)]

/-- A round on natural numbers. -/
def roundMap (u : UprngU32) (x : Nat) : Nat :=
  power u.prime.toNat u.c.toNat (affine u.prime.toNat u.a.toNat u.b.toNat x)

/-- `get_step` on natural numbers. -/
def stepMap (u : UprngU32) (x : Nat) : Nat := u.roundMap^[u.n.toNat] x

variable {u : UprngU32}

theorem toNat_round (hp : 1 < u.prime.toNat) (x : BitVec 32) :
    (u.round x).toNat = u.roundMap x.toNat := by
  unfold round g roundMap power
  rw [toNat_expMod hp, toNat_l (by omega)]

theorem toNat_getStep (hp : 1 < u.prime.toNat) (x : BitVec 32) :
    (u.getStep x).toNat = u.stepMap x.toNat := by
  unfold getStep stepMap
  induction u.n.toNat generalizing x with
  | zero => rfl
  | succ n ih => rw [Function.iterate_succ_apply, Function.iterate_succ_apply, ih, toNat_round hp]

/-- No sum and no product of a call leaves 64 bits. -/
theorem getStepValues_lt (step : BitVec 32) : ∀ x ∈ u.getStepValues step, x < 2 ^ 64 := by
  unfold getStepValues
  induction u.n.toNat generalizing step with
  | zero =>
    intro x hx
    cases hx
  | succ n ih =>
    intro x hx
    simp only [roundsValues, List.mem_append, List.mem_cons] at hx
    obtain (rfl | hprod) | hrest := hx
    · exact affine_lt_two_pow step u.a u.b
    · exact expModProducts_lt _ _ _ _ x hprod
    · exact ih _ x hrest

theorem roundMap_lt (hu : Params u) (x : Nat) : u.roundMap x < u.prime.toNat :=
  Nat.mod_lt _ hu.prime.pos

theorem roundMap_injOn (hu : Params u) : Set.InjOn u.roundMap (Set.Iio u.prime.toNat) := by
  have halt := hu.a_lt
  have hmax := hu.max_le_prime
  have haffine : Set.MapsTo (affine u.prime.toNat u.a.toNat u.b.toNat)
      (Set.Iio u.prime.toNat) (Set.Iio u.prime.toNat) :=
    fun x _ => Nat.mod_lt _ hu.prime.pos
  exact (power_injOn hu.prime hu.c_pos hu.coprime).comp
    (affine_injOn hu.prime hu.a_pos (by omega)) haffine

theorem stepMap_lt (hu : Params u) {x : Nat} (hx : x < u.prime.toNat) :
    u.stepMap x < u.prime.toNat := by
  have hmaps : Set.MapsTo u.roundMap (Set.Iio u.prime.toNat) (Set.Iio u.prime.toNat) :=
    fun x _ => roundMap_lt hu x
  exact hmaps.iterate u.n.toNat hx

theorem stepMap_injOn (hu : Params u) : Set.InjOn u.stepMap (Set.Iio u.prime.toNat) :=
  (roundMap_injOn hu).iterate (fun x _ => roundMap_lt hu x) u.n.toNat

/-- The rounds permute `[0, _prime)`. -/
theorem getStep_bijOn (hu : Params u) :
    Set.BijOn u.getStep (Set.Iio u.prime) (Set.Iio u.prime) :=
  bijOn_words (fun x _ => toNat_getStep hu.prime.one_lt x) (fun _ hi => stepMap_lt hu hi)
    (stepMap_injOn hu)

/-! ## The skip loop -/

/-- What `operator()` tests at a position. -/
theorem max_le_getStep_iff (hu : Params u) (s : BitVec 32) :
    u.max ≤ u.getStep s ↔ u.max.toNat ≤ u.stepMap s.toNat := by
  rw [BitVec.le_def, toNat_getStep hu.prime.one_lt]

/-- A kept position among the next `fuel` ones ends the loop. -/
theorem exists_nextLoop (hu : Params u) {s : BitVec 32} (hs : s < u.prime) {fuel i : Nat}
    (hi : i < fuel) (hkeep : u.stepMap (rotate u.prime.toNat s.toNat i) < u.max.toNat) :
    ∃ r, { u with curStep := s }.nextLoop fuel = some r := by
  induction fuel generalizing s i with
  | zero => omega
  | succ fuel ih =>
    have hpos : (posIncrement s u.prime).2.toNat = rotate u.prime.toNat s.toNat 1 :=
      Uni.toNat_posIncrement hs
    have hs' : (posIncrement s u.prime).2 < u.prime := by
      rw [BitVec.lt_def, hpos]
      exact rotate_lt hs
    show ∃ r, (if u.max ≤ u.getStep s then
      { u with curStep := (posIncrement s u.prime).2 }.nextLoop fuel else _) = some r
    by_cases hskip : u.max ≤ u.getStep s
    · rw [if_pos hskip]
      have hi0 : i ≠ 0 := by
        rintro rfl
        unfold rotate at hkeep
        rw [Nat.add_zero, Nat.mod_eq_of_lt hs] at hkeep
        have := (max_le_getStep_iff hu s).mp hskip
        omega
      apply ih hs' (show i - 1 < fuel by omega)
      rw [hpos, rotate_rotate, show 1 + (i - 1) = i by omega]
      exact hkeep
    · rw [if_neg hskip]
      exact ⟨_, rfl⟩

/-- **The skip loop ends.** Among `_prime - _max + 1` positions in a row,
one gives an integer below `_max`: only `_prime - _max` integers are
skipped. -/
theorem exists_kept (hu : Params u) {s : Nat} (hs : s < u.prime.toNat) :
    ∃ i < u.prime.toNat - u.max.toNat + 1,
      u.stepMap (rotate u.prime.toNat s i) < u.max.toNat := by
  have hmax := hu.max_le_prime
  have hmax2 := hu.two_le_max
  by_contra hnone
  have hskip : ∀ i < u.prime.toNat - u.max.toNat + 1,
      u.max.toNat ≤ u.stepMap (rotate u.prime.toNat s i) := by
    intro i hi
    by_contra hlt
    exact hnone ⟨i, hi, by omega⟩
  have hinj : Set.InjOn (fun i => u.stepMap (rotate u.prime.toNat s i))
      (Finset.range (u.prime.toNat - u.max.toNat + 1)) := by
    intro i hi j hj hij
    simp only [Finset.coe_range, Set.mem_Iio] at hi hj
    exact rotate_injOn (show i < u.prime.toNat by omega) (show j < u.prime.toNat by omega)
      (stepMap_injOn hu (rotate_lt hs) (rotate_lt hs) hij)
  have hmaps : Set.MapsTo (fun i => u.stepMap (rotate u.prime.toNat s i))
      (Finset.range (u.prime.toNat - u.max.toNat + 1))
      (Finset.Ico u.max.toNat u.prime.toNat) := by
    intro i hi
    simp only [Finset.coe_range, Set.mem_Iio] at hi
    simp only [Finset.coe_Ico, Set.mem_Ico]
    exact ⟨hskip i hi, stepMap_lt hu (rotate_lt hs)⟩
  have hcard := Finset.card_le_card_of_injOn _ hmaps hinj
  rw [Finset.card_range, Nat.card_Ico] at hcard
  omega

theorem nextLoop_ends (hu : Params u) {s : BitVec 32} (hs : s < u.prime) :
    ∃ r, { u with curStep := s }.nextLoop (u.prime.toNat - u.max.toNat + 1) = some r := by
  obtain ⟨i, hi, hkeep⟩ := exists_kept hu hs
  exact exists_nextLoop hu hs hi hkeep

/-! ## A period -/

/-- The integers kept from position `s` to the end of the period. -/
def kept (u : UprngU32) (s : Nat) : List Nat :=
  ((List.range' s (u.prime.toNat - s)).map u.stepMap).filter (· < u.max.toNat)

theorem kept_end : u.kept u.prime.toNat = [] := by
  simp [kept]

theorem kept_of_lt {s : Nat} (hs : s < u.prime.toNat) :
    u.kept s =
      if u.max.toNat ≤ u.stepMap s then u.kept (s + 1) else u.stepMap s :: u.kept (s + 1) := by
  unfold kept
  rw [show u.prime.toNat - s = u.prime.toNat - (s + 1) + 1 by omega, List.range'_succ,
    List.map_cons, List.filter_cons]
  by_cases h : u.max.toNat ≤ u.stepMap s
  · rw [if_pos h, if_neg (by simpa using h)]
  · rw [if_neg h, if_pos (by simpa using h)]

/-- A period keeps each integer of `[0, _max)` once. -/
theorem kept_zero_perm (hu : Params u) : (u.kept 0).Perm (List.range u.max.toNat) := by
  have hperm : ((List.range u.prime.toNat).map u.stepMap).Perm (List.range u.prime.toNat) :=
    (map_range_perm_iff fun _ hi => stepMap_lt hu hi).mpr (stepMap_injOn hu)
  have hmax := hu.max_le_prime
  unfold kept
  rw [Nat.sub_zero, ← List.range_eq_range']
  refine (hperm.filter _).trans ?_
  rw [List.perm_ext_iff_of_nodup (List.nodup_range.filter _) List.nodup_range]
  intro x
  simp only [List.mem_filter, List.mem_range, decide_eq_true_eq]
  omega

/-- A call returns the next integer kept, and leaves the others. -/
theorem nextLoop_kept (hu : Params u) {s : BitVec 32} (hs : s < u.prime) {fuel : Nat}
    {r : BitVec 32 × UprngU32} (h : { u with curStep := s }.nextLoop fuel = some r) {x : Nat}
    {rest : List Nat} (hkept : u.kept s.toNat = x :: rest) :
    r.1.toNat = x ∧ ∃ s' < u.prime, r.2 = { u with curStep := s' } ∧
      (rest = [] ∨ u.kept s'.toNat = rest) := by
  induction fuel generalizing s with
  | zero => cases h
  | succ fuel ih =>
    have hpos : (posIncrement s u.prime).2.toNat = rotate u.prime.toNat s.toNat 1 :=
      Uni.toNat_posIncrement hs
    have hs' : (posIncrement s u.prime).2 < u.prime := by
      rw [BitVec.lt_def, hpos]
      exact rotate_lt hs
    -- the next position, unless the period ends here
    have hnext : s.toNat + 1 < u.prime.toNat →
        (posIncrement s u.prime).2.toNat = s.toNat + 1 := by
      intro hlt
      rw [hpos]
      exact Nat.mod_eq_of_lt hlt
    have hend : ¬ s.toNat + 1 < u.prime.toNat → u.kept (s.toNat + 1) = [] := by
      intro hge
      have hs : s.toNat < u.prime.toNat := hs
      rw [show s.toNat + 1 = u.prime.toNat by omega]
      exact kept_end
    replace h : (if u.max ≤ u.getStep s then
      { u with curStep := (posIncrement s u.prime).2 }.nextLoop fuel else
      some (u.getStep s, { u with curStep := (posIncrement s u.prime).2 })) = some r := h
    rw [kept_of_lt hs] at hkept
    by_cases hskip : u.max ≤ u.getStep s
    · rw [if_pos hskip] at h
      rw [if_pos ((max_le_getStep_iff hu s).mp hskip)] at hkept
      by_cases hlt : s.toNat + 1 < u.prime.toNat
      · exact ih hs' h (by rw [hnext hlt]; exact hkept)
      · rw [hend hlt] at hkept
        cases hkept
    · rw [if_neg hskip, Option.some.injEq] at h
      rw [if_neg (mt (max_le_getStep_iff hu s).mpr hskip), List.cons.injEq] at hkept
      rw [← h]
      refine ⟨by rw [toNat_getStep hu.prime.one_lt, hkept.1], _, hs', rfl, ?_⟩
      by_cases hlt : s.toNat + 1 < u.prime.toNat
      · exact Or.inr (by rw [hnext hlt, hkept.2])
      · exact Or.inl (by rw [← hkept.2, hend hlt])

/-- The calls return the integers kept, in order. -/
theorem calls_kept (hu : Params u) {s : BitVec 32} (hs : s < u.prime) {n : Nat}
    (hn : n ≤ (u.kept s.toNat).length) :
    ∃ out u', calls (u.prime.toNat - u.max.toNat + 1) n { u with curStep := s } = some (out, u') ∧
      out.map BitVec.toNat = (u.kept s.toNat).take n := by
  induction n generalizing s with
  | zero => exact ⟨[], _, rfl, by simp⟩
  | succ n ih =>
    obtain ⟨r, hr⟩ := nextLoop_ends hu hs
    cases hkept : u.kept s.toNat with
    | nil =>
      rw [hkept] at hn
      simp at hn
    | cons x rest =>
      obtain ⟨hx, s', hs', hr2, hrest⟩ := nextLoop_kept hu hs hr hkept
      have hlen : n ≤ rest.length := by
        rw [hkept, List.length_cons] at hn
        omega
      have htail : ∃ out u', calls (u.prime.toNat - u.max.toNat + 1) n
          { u with curStep := s' } = some (out, u') ∧ out.map BitVec.toNat = rest.take n := by
        obtain rfl | heq := hrest
        · obtain rfl : n = 0 := by simpa using hlen
          exact ⟨[], _, rfl, by simp⟩
        · rw [← heq]
          exact ih hs' (by rw [heq]; exact hlen)
      obtain ⟨out, u', hcalls, hout⟩ := htail
      refine ⟨r.1 :: out, u', ?_, ?_⟩
      · unfold calls
        simp only [hr, hr2, Option.bind_eq_bind, Option.bind_some, hcalls]
      · rw [List.map_cons, hx, hout, List.take_succ_cons]

/-- The calls of a period, from position 0 on. -/
theorem Params.calls_period (hu : Params u) :
    ∃ out u', calls (u.prime.toNat - u.max.toNat + 1) u.max.toNat
        { u with curStep := 0 } = some (out, u') ∧
      (out.map BitVec.toNat).Perm (List.range u.max.toNat) := by
  have hperm := kept_zero_perm hu
  have hlen : (u.kept 0).length = u.max.toNat := by
    rw [hperm.length_eq, List.length_range]
  obtain ⟨out, u', hcalls, hout⟩ := calls_kept hu (s := 0) (n := u.max.toNat) hu.prime.pos
    (Nat.le_of_eq hlen.symm)
  have hall : (u.kept 0).take u.max.toNat = u.kept 0 := List.take_of_length_le (Nat.le_of_eq hlen)
  refine ⟨out, u', hcalls, ?_⟩
  rw [hout]
  show ((u.kept 0).take u.max.toNat).Perm _
  rw [hall]
  exact hperm

end UprngU32

open UprngU32 in
/-- **`uprng` enumerates its range.** With parameters as `init` chooses
them, `get_step` permutes `[0, prime)` without leaving 64 bits, every call
of `operator()` ends within `prime - max + 1` iterations, and `max` calls
from position 0 return each integer of `[0, max)` once. -/
theorem uprng_enumerates (u : UprngU32) (hprime : u.prime.toNat.Prime) (hmax : 2 ≤ u.max)
    (hmaxp : u.max ≤ u.prime) (ha : 1 ≤ u.a) (ham : u.a < u.max) (hb : u.b < u.max)
    (hc : 0 < u.c) (hcop : Nat.Coprime u.c.toNat (u.prime.toNat - 1)) (hn : 1 ≤ u.n) :
    Set.BijOn u.getStep (Set.Iio u.prime) (Set.Iio u.prime) ∧
      (∀ step, ∀ x ∈ u.getStepValues step, x < 2 ^ 64) ∧
      (∀ s < u.prime, ∃ r,
        { u with curStep := s }.nextLoop (u.prime.toNat - u.max.toNat + 1) = some r) ∧
      ∃ out u', calls (u.prime.toNat - u.max.toNat + 1) u.max.toNat
          { u with curStep := 0 } = some (out, u') ∧
        (out.map BitVec.toNat).Perm (List.range u.max.toNat) := by
  have hu : Params u := ⟨hprime, hmax, hmaxp, ha, ham, hb, hc, hcop, hn⟩
  exact ⟨getStep_bijOn hu, fun step => getStepValues_lt step, fun s hs => nextLoop_ends hu hs,
    hu.calls_period⟩

/-- The parameters `(a, b, c, n) = (3, 4, 3, 2)` below the prime 11. -/
def uprngSample : UprngU32 := ⟨11, 8, 3, 4, 3, 2, 0⟩

open UprngU32 in
theorem uprng_enumerates_sample :
    Set.BijOn uprngSample.getStep (Set.Iio 11) (Set.Iio 11) ∧
      (∀ step, ∀ x ∈ uprngSample.getStepValues step, x < 2 ^ 64) ∧
      (∀ s < uprngSample.prime, ∃ r, { uprngSample with curStep := s }.nextLoop 4 = some r) ∧
      ∃ out u', calls 4 8 { uprngSample with curStep := 0 } = some (out, u') ∧
        (out.map BitVec.toNat).Perm (List.range 8) :=
  uprng_enumerates uprngSample (by decide) (by decide) (by decide) (by decide) (by decide)
    (by decide) (by decide) (by decide) (by decide)

end Leeloo
