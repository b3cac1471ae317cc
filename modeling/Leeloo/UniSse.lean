/-
Leeloo.UniSse — `uni<__m128i>` of `uni.h`, four integers at a time.

The remainder is the one through doubles, as with `__AVX__`. A function
returns `none` where it reads outside `_rem_perm`.

A lane that holds an integer below `_max` is treated as the scalar
generator treats it, on both paths of `residue`, as long as `_max` is below
`2^31` (`residue_lane`). The comparisons are signed, so a position at
`2^31` or more is never reduced, and the remainder takes a sum at `2^31` or
more for a negative one.
-/
import Mathlib.Data.Int.ModEq
import Mathlib.Tactic.FinCases
import Mathlib.Tactic.NormNum.Prime
import Leeloo.Lib.Sse
import Leeloo.UniSteps

namespace Leeloo

open Sse QuadraticResidue RangePerm

/-- The data members of `uni<__m128i>`. -/
structure UniSse where
  prime : BitVec 32
  max : M128i
  intermediateOff : M128i
  remPerm : List (BitVec 32)
  curPos : M128i
  deriving DecidableEq, Repr

namespace UniSse

/-- `init`, with the two integers it draws. -/
def init (max intermediateOff curPos : BitVec 32) (shuffle : Shuffle (BitVec 32)) : UniSse :=
  let prime := findPreviousMatchingPrime max
  { prime
    max := set1Epi32 max
    intermediateOff := set1Epi32 intermediateOff
    curPos := setEpi32 ((curPos + 3) % max) ((curPos + 2) % max) ((curPos + 1) % max) curPos
    remPerm := Uni.initFinalPerm shuffle prime (set1Epi32 max).e0 }

/-- The macro `ITER`: one lane of the fallback of `residue`. -/
def iter (g : UniSse) (orgV cmp : BitVec 32) : Option (BitVec 32) :=
  let prime := g.prime.setWidth 64
  let primeD2 := (prime >>> 1).setWidth 32
  if cmp ≠ 0 then g.remPerm[(orgV.setWidth 64 - prime).toNat]?
  else
    let vi := ((orgV.setWidth 64 * orgV.setWidth 64) % prime).setWidth 32
    some (if primeD2 < orgV then (prime - vi.setWidth 64).setWidth 32 else vi)

/-- The fallback of `residue`, lane by lane. -/
def residueEach (g : UniSse) (v cmp : M128i) : Option M128i := do
  let v0 ← g.iter v.e0 cmp.e0
  let v1 ← g.iter v.e1 cmp.e1
  let v2 ← g.iter v.e2 cmp.e2
  let v3 ← g.iter v.e3 cmp.e3
  some (setEpi32 v3 v2 v1 v0)

/-- The macro `RESIDUE`: lanes 0 and 2 of `v`. -/
def residuePass (prime : BitVec 64) (primeSse v cmp : M128i) : M128i :=
  let res := mulEpu32 v v
  let tmp0 := res.lo64 % prime
  let tmp1 := res.hi64 % prime
  let res := insertEpi64 (insertEpi64 setzero tmp0 0) tmp1 1
  let resComp := subEpi64 primeSse res
  blendvPd res resComp cmp

/-- The two passes of `residue`: lanes 0 and 2, then lanes 1 and 3. -/
def residuePairs (g : UniSse) (v : M128i) : M128i :=
  let prime := g.prime.setWidth 64
  let primeSse := set1Epi32 g.prime
  let cmp := cmpgtEpi32 v (srliEpi32 primeSse 1)
  let primeSse := unpackloEpi32 primeSse setzero
  let cmpswap := shuffleEpi32 cmp (2 <<< 6)
  let res0 := residuePass prime primeSse v cmpswap
  let vswap := shuffleEpi32 v (1 ||| (3 <<< 4))
  let res1 := residuePass prime primeSse vswap cmp
  unpackloEpi32 (shuffleEpi32 res0 (2 <<< 2)) (shuffleEpi32 res1 (2 <<< 2))

/-- `residue`. -/
def residue (g : UniSse) (v : M128i) : Option M128i :=
  let cmp := cmpgtEpi32 v (subEpi32 (set1Epi32 g.prime) (set1Epi32 1))
  if !testAllZeros cmp (set1Epi32 0xFFFFFFFF) then g.residueEach v cmp
  else some (g.residuePairs v)

/-- `operator()`. -/
def next (g : UniSse) : Option (M128i × UniSse) := do
  let curPos := g.curPos
  let r ← g.residue curPos
  let res ← g.residue (uremEpi32 (addEpi32 r g.intermediateOff) g.max)
  let curPos := addEpi32 curPos (set1Epi32 4)
  let cmp := cmpgtEpi32 curPos (subEpi32 g.max (set1Epi32 1))
  let curPos := blendvPs curPos (subEpi32 curPos g.max) cmp
  some (res, { g with curPos })

/-- What call number `k` of `operator()` returns, the first call being
number 0. -/
def nthCall (g : UniSse) : Nat → Option M128i
  | 0 => g.next.map Prod.fst
  | k + 1 => g.next.bind fun r => nthCall r.2 k

end UniSse

/-- The outputs number `4k` to `4k + 3` of the scalar generator, in lane
order. -/
def Uni.fourCalls (g : Uni) (k : Nat) : Option M128i := do
  let v0 ← g.nthCall (4 * k)
  let v1 ← g.nthCall (4 * k + 1)
  let v2 ← g.nthCall (4 * k + 2)
  let v3 ← g.nthCall (4 * k + 3)
  some (setEpi32 v3 v2 v1 v0)

namespace UniSse

/-! ## The two paths of `residue` -/

/-- The lanes that go to the table, by a signed comparison. -/
def table (g : UniSse) (v : BitVec 32) : Bool := (g.prime - 1).slt v

theorem toNat_square {p v : BitVec 32} (hp : 0 < p.toNat) :
    ((v.setWidth 64 * v.setWidth 64) % p.setWidth 64).toNat = v.toNat * v.toNat % p.toNat := by
  have hv := v.isLt
  have hsq : v.toNat * v.toNat < 2 ^ 64 := by
    have hmul := Nat.mul_lt_mul'' v.isLt v.isLt
    omega
  simp only [BitVec.toNat_setWidth, BitVec.toNat_umod, BitVec.toNat_mul]
  rw [Nat.mod_eq_of_lt (show v.toNat < 2 ^ 64 by omega), Nat.mod_eq_of_lt hsq,
    Nat.mod_eq_of_lt (show p.toNat < 2 ^ 64 by omega)]

/-- A lane that does not go to the table: the residue permutation of the
prime, at any word. -/
theorem iter_square {g : UniSse} (hp : 0 < g.prime.toNat) (v : BitVec 32) :
    ∃ x, g.iter v 0 = some x ∧ x.toNat = permute g.prime.toNat v.toNat := by
  have hprime := g.prime.isLt
  have hsq := toNat_square hp (v := v)
  have hmod : v.toNat * v.toNat % g.prime.toNat < g.prime.toNat := Nat.mod_lt _ hp
  have hhalf : ((g.prime.setWidth 64 >>> 1).setWidth 32).toNat = g.prime.toNat / 2 := by
    simp only [BitVec.toNat_setWidth, BitVec.toNat_ushiftRight, Nat.shiftRight_eq_div_pow]
    omega
  unfold iter permute
  refine ⟨_, if_neg (by simp), ?_⟩
  simp only [BitVec.lt_def, hhalf]
  generalize v.toNat * v.toNat % g.prime.toNat = square at hsq hmod
  by_cases h : v.toNat ≤ g.prime.toNat / 2
  · rw [if_neg (by omega), if_pos h, BitVec.toNat_setWidth, hsq]
    omega
  · rw [if_pos (by omega), if_neg h, BitVec.toNat_setWidth, Word.toNat_sub_of_le]
    · simp only [BitVec.toNat_setWidth, hsq]
      omega
    · simp only [BitVec.le_def, BitVec.toNat_setWidth, hsq]
      omega

/-- A lane of the two passes: the complement only from a comparison as
signed integers. -/
def pairLane (p v : BitVec 32) : BitVec 32 :=
  let square := (v.setWidth 64 * v.setWidth 64) % p.setWidth 64
  (if (p >>> 1).slt v then p.setWidth 64 - square else square).setWidth 32

theorem residuePass_eq (prime : BitVec 64) (primeSse v cmp : M128i) :
    residuePass prime primeSse v cmp =
      M128i.ofEpi64
        (if cmp.e1.msb then primeSse.lo64 - v.e0.setWidth 64 * v.e0.setWidth 64 % prime
          else v.e0.setWidth 64 * v.e0.setWidth 64 % prime)
        (if cmp.e3.msb then primeSse.hi64 - v.e2.setWidth 64 * v.e2.setWidth 64 % prime
          else v.e2.setWidth 64 * v.e2.setWidth 64 % prime) := by
  simp [residuePass, mulEpu32, insertEpi64, subEpi64, blendvPd, msb_lo64, msb_hi64]

/-- The shuffles bring each lane to the pass and to the comparison that are
its own. -/
theorem lane_residuePairs (g : UniSse) (v : M128i) (j : Fin 4) :
    (g.residuePairs v).lane j = pairLane g.prime (v.lane j) := by
  have hswap : ∀ a : M128i, shuffleEpi32 a (2 <<< 6) = ⟨a.e0, a.e0, a.e0, a.e2⟩ := fun _ => rfl
  have hodd : ∀ a : M128i, shuffleEpi32 a (1 ||| (3 <<< 4)) = ⟨a.e1, a.e0, a.e3, a.e0⟩ :=
    fun _ => rfl
  have heven : ∀ a : M128i, shuffleEpi32 a (2 <<< 2) = ⟨a.e0, a.e2, a.e0, a.e0⟩ := fun _ => rfl
  unfold residuePairs pairLane
  simp only [residuePass_eq, hswap, hodd, heven, unpackloEpi32, setzero, set1Epi32, srliEpi32,
    M128i.map, M128i.map₂, cmpgtEpi32, lo64_zero, hi64_zero, msb_maskLane, e0_ofEpi64,
    e2_ofEpi64]
  fin_cases j <;> rfl

theorem slt_iff_of_small {a b : BitVec 32} (ha : a.toNat < 2 ^ 31) (hb : b.toNat < 2 ^ 31) :
    a.slt b = true ↔ a.toNat < b.toNat := by
  rw [BitVec.slt_iff_toInt_lt, BitVec.toInt_eq_toNat_of_lt (by omega),
    BitVec.toInt_eq_toNat_of_lt (by omega), Int.ofNat_lt]

theorem slt_of_large {a b : BitVec 32} (ha : a.toNat < 2 ^ 31) (hb : 2 ^ 31 ≤ b.toNat) :
    a.slt b = false := by
  have hword := b.isLt
  rw [Bool.eq_false_iff, ne_eq, BitVec.slt_iff_toInt_lt, BitVec.toInt_eq_toNat_of_lt (by omega),
    BitVec.toInt_eq_toNat_cond, if_neg (by omega)]
  omega

/-- Both paths square a lane alike below `2^31`; above, the two passes
never take the complement. -/
theorem toNat_pairLane {p : BitVec 32} (hp : 0 < p.toNat) (v : BitVec 32) :
    (pairLane p v).toNat =
      if v.toNat < 2 ^ 31 then permute p.toNat v.toNat else v.toNat * v.toNat % p.toNat := by
  have hprime := p.isLt
  have hsq := toNat_square hp (v := v)
  have hmod : v.toNat * v.toNat % p.toNat < p.toNat := Nat.mod_lt _ hp
  have hhalf : (p >>> 1).toNat = p.toNat / 2 := by
    simp only [BitVec.toNat_ushiftRight, Nat.shiftRight_eq_div_pow, pow_one]
  have hsub : (p.setWidth 64 - (v.setWidth 64 * v.setWidth 64) % p.setWidth 64).toNat =
      p.toNat - v.toNat * v.toNat % p.toNat := by
    have hp64 : (p.setWidth 64).toNat = p.toNat := by
      rw [BitVec.toNat_setWidth]
      omega
    rw [Word.toNat_sub_of_le (by rw [BitVec.le_def, hsq, hp64]; omega), hsq, hp64]
  unfold pairLane permute
  simp only [BitVec.toNat_setWidth]
  by_cases hsmall : v.toNat < 2 ^ 31
  · have hslt := slt_iff_of_small (a := p >>> 1) (by omega) hsmall
    rw [hhalf] at hslt
    by_cases h : v.toNat ≤ p.toNat / 2
    · rw [if_pos hsmall, if_pos h, if_neg (by rw [hslt]; omega), hsq]
      omega
    · rw [if_pos hsmall, if_neg h, if_pos (by rw [hslt]; omega), hsub]
      omega
  · rw [if_neg hsmall, slt_of_large (by omega) (by omega), if_neg (by simp), hsq]
    omega

theorem residue_of_table_eq_false {g : UniSse} {v : M128i}
    (h : ∀ j, g.table (v.lane j) = false) : g.residue v = some (g.residuePairs v) := by
  unfold residue
  rw [if_neg]
  simp only [Bool.not_eq_true', Bool.not_eq_false]
  rw [testAllZeros_cmpgt_iff]
  simpa [table] using h

theorem residue_of_table {g : UniSse} {v : M128i} {j : Fin 4} (h : g.table (v.lane j) = true) :
    g.residue v =
      g.residueEach v (cmpgtEpi32 v (subEpi32 (set1Epi32 g.prime) (set1Epi32 1))) := by
  unfold residue
  rw [if_pos]
  rw [Bool.not_eq_true', Bool.eq_false_iff, ne_eq, testAllZeros_cmpgt_iff]
  intro hall
  have hj := hall j
  simp only [lane_subEpi32, lane_set1Epi32] at hj
  unfold table at h
  rw [h] at hj
  cases hj

/-- The fallback reads each lane by itself. -/
theorem residueEach_eq_some_iff {g : UniSse} {v cmp r : M128i} :
    g.residueEach v cmp = some r ↔ ∀ j, g.iter (v.lane j) (cmp.lane j) = some (r.lane j) := by
  unfold residueEach
  simp only [Option.bind_eq_bind, Option.bind_eq_some_iff]
  constructor
  · rintro ⟨v0, h0, v1, h1, v2, h2, v3, h3, hr⟩ j
    cases hr
    match j with
    | 0 => exact h0
    | 1 => exact h1
    | 2 => exact h2
    | 3 => exact h3
  · intro h
    exact ⟨r.lane 0, h 0, r.lane 1, h 1, r.lane 2, h 2, r.lane 3, h 3, rfl⟩

/-! ## Lanes below a small `_max` -/

/-- The vector generator has the parameters of the scalar one. -/
structure Matches (s : UniSse) (g : Uni) : Prop where
  prime : s.prime = g.prime
  max : s.max = set1Epi32 g.max
  intermediateOff : s.intermediateOff = set1Epi32 g.intermediateOff
  remPerm : s.remPerm = g.remPerm

variable {s : UniSse} {g : Uni}

/-- The signed comparison finds the table where all the words are below
`2^31`. -/
theorem table_iff (hs : Matches s g) (hp : 0 < g.prime.toNat) (hsmall : g.prime.toNat ≤ 2 ^ 31)
    {v : BitVec 32} (hv : v.toNat < 2 ^ 31) : s.table v = true ↔ g.prime.toNat ≤ v.toNat := by
  have hone : (g.prime - 1).toNat = g.prime.toNat - 1 :=
    Word.toNat_sub_of_le (by rw [BitVec.le_def]; exact hp)
  unfold table
  rw [hs.prime, slt_iff_of_small (by omega) hv, hone]
  omega

/-- What a lane below `_max` becomes, on either path. -/
theorem iter_eq (hg : Uni.Valid g) (hs : Matches s g) (hp : 0 < g.prime.toNat)
    (hmax : g.max.toNat < 2 ^ 31) {v : BitVec 32} (hv : v.toNat < g.max.toNat) :
    ∃ x, s.iter v (maskLane (s.table v)) = some x ∧ x.toNat = Uni.residueMap g v.toNat := by
  have hle : g.prime.toNat ≤ g.max.toNat := by
    obtain h0 | h := hg.prime
    · omega
    · exact h.1
  have htable := table_iff hs hp (by omega) (v := v) (by omega)
  unfold Uni.residueMap
  by_cases hpv : g.prime.toNat ≤ v.toNat
  · obtain ⟨x, hx, _⟩ := hg.remPerm_getElem? hpv hv
    refine ⟨x, ?_, by rw [if_pos hpv, hx]; rfl⟩
    have hidx : (v.setWidth 64 - s.prime.setWidth 64).toNat = v.toNat - g.prime.toNat := by
      rw [hs.prime, Word.toNat_sub_of_le (by
        simp only [BitVec.le_def, BitVec.toNat_setWidth]; omega)]
      simp only [BitVec.toNat_setWidth]
      omega
    unfold iter
    rw [htable.mpr hpv]
    simp only [hidx, hs.remPerm]
    rw [if_pos (by decide), hx]
  · rw [if_neg hpv, Bool.eq_false_iff.mpr (fun h => hpv (htable.mp h)), ← hs.prime]
    exact iter_square (by rw [hs.prime]; exact hp) v

/-- **A lane below `_max`** becomes its residue, whichever path the other
lanes choose. -/
theorem residue_lane (hg : Uni.Valid g) (hs : Matches s g) (hp : 0 < g.prime.toNat)
    (hmax : g.max.toNat < 2 ^ 31) {v r : M128i} (h : s.residue v = some r) {j : Fin 4}
    (hv : (v.lane j).toNat < g.max.toNat) :
    (r.lane j).toNat = Uni.residueMap g (v.lane j).toNat := by
  by_cases htable : ∃ i, s.table (v.lane i) = true
  · obtain ⟨i, hi⟩ := htable
    rw [residue_of_table hi, residueEach_eq_some_iff] at h
    have hj := h j
    rw [lane_cmpgtEpi32, lane_subEpi32, lane_set1Epi32, lane_set1Epi32] at hj
    obtain ⟨x, hx, heq⟩ := iter_eq hg hs hp hmax hv
    unfold table at hx
    rw [hj, Option.some.injEq] at hx
    rw [hx, heq]
  · have hall : ∀ i, s.table (v.lane i) = false := by simpa using htable
    rw [residue_of_table_eq_false hall, Option.some.injEq] at h
    have hle : g.prime.toNat ≤ g.max.toNat := by
      obtain h0 | h := hg.prime
      · omega
      · exact h.1
    have hpv : ¬ g.prime.toNat ≤ (v.lane j).toNat := by
      rw [← table_iff hs hp (by omega) (by omega), hall j]
      decide
    unfold Uni.residueMap
    rw [if_neg hpv, ← h, lane_residuePairs, toNat_pairLane (by rw [hs.prime]; exact hp),
      if_pos (by omega), hs.prime]

/-- With all its lanes below `_max`, the residue is defined. -/
theorem exists_residue (hg : Uni.Valid g) (hs : Matches s g) (hp : 0 < g.prime.toNat)
    (hmax : g.max.toNat < 2 ^ 31) {v : M128i} (hv : ∀ j, (v.lane j).toNat < g.max.toNat) :
    ∃ r, s.residue v = some r := by
  by_cases htable : ∃ i, s.table (v.lane i) = true
  · obtain ⟨i, hi⟩ := htable
    have hlane : ∀ j, ∃ x, s.iter (v.lane j) (maskLane (s.table (v.lane j))) = some x := by
      intro j
      obtain ⟨x, hx, _⟩ := iter_eq hg hs hp hmax (hv j)
      exact ⟨x, hx⟩
    choose f hf using hlane
    refine ⟨⟨f 0, f 1, f 2, f 3⟩, ?_⟩
    rw [residue_of_table hi, residueEach_eq_some_iff]
    intro j
    rw [lane_cmpgtEpi32, lane_subEpi32, lane_set1Epi32, lane_set1Epi32]
    match j with
    | 0 => exact hf 0
    | 1 => exact hf 1
    | 2 => exact hf 2
    | 3 => exact hf 3
  · exact ⟨_, residue_of_table_eq_false (by simpa using htable)⟩

/-! ## The remainder after the offset -/

/-- The remainder of a lane plus the offset, as `_mm_urem_epi32` takes it. -/
def signedOffset (g : Uni) (x : BitVec 32) : BitVec 32 := uremLane (x + g.intermediateOff) g.max

theorem signedOffset_lt {x : BitVec 32} (hpos : 0 < g.max.toNat) (hmax : g.max.toNat < 2 ^ 31) :
    (signedOffset g x).toNat < g.max.toNat := by
  have heq := toNat_uremLane_of_pos (a := x + g.intermediateOff) hpos hmax
  have hlt := Int.emod_lt_of_pos (x + g.intermediateOff).toInt
    (show (0 : Int) < g.max.toNat by omega)
  unfold signedOffset
  omega

/-- A sum below `2^31` is reduced as the scalar generator does. -/
theorem signedOffset_of_small {x : BitVec 32} (hpos : 0 < g.max.toNat)
    (hmax : g.max.toNat < 2 ^ 31) (hsum : x.toNat + g.intermediateOff.toNat < 2 ^ 31) :
    (signedOffset g x).toNat = Uni.offsetMap g x.toNat := by
  have hadd : (x + g.intermediateOff).toNat = x.toNat + g.intermediateOff.toNat :=
    BitVec.toNat_add_of_lt (by omega)
  have heq := toNat_uremLane_of_pos (a := x + g.intermediateOff) hpos hmax
  rw [BitVec.toInt_eq_toNat_of_lt (by omega), hadd] at heq
  rw [Uni.offsetMap_of_lt (by omega)]
  unfold signedOffset
  exact_mod_cast heq

/-- From `2^31` on, the sum counts as the negative number it encodes. -/
theorem signedOffset_of_large {x : BitVec 32} (hpos : 0 < g.max.toNat)
    (hmax : g.max.toNat < 2 ^ 31) (hsum : 2 ^ 31 ≤ x.toNat + g.intermediateOff.toNat)
    (hword : x.toNat + g.intermediateOff.toNat < 2 ^ 32) :
    ((signedOffset g x).toNat : Int) =
      ((x.toNat + g.intermediateOff.toNat : Nat) - 2 ^ 32) % g.max.toNat := by
  have hadd : (x + g.intermediateOff).toNat = x.toNat + g.intermediateOff.toNat :=
    BitVec.toNat_add_of_lt hword
  have heq := toNat_uremLane_of_pos (a := x + g.intermediateOff) hpos hmax
  rw [BitVec.toInt_eq_toNat_cond, if_neg (by omega), hadd] at heq
  exact heq

/-! ## The positions -/

/-- The step of a position, with its signed comparison. -/
def stepLane (max c : BitVec 32) : BitVec 32 :=
  if (max - 1).slt (c + 4) then c + 4 - max else c + 4

theorem next_eq_some {r : M128i × UniSse} (hs : Matches s g) (h : s.next = some r) :
    Matches r.2 g ∧ (∀ j, r.2.curPos.lane j = stepLane g.max (s.curPos.lane j)) ∧
      ∃ v, s.residue s.curPos = some v ∧
        s.residue (uremEpi32 (addEpi32 v s.intermediateOff) s.max) = some r.1 := by
  unfold next at h
  simp only [Option.bind_eq_bind, Option.bind_eq_some_iff] at h
  obtain ⟨v, hv, res, hres, hr⟩ := h
  cases hr
  refine ⟨⟨hs.prime, hs.max, hs.intermediateOff, hs.remPerm⟩, ?_, v, hv, hres⟩
  intro j
  simp only [lane_blendvPs_cmpgt, lane_addEpi32, lane_subEpi32, lane_set1Epi32, hs.max]
  rfl

/-- What a call reads, after the calls before it. -/
theorem nthCall_eq_some (hs : Matches s g) {k : Nat} {res : M128i} (h : s.nthCall k = some res) :
    ∃ c v, (∀ j, c.lane j = (stepLane g.max)^[k] (s.curPos.lane j)) ∧ s.residue c = some v ∧
      s.residue (uremEpi32 (addEpi32 v s.intermediateOff) s.max) = some res := by
  induction k generalizing s with
  | zero =>
    unfold nthCall at h
    obtain ⟨r, hr, rfl⟩ := Option.map_eq_some_iff.mp h
    obtain ⟨_, _, v, hv, hres⟩ := next_eq_some hs hr
    exact ⟨s.curPos, v, fun _ => rfl, hv, hres⟩
  | succ k ih =>
    unfold nthCall at h
    obtain ⟨r, hr, hcall⟩ := Option.bind_eq_some_iff.mp h
    obtain ⟨hs', hpos, _⟩ := next_eq_some hs hr
    obtain ⟨c, v, hc, hv, hres⟩ := ih hs' hcall
    have hsame : ∀ x, r.2.residue x = s.residue x := by
      intro x
      unfold residue residueEach residuePairs iter
      rw [hs'.prime, hs.prime, hs'.remPerm, hs.remPerm]
    refine ⟨c, v, ?_, by rw [← hsame, hv], ?_⟩
    · intro j
      rw [hc j, hpos j, Function.iterate_succ_apply]
    · rw [hsame, hs'.intermediateOff, hs'.max] at hres
      rw [hs.intermediateOff, hs.max, hres]

/-- **The output of a lane** whose position is below `_max`. -/
theorem nthCall_lane (hg : Uni.Valid g) (hs : Matches s g) (hp : 0 < g.prime.toNat)
    (hmax : g.max.toNat < 2 ^ 31) {k : Nat} {res : M128i} (h : s.nthCall k = some res) {j : Fin 4}
    {p : Nat} (hpos : ((stepLane g.max)^[k] (s.curPos.lane j)).toNat = p) (hlt : p < g.max.toNat) :
    ∃ x : BitVec 32, x.toNat = Uni.residueMap g p ∧
      (res.lane j).toNat = Uni.residueMap g (signedOffset g x).toNat := by
  obtain ⟨c, v, hc, hv, hres⟩ := nthCall_eq_some hs h
  have hcj : (c.lane j).toNat = p := by rw [hc j, hpos]
  have hfirst := residue_lane hg hs hp hmax hv (j := j) (by omega)
  have hoff : (uremEpi32 (addEpi32 v s.intermediateOff) s.max).lane j =
      signedOffset g (v.lane j) := by
    simp [hs.intermediateOff, hs.max, signedOffset]
  have hsecond := residue_lane hg hs hp hmax hres (j := j)
    (by rw [hoff]; exact signedOffset_lt (by omega) hmax)
  rw [hoff] at hsecond
  exact ⟨v.lane j, by rw [hfirst, hcj], hsecond⟩

/-- A position far enough from `2^31` goes around as the scalar one. -/
theorem toNat_stepLane {max c : BitVec 32} (hc : c.toNat < max.toNat) (h4 : 4 ≤ max.toNat)
    (hsmall : max.toNat < 2 ^ 31) (hfit : c.toNat + 4 < 2 ^ 31) :
    (stepLane max c).toNat = rotate max.toNat c.toNat 4 := by
  have hone : (max - 1).toNat = max.toNat - 1 :=
    Word.toNat_sub_of_le (by rw [BitVec.le_def]; show 1 ≤ max.toNat; omega)
  have hadd : (c + 4).toNat = c.toNat + 4 := BitVec.toNat_add_of_lt (by
    show c.toNat + 4 < 2 ^ 32
    omega)
  have hslt := slt_iff_of_small (a := max - 1) (b := c + 4) (by omega) (by omega)
  unfold stepLane rotate
  by_cases h : max.toNat - 1 < c.toNat + 4
  · rw [if_pos (hslt.mpr (by omega)),
      Word.toNat_sub_of_le (by rw [BitVec.le_def, hadd]; omega), hadd,
      Nat.mod_eq_sub_mod (by omega), Nat.mod_eq_of_lt (by omega)]
  · rw [if_neg (fun hc => h (by have := hslt.mp hc; omega)), hadd, Nat.mod_eq_of_lt (by omega)]

theorem toNat_iterate_stepLane {max c : BitVec 32} (hc : c.toNat < max.toNat)
    (h4 : 4 ≤ max.toNat) (hsmall : max.toNat + 4 ≤ 2 ^ 31) (k : Nat) :
    ((stepLane max)^[k] c).toNat = rotate max.toNat c.toNat (4 * k) := by
  induction k with
  | zero =>
    unfold rotate
    rw [Function.iterate_zero_apply, Nat.mul_zero, Nat.add_zero, Nat.mod_eq_of_lt hc]
  | succ k ih =>
    have hlt : ((stepLane max)^[k] c).toNat < max.toNat := by
      rw [ih]
      exact rotate_lt hc
    rw [Function.iterate_succ_apply', toNat_stepLane hlt h4 (by omega) (by omega), ih,
      rotate_rotate]
    rfl

theorem exists_next (hg : Uni.Valid g) (hs : Matches s g) (hp : 0 < g.prime.toNat)
    (hmax : g.max.toNat < 2 ^ 31) (hpos : ∀ j, (s.curPos.lane j).toNat < g.max.toNat) :
    ∃ r, s.next = some r := by
  obtain ⟨v, hv⟩ := exists_residue hg hs hp hmax hpos
  obtain ⟨res, hres⟩ := exists_residue hg hs hp hmax
    (v := uremEpi32 (addEpi32 v s.intermediateOff) s.max) (by
      intro j
      simp only [lane_uremEpi32, lane_addEpi32, hs.intermediateOff, hs.max, lane_set1Epi32]
      exact signedOffset_lt (g := g) (by have := hg.pos_lt; omega) hmax)
  unfold next
  simp [hv, hres]

/-- With lanes below a small `_max`, no call fails. -/
theorem exists_nthCall (hg : Uni.Valid g) (hs : Matches s g) (hp : 0 < g.prime.toNat)
    (h4 : 4 ≤ g.max.toNat) (hsmall : g.max.toNat + 4 ≤ 2 ^ 31)
    (hpos : ∀ j, (s.curPos.lane j).toNat < g.max.toNat) (k : Nat) :
    ∃ res, s.nthCall k = some res := by
  induction k generalizing s with
  | zero =>
    obtain ⟨r, hr⟩ := exists_next hg hs hp (by omega) hpos
    exact ⟨r.1, by unfold nthCall; rw [hr]; rfl⟩
  | succ k ih =>
    obtain ⟨r, hr⟩ := exists_next hg hs hp (by omega) hpos
    obtain ⟨hs', hpos', _⟩ := next_eq_some hs hr
    unfold nthCall
    rw [hr, Option.bind_some]
    apply ih hs'
    intro j
    rw [hpos' j, toNat_stepLane (hpos j) h4 (by omega) (by have := hpos j; omega)]
    exact rotate_lt (hpos j)

/-! ## The scalar outputs, four at a time -/

theorem fourCalls_eq (hg : Uni.Valid g) (k : Nat) :
    ∃ r, g.fourCalls k = some r ∧ ∀ j : Fin 4,
      (r.lane j).toNat =
        Uni.outputMap g (rotate g.max.toNat g.curPos.toNat (4 * k + j.val)) := by
  have hword : ∀ i, (BitVec.ofNat 32 (Uni.outputMap g i)).toNat = Uni.outputMap g i := by
    intro i
    have hlt := Uni.outputMap_lt hg i
    have hmax := g.max.isLt
    rw [BitVec.toNat_ofNat, Nat.mod_eq_of_lt (by omega)]
  unfold Uni.fourCalls
  simp only [Uni.nthCall_eq hg, Option.bind_eq_bind, Option.bind_some]
  refine ⟨_, rfl, ?_⟩
  intro j
  match j with
  | 0 | 1 | 2 | 3 => exact hword _

/-! ## From `init` on -/

section Init

variable {max off pos : BitVec 32} {shuffle : Shuffle (BitVec 32)}

theorem init_matches : Matches (init max off pos shuffle) (Uni.init max off pos shuffle) :=
  ⟨rfl, rfl, rfl, rfl⟩

/-- The lanes start on consecutive positions. -/
theorem init_curPos (hpos : pos < max) (hsmall : max.toNat < 2 ^ 31) (j : Fin 4) :
    ((init max off pos shuffle).curPos.lane j).toNat = rotate max.toNat pos.toNat j.val := by
  have hpos : pos.toNat < max.toNat := hpos
  have hadd : ∀ n < 4, ((pos + BitVec.ofNat 32 n) % max).toNat = rotate max.toNat pos.toNat n := by
    intro n hn
    have hn' : (BitVec.ofNat 32 n).toNat = n := by
      rw [BitVec.toNat_ofNat, Nat.mod_eq_of_lt (by omega)]
    rw [BitVec.toNat_umod, BitVec.toNat_add_of_lt (by omega), hn']
    rfl
  match j with
  | 0 => exact (Nat.mod_eq_of_lt hpos).symm
  | 1 => exact hadd 1 (by omega)
  | 2 => exact hadd 2 (by omega)
  | 3 => exact hadd 3 (by omega)

/-- The vector calls are the scalar ones. -/
def Agrees (max off pos : BitVec 32) (shuffle : Shuffle (BitVec 32)) : Prop :=
  ∀ k, (init max off pos shuffle).nthCall k = (Uni.init max off pos shuffle).fourCalls k

/-- Where the calls agree, a lane below `_max` has the offset sum of the
scalar position. -/
theorem Agrees.lane (hoff : off < max) (hpos : pos < max) (h3 : 3 ≤ max.toNat)
    (hsmall : max.toNat < 2 ^ 31) (h : Agrees max off pos shuffle) {k : Nat} {j : Fin 4} {p : Nat}
    (hp : ((stepLane max)^[k] ((init max off pos shuffle).curPos.lane j)).toNat = p)
    (hlt : p < max.toNat) :
    ∃ x : BitVec 32, x.toNat = Uni.residueMap (Uni.init max off pos shuffle) p ∧
      (signedOffset (Uni.init max off pos shuffle) x).toNat =
        Uni.offsetMap (Uni.init max off pos shuffle)
          (Uni.residueMap (Uni.init max off pos shuffle)
            (rotate max.toNat pos.toNat (4 * k + j.val))) := by
  have hg := Uni.init_valid hoff hpos shuffle
  have hprime : 0 < (Uni.init max off pos shuffle).prime.toNat := Uni.init_prime_pos h3
  obtain ⟨r, hr, hlanes⟩ := fourCalls_eq hg k
  obtain ⟨x, hx, hres⟩ := nthCall_lane hg init_matches hprime hsmall ((h k).trans hr) hp hlt
  refine ⟨x, hx, ?_⟩
  rw [hlanes j] at hres
  exact (hg.residueMap_injOn (Uni.offsetMap_lt hg _)
    (signedOffset_lt (by show 0 < max.toNat; omega) hsmall) hres).symm

/-- A position of the scalar generator is met by some lane of some call. -/
theorem exists_lane {n pos q : Nat} (hpos : pos < n) (hq : q < n) :
    ∃ k, ∃ j : Fin 4, rotate n pos (4 * k + j.val) = q := by
  obtain ⟨i, hi⟩ : ∃ i, rotate n pos i = q := by
    refine ⟨n - pos + q, ?_⟩
    unfold rotate
    rw [show pos + (n - pos + q) = q + n by omega, Nat.add_mod_right, Nat.mod_eq_of_lt hq]
  refine ⟨i / 4, ⟨i % 4, Nat.mod_lt _ (by omega)⟩, ?_⟩
  rw [show 4 * (i / 4) + i % 4 = i by omega, hi]

/-! ## A `_max` below `2^31 - 3` -/

theorem small_lanes (hpos : pos < max) (h4 : 4 ≤ max.toNat) (hsmall : max.toNat + 4 ≤ 2 ^ 31)
    (k : Nat) (j : Fin 4) :
    ((stepLane max)^[k] ((init max off pos shuffle).curPos.lane j)).toNat =
      rotate max.toNat pos.toNat (4 * k + j.val) := by
  have hinit : ((init max off pos shuffle).curPos.lane j).toNat =
      rotate max.toNat pos.toNat j.val := init_curPos hpos (by omega) j
  rw [toNat_iterate_stepLane (by rw [hinit]; exact rotate_lt hpos) h4 hsmall, hinit,
    rotate_rotate, Nat.add_comm]

theorem agrees_of_small (hoff : off < max) (hpos : pos < max) (h4 : 4 ≤ max.toNat)
    (hsmall : max.toNat + 4 ≤ 2 ^ 31) (hsum : off.toNat + max.toNat ≤ 2 ^ 31) :
    Agrees max off pos shuffle := by
  intro k
  have hg := Uni.init_valid hoff hpos shuffle
  have hprime : 0 < (Uni.init max off pos shuffle).prime.toNat := Uni.init_prime_pos (by omega)
  obtain ⟨r, hr, hlanes⟩ := fourCalls_eq hg k
  obtain ⟨res, hres⟩ := exists_nthCall hg init_matches hprime h4 hsmall
    (fun j => by rw [init_curPos hpos (by omega) j]; exact rotate_lt hpos) k
  rw [hres, hr, Option.some.injEq, lane_ext_iff]
  intro j
  apply BitVec.eq_of_toNat_eq
  have hlt : rotate max.toNat pos.toNat (4 * k + j.val) < max.toNat := rotate_lt hpos
  obtain ⟨x, hx, hlane⟩ := nthCall_lane hg init_matches hprime (by show max.toNat < _; omega) hres
    (small_lanes hpos h4 hsmall k j) hlt
  have hxlt : x.toNat < max.toNat := by
    rw [hx]
    exact hg.residueMap_lt hlt
  rw [hlane, hlanes j, signedOffset_of_small (by show 0 < max.toNat; omega)
    (by show max.toNat < _; omega) (by show x.toNat + off.toNat < _; omega), hx]
  rfl

/-- The sum `2^31` is taken for `-2^31`, which has another remainder. -/
theorem not_agrees_of_sum (hoff : off < max) (hpos : pos < max) (h4 : 4 ≤ max.toNat)
    (hsmall : max.toNat + 4 ≤ 2 ^ 31) (hsum : 2 ^ 31 < off.toNat + max.toNat) :
    ¬ Agrees max off pos shuffle := by
  intro h
  have hg := Uni.init_valid hoff hpos shuffle
  have hoff' : off.toNat < max.toNat := hoff
  -- the position whose residue completes the offset to `2^31`
  obtain ⟨q, hq, hres⟩ := hg.residueMap_surjOn
    (show 2 ^ 31 - off.toNat < max.toNat by omega)
  obtain ⟨k, j, hkj⟩ := exists_lane (show pos.toNat < max.toNat from hpos) hq
  obtain ⟨x, hx, heq⟩ := h.lane hoff hpos (by omega) (by omega)
    (small_lanes hpos h4 hsmall k j) (rotate_lt hpos)
  rw [hkj, hres] at hx
  rw [hkj, hres] at heq
  have hlarge := signedOffset_of_large (g := Uni.init max off pos shuffle) (x := x)
    (by show 0 < max.toNat; omega) (by show max.toNat < _; omega)
    (by show _ ≤ x.toNat + off.toNat; omega) (by show x.toNat + off.toNat < _; omega)
  have hscalar : Uni.offsetMap (Uni.init max off pos shuffle) (2 ^ 31 - off.toNat) =
      2 ^ 31 - max.toNat := by
    rw [Uni.offsetMap_of_lt (by show 2 ^ 31 - off.toNat + off.toNat < _; omega)]
    show (2 ^ 31 - off.toNat + off.toNat) % max.toNat = _
    rw [Nat.sub_add_cancel (by omega), Nat.mod_eq_sub_mod (by omega), Nat.mod_eq_of_lt (by omega)]
  have hvector : ((x.toNat + off.toNat : Nat) - 2 ^ 32 : Int) % max.toNat =
      2 * max.toNat - 2 ^ 31 := by
    have hflip : ((x.toNat + off.toNat : Nat) - 2 ^ 32 : Int) =
        (2 * max.toNat - 2 ^ 31) + max.toNat * (-2) := by omega
    rw [hflip, Int.add_mul_emod_self_left, Int.emod_eq_of_lt (by omega) (by omega)]
  have hlarge : ((signedOffset (Uni.init max off pos shuffle) x).toNat : Int) =
      2 * max.toNat - 2 ^ 31 := hlarge.trans hvector
  omega

/-! ## A `_max` just below `2^31` -/

/-- A lane before the end of its first turn. -/
theorem toNat_iterate_first {c : BitVec 32} (h4 : 4 ≤ max.toNat) (hsmall : max.toNat < 2 ^ 31)
    (k : Nat) (hk : c.toNat + 4 * k < max.toNat) :
    ((stepLane max)^[k] c).toNat = c.toNat + 4 * k := by
  induction k with
  | zero => rfl
  | succ k ih =>
    have hprev := ih (by omega)
    rw [Function.iterate_succ_apply', toNat_stepLane (by omega) h4 hsmall (by omega), hprev]
    unfold rotate
    rw [Nat.mod_eq_of_lt (by omega)]
    omega

/-- From the last position, a lane is not reduced: it runs through the
words that count as negative. -/
theorem toNat_iterate_last {c : BitVec 32} (hlow : 2 ^ 31 ≤ max.toNat + 3)
    (hsmall : max.toNat < 2 ^ 31) (hc : c.toNat = max.toNat - 1) (n : Nat)
    (hn : n ≤ 2 ^ 29 + 1) :
    ((stepLane max)^[n] c).toNat = (max.toNat - 1 + 4 * n) % 2 ^ 32 := by
  have hone : (max - 1).toNat = max.toNat - 1 :=
    Word.toNat_sub_of_le (by rw [BitVec.le_def]; show 1 ≤ max.toNat; omega)
  induction n with
  | zero =>
    rw [Function.iterate_zero_apply, hc]
    omega
  | succ n ih =>
    have hprev := ih (by omega)
    rw [Function.iterate_succ_apply']
    generalize (stepLane max)^[n] c = d at hprev
    have hadd : (d + 4).toNat = (max.toNat - 1 + 4 * (n + 1)) % 2 ^ 32 := by
      rw [BitVec.toNat_add, hprev]
      show ((max.toNat - 1 + 4 * n) % 2 ^ 32 + 4) % 2 ^ 32 = _
      omega
    have hslt : (max - 1).slt (d + 4) = false := by
      by_cases hd : (d + 4).toNat < 2 ^ 31
      · rw [Bool.eq_false_iff, ne_eq, slt_iff_of_small (by omega) hd, hone]
        omega
      · exact slt_of_large (by omega) (by omega)
    unfold stepLane
    rw [hslt, if_neg (by simp), hadd]

/-- Two sums that differ by a little have two remainders, also after one of
them has wrapped. -/
theorem not_modEq_of_near {M u v : Int} (hlow : 2 ^ 31 - 3 ≤ M) (hM : M < 2 ^ 31)
    (hlt : u + 12 ≤ v) (hle : v ≤ u + 36) :
    u % M ≠ v % M ∧ (u - 2 ^ 32) % M ≠ v % M := by
  constructor
  · intro h
    have hdvd : M ∣ v - u := Int.ModEq.dvd h
    have := Int.le_of_dvd (by omega) hdvd
    omega
  · intro h
    have hdvd : M ∣ v - (u - 2 ^ 32) := Int.ModEq.dvd h
    -- `2^32` is twice `M` and a little more
    have hrest : M ∣ v - (u - 2 ^ 32) - M * 2 := Int.dvd_sub hdvd (Int.dvd_mul_right M 2)
    have := Int.le_of_dvd (by omega) hrest
    omega

/-- Once around the words, some lane is behind the scalar position by twice
what `_max` lacks to `2^31`. -/
theorem exists_late_lane (off : BitVec 32) (shuffle : Shuffle (BitVec 32)) (hpos : pos < max)
    (hlow : 2 ^ 31 ≤ max.toNat + 3) (hsmall : max.toNat < 2 ^ 31) :
    ∃ k, ∃ j : Fin 4,
      ((stepLane max)^[k] ((init max off pos shuffle).curPos.lane j)).toNat =
          max.toNat + 3 - 2 ^ 31 ∧
        rotate max.toNat pos.toNat (4 * k + j.val) = 2 ^ 31 + 3 - max.toNat := by
  have hpos' : pos.toNat < max.toNat := hpos
  -- the lane that meets the last position, in its first turn
  obtain ⟨k, j, hk⟩ : ∃ k, ∃ j : Fin 4, pos.toNat + j.val + 4 * k = max.toNat - 1 :=
    ⟨(max.toNat - 1 - pos.toNat) / 4, ⟨(max.toNat - 1 - pos.toNat) % 4, by omega⟩, by
      show pos.toNat + (max.toNat - 1 - pos.toNat) % 4 + 4 * ((max.toNat - 1 - pos.toNat) / 4) = _
      omega⟩
  have hstart : ((init max off pos shuffle).curPos.lane j).toNat = pos.toNat + j.val := by
    rw [init_curPos hpos hsmall]
    exact Nat.mod_eq_of_lt (by omega)
  have hlast : ((stepLane max)^[k] ((init max off pos shuffle).curPos.lane j)).toNat =
      max.toNat - 1 := by
    rw [toNat_iterate_first (by omega) hsmall k (by omega), hstart, hk]
  refine ⟨2 ^ 29 + 1 + k, j, ?_, ?_⟩
  · rw [Function.iterate_add_apply, toNat_iterate_last hlow hsmall hlast _ (le_refl _)]
    omega
  · have hsum : pos.toNat + (4 * (2 ^ 29 + 1 + k) + j.val) =
        2 ^ 31 + 3 - max.toNat + max.toNat * 2 := by omega
    unfold rotate
    rw [hsum, Nat.add_mul_mod_self_left, Nat.mod_eq_of_lt (by omega)]

/-- At such a lane the two squares are small and differ by a little. -/
theorem not_agrees_of_near (hoff : off < max) (hpos : pos < max)
    (hlow : 2 ^ 31 ≤ max.toNat + 3) (hsmall : max.toNat < 2 ^ 31) :
    ¬ Agrees max off pos shuffle := by
  intro h
  have hoff' : off.toNat < max.toNat := hoff
  have hprime : 79 ≤ (Uni.init max off pos shuffle).prime.toNat :=
    le_findPreviousMatchingPrime (by omega) (by norm_num) (by omega)
      (show 79 ≤ max.toNat by omega)
  have hsquare : ∀ v, v ≤ 6 →
      Uni.residueMap (Uni.init max off pos shuffle) v = v * v := by
    intro v hv
    have hv2 : v * v ≤ 36 := Nat.mul_le_mul hv hv
    exact Uni.residueMap_of_sq_lt (by omega) (by omega)
  obtain ⟨k, j, hlate, hscalar⟩ := exists_late_lane off shuffle hpos hlow hsmall
  obtain ⟨x, hx, heq⟩ := h.lane hoff hpos (by omega) hsmall hlate (by omega)
  rw [hscalar, hsquare _ (by omega)] at heq
  rw [hsquare _ (by omega)] at hx
  have hdiff : x.toNat + 12 ≤ (2 ^ 31 + 3 - max.toNat) * (2 ^ 31 + 3 - max.toNat) ∧
      (2 ^ 31 + 3 - max.toNat) * (2 ^ 31 + 3 - max.toNat) ≤ x.toNat + 36 ∧ x.toNat ≤ 4 := by
    obtain hM | hM | hM : max.toNat = 2 ^ 31 - 3 ∨ max.toNat = 2 ^ 31 - 2 ∨
        max.toNat = 2 ^ 31 - 1 := by omega
    · rw [hx, hM]
      omega
    · rw [hx, hM]
      omega
    · rw [hx, hM]
      omega
  generalize (2 ^ 31 + 3 - max.toNat) * (2 ^ 31 + 3 - max.toNat) = y at heq hdiff
  obtain ⟨hne, hneWrapped⟩ := not_modEq_of_near (M := max.toNat)
    (u := (x.toNat + off.toNat : Nat)) (v := (y + off.toNat : Nat))
    (by omega) (by omega) (by omega) (by omega)
  rw [Uni.offsetMap_of_lt (by show y + off.toNat < _; omega)] at heq
  by_cases hsum : x.toNat + off.toNat < 2 ^ 31
  · rw [signedOffset_of_small (by show 0 < max.toNat; omega) hsmall hsum,
      Uni.offsetMap_of_lt (by show x.toNat + off.toNat < _; omega)] at heq
    exact hne (by exact_mod_cast heq)
  · have hlarge := signedOffset_of_large (g := Uni.init max off pos shuffle) (x := x)
      (by show 0 < max.toNat; omega) hsmall (by show _ ≤ x.toNat + off.toNat; omega)
      (by show x.toNat + off.toNat < _; omega)
    rw [heq] at hlarge
    exact hneWrapped (by rw [← Int.natCast_emod]; exact hlarge.symm)

/-! ## A `_max` that counts as negative -/

/-- A lane between a negative `_max` and zero is 0, or above `_max` as a
word. -/
theorem eq_zero_or_lt_of_nonpos {m a : BitVec 32} (hm : 2 ^ 31 ≤ m.toNat)
    (hlow : m.toInt < a.toInt) (hhigh : a.toInt ≤ 0) :
    a.toNat = 0 ∨ m.toNat < a.toNat := by
  rw [BitVec.toInt_eq_toNat_cond, if_neg (by omega), BitVec.toInt_eq_toNat_cond] at hlow
  rw [BitVec.toInt_eq_toNat_cond] at hhigh
  by_cases hneg : 2 * a.toNat < 2 ^ 32
  · rw [if_pos hneg] at hhigh
    omega
  · rw [if_neg hneg] at hlow
    right
    omega

/-- A prime that is positive as a lane: such lanes are squared without the
complement. -/
theorem residue_lt_of_nonpos (hs : Matches s g) (hp : 0 < g.prime.toNat)
    (hprime : g.prime.toNat < 2 ^ 31) {w r : M128i} (hw : ∀ j, (w.lane j).toInt ≤ 0)
    (h : s.residue w = some r) (j : Fin 4) : (r.lane j).toNat < g.prime.toNat := by
  have hone : (g.prime - 1).toNat = g.prime.toNat - 1 :=
    Word.toNat_sub_of_le (by rw [BitVec.le_def]; exact hp)
  have htable : ∀ i, s.table (w.lane i) = false := by
    intro i
    unfold table
    rw [hs.prime, Bool.eq_false_iff, ne_eq, BitVec.slt_iff_toInt_lt,
      BitVec.toInt_eq_toNat_of_lt (by omega)]
    have := hw i
    omega
  rw [residue_of_table_eq_false htable, Option.some.injEq] at h
  rw [← h, lane_residuePairs, hs.prime, toNat_pairLane hp]
  by_cases hsmall : (w.lane j).toNat < 2 ^ 31
  · have hzero : (w.lane j).toNat = 0 := by
      have := hw j
      rw [BitVec.toInt_eq_toNat_of_lt (by omega)] at this
      omega
    rw [if_pos hsmall, hzero]
    simpa [permute] using hp
  · rw [if_neg hsmall]
    exact Nat.mod_lt _ hp

/-- A prime that is negative as a lane: such lanes are looked up outside of
the table. -/
theorem residue_eq_none_of_nonpos (hg : Uni.Valid g) (hs : Matches s g)
    (hprime : 2 ^ 31 ≤ g.prime.toNat) {w : M128i}
    (hw : ∀ j, g.max.toInt < (w.lane j).toInt ∧ (w.lane j).toInt ≤ 0) :
    s.residue w = none := by
  obtain h0 | ⟨hle, _, h3⟩ := hg.prime
  · omega
  have hone : (g.prime - 1).toNat = g.prime.toNat - 1 :=
    Word.toNat_sub_of_le (by rw [BitVec.le_def]; show 1 ≤ g.prime.toNat; omega)
  have hmaxword := g.max.isLt
  have hcase := eq_zero_or_lt_of_nonpos (by omega) (hw 0).1 (hw 0).2
  have htable : s.table (w.lane 0) = true := by
    unfold table
    rw [hs.prime, BitVec.slt_iff_toInt_lt, BitVec.toInt_eq_toNat_cond, if_neg (by omega), hone]
    have := (hw 0).1
    rw [BitVec.toInt_eq_toNat_cond, if_neg (by omega)] at this
    omega
  rw [Option.eq_none_iff_forall_ne_some]
  intro r h
  rw [residue_of_table htable, residueEach_eq_some_iff] at h
  have hlane := h 0
  rw [lane_cmpgtEpi32, lane_subEpi32, lane_set1Epi32, lane_set1Epi32] at hlane
  unfold table at htable
  unfold iter at hlane
  rw [htable] at hlane
  simp only at hlane
  rw [if_pos (by decide)] at hlane
  have hidx := (List.getElem?_eq_some_iff.mp hlane).1
  have hlen := hg.length_remPerm
  rw [hs.remPerm, hlen, hs.prime, BitVec.toNat_sub] at hidx
  simp only [BitVec.toNat_setWidth] at hidx
  have hword := (w.lane 0).isLt
  obtain hzero | habove := hcase
  · omega
  · omega

/-- Lanes between a negative `_max` and zero never need the complement,
and leave the table. -/
theorem residue_of_nonpos (hg : Uni.Valid g) (hs : Matches s g) (hp : 0 < g.prime.toNat)
    {w r : M128i} (hw : ∀ j, g.max.toInt < (w.lane j).toInt ∧ (w.lane j).toInt ≤ 0)
    (h : s.residue w = some r) :
    g.prime.toNat < 2 ^ 31 ∧ ∀ j, (r.lane j).toNat < g.prime.toNat := by
  by_cases hprime : g.prime.toNat < 2 ^ 31
  · exact ⟨hprime, residue_lt_of_nonpos hs hp hprime (fun j => (hw j).2) h⟩
  · rw [residue_eq_none_of_nonpos hg hs (by omega) hw] at h
    cases h

theorem not_agrees_of_large (hoff : off < max) (hpos : pos < max) (hlarge : 2 ^ 31 ≤ max.toNat) :
    ¬ Agrees max off pos shuffle := by
  intro h
  have hg := Uni.init_valid hoff hpos shuffle
  have hprime : 0 < (Uni.init max off pos shuffle).prime.toNat := Uni.init_prime_pos (by omega)
  have hoff' : off.toNat < max.toNat := hoff
  -- every output of a lane is below the prime
  have hlanes : ∀ k r, (Uni.init max off pos shuffle).fourCalls k = some r →
      (Uni.init max off pos shuffle).prime.toNat < 2 ^ 31 ∧
        ∀ j, (r.lane j).toNat < (Uni.init max off pos shuffle).prime.toNat := by
    intro k r hr
    obtain ⟨c, v, _, _, hres⟩ := nthCall_eq_some init_matches ((h k).trans hr)
    refine residue_of_nonpos hg init_matches hprime ?_ hres
    intro j
    rw [lane_uremEpi32, init_matches.max, lane_set1Epi32]
    apply toInt_uremLane_of_neg
    rw [BitVec.toInt_eq_toNat_cond, if_neg (by show ¬ 2 * max.toNat < 2 ^ 32; omega)]
    have := (Uni.init max off pos shuffle).max.isLt
    omega
  obtain ⟨r0, hr0, _⟩ := fourCalls_eq hg 0
  have hprime31 := (hlanes 0 r0 hr0).1
  -- the scalar outputs also fill the table
  obtain ⟨q, hq, hres⟩ := hg.residueMap_surjOn (show max.toNat - 1 - off.toNat < max.toNat by omega)
  have hoffset : Uni.offsetMap (Uni.init max off pos shuffle) (max.toNat - 1 - off.toNat) =
      max.toNat - 1 := by
    have hword := max.isLt
    rw [Uni.offsetMap_of_lt (by show max.toNat - 1 - off.toNat + off.toNat < _; omega)]
    show (max.toNat - 1 - off.toNat + off.toNat) % max.toNat = _
    rw [Nat.sub_add_cancel (by omega), Nat.mod_eq_of_lt (by omega)]
  obtain ⟨k, j, hkj⟩ := exists_lane (show pos.toNat < max.toNat from hpos) hq
  obtain ⟨r, hr, hout⟩ := fourCalls_eq hg k
  have hlt := (hlanes k r hr).2 j
  have htop := hout j
  rw [show rotate (Uni.init max off pos shuffle).max.toNat
    (Uni.init max off pos shuffle).curPos.toNat (4 * k + j.val) = q from hkj] at htop
  unfold Uni.outputMap at htop
  rw [hres, hoffset] at htop
  obtain ⟨x, hx, hge, _⟩ := hg.remPerm_getElem? (v := max.toNat - 1) (by omega)
    (by show max.toNat - 1 < max.toNat; omega)
  unfold Uni.residueMap at htop
  rw [if_pos (by omega), hx, Option.getD_some] at htop
  omega

end Init

end UniSse

open UniSse in
/-- **The vector generator.** With the same parameters, every call of
`uni<__m128i>` returns the next four outputs of `uni<uint32_t>` in lane
order exactly when `max` is at most `2^31 - 4` and no offset sum reaches
`2^31`. -/
theorem nthCall_sse_iff (max off pos : BitVec 32) (shuffle : Shuffle (BitVec 32))
    (h4 : 4 ≤ max) (hoff : off < max) (hpos : pos < max) :
    (∀ k, (init max off pos shuffle).nthCall k = (Uni.init max off pos shuffle).fourCalls k) ↔
      max.toNat + 4 ≤ 2 ^ 31 ∧ off.toNat + max.toNat ≤ 2 ^ 31 := by
  have h4' : 4 ≤ max.toNat := h4
  constructor
  · intro h
    by_cases hlarge : 2 ^ 31 ≤ max.toNat
    · exact absurd h (not_agrees_of_large hoff hpos hlarge)
    · by_cases hnear : 2 ^ 31 ≤ max.toNat + 3
      · exact absurd h (not_agrees_of_near hoff hpos hnear (by omega))
      · by_cases hsum : 2 ^ 31 < off.toNat + max.toNat
        · exact absurd h (not_agrees_of_sum hoff hpos h4' (by omega) hsum)
        · omega
  · rintro ⟨hsmall, hsum⟩
    exact agrees_of_small hoff hpos h4' hsmall hsum

open UniSse in
theorem nthCall_sse_twenty :
    (∀ k, (init 20 7 13 (Shuffle.id _)).nthCall k =
        (Uni.init 20 7 13 (Shuffle.id _)).fourCalls k) ↔
      (20 : BitVec 32).toNat + 4 ≤ 2 ^ 31 ∧
        (7 : BitVec 32).toNat + (20 : BitVec 32).toNat ≤ 2 ^ 31 :=
  nthCall_sse_iff 20 7 13 (Shuffle.id _) (by decide) (by decide) (by decide)

open UniSse in
/-- At `max = 2^31`, the largest power of two, the lanes leave the scalar
outputs. -/
theorem nthCall_sse_ne :
    ¬ ∀ k, (init 0x80000000 0 0 (Shuffle.id _)).nthCall k =
      (Uni.init 0x80000000 0 0 (Shuffle.id _)).fourCalls k :=
  not_agrees_of_large (by decide) (by decide) (by decide)

end Leeloo
