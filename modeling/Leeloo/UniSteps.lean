/-
Leeloo.UniSteps — the residue map, `get_step` and the atomic counter of
`uni<uint32_t>`.

`get_step` adds its argument to the position in 32 bits, and the atomic
`pos_increment` lets the position run through all 32-bit words. Both take
the sum modulo `_max` after it has wrapped, so they leave the sequence of
`operator()` as soon as a position passes `2^32`, unless `_max` divides
`2^32`.
-/
import Leeloo.Uni

namespace Leeloo

open RangePerm

/-- `pos_increment` on a `tbb::atomic`: `fetch_and_increment() % max`. -/
def posIncrementAtomic (i max : BitVec 32) : BitVec 32 × BitVec 32 := (i % max, i + 1)

namespace Uni

/-- `operator()` of `uni<uint32_t, true>`. -/
def nextAtomic (g : Uni) : Option (BitVec 32 × Uni) := do
  let (pos, curPos) := posIncrementAtomic g.curPos g.max
  let r ← g.residue pos
  let res ← g.residue ((r + g.intermediateOff) % g.max)
  some (res, { g with curPos })

/-- What call number `k` of `operator()` returns, the first call being
number 0. -/
def nthCall (g : Uni) : Nat → Option (BitVec 32)
  | 0 => g.next.map Prod.fst
  | k + 1 => g.next.bind fun r => nthCall r.2 k

/-- The same for `uni<uint32_t, true>`. -/
def nthCallAtomic (g : Uni) : Nat → Option (BitVec 32)
  | 0 => g.nextAtomic.map Prod.fst
  | k + 1 => g.nextAtomic.bind fun r => nthCallAtomic r.2 k

/-! ## The residue map -/

/-- Every integer below `max` is a residue. -/
theorem Valid.residueMap_surjOn {g : Uni} (hg : Valid g) :
    Set.SurjOn (residueMap g) (Set.Iio g.max.toNat) (Set.Iio g.max.toNat) :=
  surjOn_of_injOn (fun _ hv => hg.residueMap_lt hv) hg.residueMap_injOn

/-- What `residue` needs of a generator, whatever its offset and position. -/
theorem valid_of_table {g : Uni} (hmax : 0 < g.max)
    (hprime : g.prime = findPreviousMatchingPrime g.max)
    (hrem : (g.remPerm.map BitVec.toNat).Perm
      (List.range' g.prime.toNat (g.max.toNat - g.prime.toNat))) :
    Valid { g with intermediateOff := 0, curPos := 0 } where
  off_lt := hmax
  pos_lt := hmax
  prime := by
    have hspec := findPreviousMatchingPrime_spec (by omega) (v := g.max) hmax
    rwa [← hprime] at hspec
  remPerm := hrem

end Uni

open Uni in
/-- **The residue map is a bijection.** With the prime that `init_prime`
finds and a table that permutes `[prime, max)`, `residue` maps `[0, max)`
one-to-one onto `[0, max)`, and reads the table inside its bounds. -/
theorem residue_bijOn (g : Uni) (hmax : 1 ≤ g.max)
    (hprime : g.prime = findPreviousMatchingPrime g.max)
    (hrem : (g.remPerm.map BitVec.toNat).Perm
      (List.range' g.prime.toNat (g.max.toNat - g.prime.toNat))) :
    Set.BijOn g.residue (Set.Iio g.max) (some '' Set.Iio g.max) ∧
      ∀ v < g.max, g.prime ≤ v → (v - g.prime).toNat < g.remPerm.length := by
  have hg := valid_of_table hmax hprime hrem
  have hres : ∀ v < g.max, g.residue v = some (BitVec.ofNat 32 (residueMap g v.toNat)) :=
    fun v hv => hg.residue_eq hv
  have hword : ∀ v < g.max, (BitVec.ofNat 32 (residueMap g v.toNat)).toNat =
      residueMap g v.toNat := by
    intro v hv
    have hlt : residueMap g v.toNat < g.max.toNat := hg.residueMap_lt hv
    have hmax := g.max.isLt
    rw [BitVec.toNat_ofNat, Nat.mod_eq_of_lt (by omega)]
  have hbij := bijOn_words hword (fun i hi => hg.residueMap_lt hi) hg.residueMap_injOn
  have hsome : Set.BijOn some (Set.Iio g.max) (some '' Set.Iio g.max) :=
    (Option.some_injective _).injOn.bijOn_image
  refine ⟨(hsome.comp hbij).congr fun v hv => (hres v hv).symm, ?_⟩
  intro v hv hp
  have hlen : g.remPerm.length = g.max.toNat - g.prime.toNat := hg.length_remPerm
  have hv : v.toNat < g.max.toNat := hv
  have hp' : g.prime.toNat ≤ v.toNat := hp
  rw [Word.toNat_sub_of_le hp, hlen]
  omega

open Uni in
theorem residue_bijOn_twenty :
    Set.BijOn (init 20 7 13 (Shuffle.id _)).residue (Set.Iio 20) (some '' Set.Iio 20) ∧
      ∀ v < 20, (init 20 7 13 (Shuffle.id _)).prime ≤ v →
        (v - (init 20 7 13 (Shuffle.id _)).prime).toNat <
          (init 20 7 13 (Shuffle.id _)).remPerm.length :=
  residue_bijOn (init 20 7 13 (Shuffle.id _)) (by decide) rfl
    (init_valid (by decide) (by decide) _).remPerm

namespace Uni

/-! ## Outputs by number -/

/-- Call number `k` reads the output map at the position reached. -/
theorem nthCall_eq {g : Uni} (hg : Valid g) (k : Nat) :
    g.nthCall k =
      some (BitVec.ofNat 32 (outputMap g (rotate g.max.toNat g.curPos.toNat k))) := by
  induction k generalizing g with
  | zero =>
    unfold nthCall rotate
    rw [next_eq hg, Nat.add_zero, Nat.mod_eq_of_lt hg.pos_lt]
    rfl
  | succ k ih =>
    have hpos := toNat_posIncrement hg.pos_lt
    have hg' : Valid { g with curPos := (posIncrement g.curPos g.max).2 } :=
      hg.movePos (by rw [hpos]; exact rotate_lt hg.pos_lt)
    unfold nthCall
    rw [next_eq hg, Option.bind_some, ih hg', hpos, rotate_rotate, Nat.add_comm 1 k]
    rfl

/-- One call of the atomic generator, at any position. -/
theorem nextAtomic_eq {g : Uni} (hg : Valid g) (pos : BitVec 32) :
    { g with curPos := pos }.nextAtomic =
      some (BitVec.ofNat 32 (outputMap g (pos.toNat % g.max.toNat)),
        { g with curPos := pos + 1 }) := by
  have hmod : (pos % g.max).toNat = pos.toNat % g.max.toNat := BitVec.toNat_umod
  have hout := output_eq hg (pos % g.max)
    (by rw [hmod]; exact Nat.mod_lt _ (by have := hg.off_lt; omega))
  rw [hmod] at hout
  unfold nextAtomic
  simp only [posIncrementAtomic, Option.bind_eq_bind]
  rw [← Option.bind_assoc]
  show ((g.residue (pos % g.max)).bind
    (fun r => g.residue ((r + g.intermediateOff) % g.max))).bind _ = _
  rw [hout]
  rfl

/-- The position of the atomic generator runs through all words. -/
theorem nthCallAtomic_eq {g : Uni} (hg : Valid g) (pos : BitVec 32) (k : Nat) :
    { g with curPos := pos }.nthCallAtomic k =
      some (BitVec.ofNat 32 (outputMap g ((pos.toNat + k) % 2 ^ 32 % g.max.toNat))) := by
  induction k generalizing pos with
  | zero =>
    unfold nthCallAtomic
    rw [nextAtomic_eq hg, Nat.add_zero, Nat.mod_eq_of_lt pos.isLt]
    rfl
  | succ k ih =>
    have hstep : ((pos + 1).toNat + k) % 2 ^ 32 = (pos.toNat + (k + 1)) % 2 ^ 32 := by
      rw [BitVec.toNat_add, Nat.mod_add_mod, Nat.add_assoc, Nat.add_comm k 1]
      rfl
    unfold nthCallAtomic
    rw [nextAtomic_eq hg, Option.bind_some, ih (pos + 1), hstep]

/-- `get_step` at any step. -/
theorem getStep_eq_wrapped {g : Uni} (hg : Valid g) (step : BitVec 32) :
    g.getStep step =
      some (BitVec.ofNat 32
        (outputMap g ((g.curPos.toNat + step.toNat) % 2 ^ 32 % g.max.toNat))) := by
  have hpos : ((g.curPos + step) % g.max).toNat =
      (g.curPos.toNat + step.toNat) % 2 ^ 32 % g.max.toNat := by
    rw [BitVec.toNat_umod, BitVec.toNat_add]
  have hout := output_eq hg ((g.curPos + step) % g.max)
    (by rw [hpos]; exact Nat.mod_lt _ (by have := hg.off_lt; omega))
  rw [hpos] at hout
  exact hout

/-! ## Where position 0 is alone -/

/-- Only a residue 0 goes to the offset itself. -/
theorem offsetMap_eq_off {g : Uni} (hg : Valid g) {x : Nat} (hx : x < g.max.toNat)
    (h : offsetMap g x = g.intermediateOff.toNat) : x = 0 := by
  have hoff := hg.off_lt
  have hmax := g.max.isLt
  unfold offsetMap at h
  by_cases hword : x + g.intermediateOff.toNat < 2 ^ 32
  · rw [Nat.mod_eq_of_lt hword] at h
    by_cases hlt : x + g.intermediateOff.toNat < g.max.toNat
    · rw [Nat.mod_eq_of_lt hlt] at h
      omega
    · rw [Nat.mod_eq_sub_mod (by omega), Nat.mod_eq_of_lt (by omega)] at h
      omega
  · have hwrap : (x + g.intermediateOff.toNat) % 2 ^ 32 =
        x + g.intermediateOff.toNat - 2 ^ 32 := by omega
    rw [hwrap, Nat.mod_eq_of_lt (by omega)] at h
    omega

/-- With a prime, no other position gives the output of position 0, even
where the offset sums wrap. -/
theorem outputMap_eq_zero {g : Uni} (hg : Valid g) (hprime : 0 < g.prime.toNat) {q : Nat}
    (hq : q < g.max.toNat) (h : outputMap g q = outputMap g 0) : q = 0 := by
  have hoff := hg.off_lt
  have hzero : residueMap g 0 = 0 := by
    unfold residueMap QuadraticResidue.permute
    simp [Nat.not_le.mpr hprime]
  have hoffZero : offsetMap g 0 = g.intermediateOff.toNat := by
    unfold offsetMap
    rw [Nat.zero_add, Nat.mod_eq_of_lt g.intermediateOff.isLt, Nat.mod_eq_of_lt hoff]
  have hres : offsetMap g (residueMap g q) = offsetMap g (residueMap g 0) :=
    hg.residueMap_injOn (offsetMap_lt hg _) (offsetMap_lt hg _) h
  rw [hzero, hoffZero] at hres
  have hq0 : residueMap g q = residueMap g 0 := by
    rw [hzero]
    exact offsetMap_eq_off hg (hg.residueMap_lt hq) hres
  exact hg.residueMap_injOn hq (show 0 < g.max.toNat by omega) hq0

theorem reachable_prime {g g' : Uni} (hg : Valid g) (h : Reachable g g') :
    g'.prime = g.prime := by
  induction h with
  | init => rfl
  | next hreach hnext ih =>
    rw [next_eq (reachable_valid hg hreach)] at hnext
    cases hnext
    exact ih

/-- A generator of at least 3 integers has a prime. -/
theorem init_prime_pos {max off pos : BitVec 32} {shuffle : Shuffle (BitVec 32)}
    (hmax : 3 ≤ max.toNat) : 0 < (init max off pos shuffle).prime.toNat := by
  have := le_findPreviousMatchingPrime (w := 32) (by omega) Nat.prime_three (by omega) hmax
  show 0 < (findPreviousMatchingPrime max).toNat
  omega

/-- Two outputs agree as words when they agree as numbers. -/
theorem ofNat_outputMap_inj {g : Uni} (hg : Valid g) {p q : Nat} :
    some (BitVec.ofNat 32 (outputMap g p)) = some (BitVec.ofNat 32 (outputMap g q)) ↔
      outputMap g p = outputMap g q := by
  have hp := outputMap_lt hg p
  have hq := outputMap_lt hg q
  have hmax := g.max.isLt
  simp only [Option.some.injEq, BitVec.toNat_eq, BitVec.toNat_ofNat]
  rw [Nat.mod_eq_of_lt (by omega), Nat.mod_eq_of_lt (by omega)]

/-- The first position past the words is position 0 again only when `max`
divides `2^32`. -/
theorem dvd_of_outputMap_eq {max off pos : BitVec 32} {shuffle : Shuffle (BitVec 32)} {g : Uni}
    (hoff : off < max) (hpos : pos < max) (hreach : Reachable (init max off pos shuffle) g)
    (h : outputMap g 0 = outputMap g (2 ^ 32 % max.toNat)) : max.toNat ∣ 2 ^ 32 := by
  have hinit := init_valid hoff hpos shuffle
  have hg := reachable_valid hinit hreach
  have hmaxeq : g.max = max := (reachable_params hinit hreach).1
  have hlt : off.toNat < max.toNat := hoff
  by_cases h3 : 3 ≤ max.toNat
  · have hprime : 0 < g.prime.toNat := by
      rw [reachable_prime hinit hreach]
      exact init_prime_pos h3
    have hmod : 2 ^ 32 % max.toNat < g.max.toNat := by
      rw [hmaxeq]
      exact Nat.mod_lt _ (by omega)
    exact Nat.dvd_of_mod_eq_zero (outputMap_eq_zero hg hprime hmod h.symm)
  · have hsmall : max.toNat = 1 ∨ max.toNat = 2 := by omega
    obtain h1 | h2 := hsmall
    · rw [h1]
      exact Nat.one_dvd _
    · rw [h2]
      exact Nat.dvd_of_mod_eq_zero (by omega)

end Uni

/-! ## `get_step` and the calls -/

open Uni in
/-- **Random access in `uni`.** From any state that calls can reach,
`get_step(k)` is what the call number `k` from there returns, as long as
the position plus `k` fits in 32 bits. It is so for every `k` below `max`
exactly when the position plus `max` is at most `2^32`. -/
theorem getStep_nthCall_iff (max off pos : BitVec 32) (shuffle : Shuffle (BitVec 32)) (g : Uni)
    (hoff : off < max) (hpos : pos < max) (hg : Reachable (init max off pos shuffle) g) :
    (∀ k < max, g.curPos.toNat + k.toNat < 2 ^ 32 → g.getStep k = g.nthCall k.toNat) ∧
      ((∀ k < max, g.getStep k = g.nthCall k.toNat) ↔
        g.curPos.toNat + max.toNat ≤ 2 ^ 32) := by
  have hinit := init_valid hoff hpos shuffle
  have hvalid := reachable_valid hinit hg
  have hmaxeq : g.max = max := (reachable_params hinit hg).1
  have hcur : g.curPos.toNat < max.toNat := hmaxeq ▸ hvalid.pos_lt
  have hword := max.isLt
  have hfits : ∀ k : BitVec 32, g.curPos.toNat + k.toNat < 2 ^ 32 →
      g.getStep k = g.nthCall k.toNat := by
    intro k hk
    rw [getStep_eq hvalid k hk, nthCall_eq hvalid]
  refine ⟨fun k _ hk => hfits k hk, ?_, ?_⟩
  · intro h
    by_contra hgt
    -- the step that takes the position to `2^32`
    have hk : (BitVec.ofNat 32 (2 ^ 32 - g.curPos.toNat)).toNat = 2 ^ 32 - g.curPos.toNat := by
      rw [BitVec.toNat_ofNat]
      exact Nat.mod_eq_of_lt (by omega)
    have hstep := h (BitVec.ofNat 32 (2 ^ 32 - g.curPos.toNat))
      (by rw [BitVec.lt_def, hk]; omega)
    rw [getStep_eq_wrapped hvalid, nthCall_eq hvalid, ofNat_outputMap_inj hvalid, hk,
      show g.curPos.toNat + (2 ^ 32 - g.curPos.toNat) = 2 ^ 32 by omega, Nat.mod_self,
      Nat.zero_mod] at hstep
    unfold rotate at hstep
    rw [show g.curPos.toNat + (2 ^ 32 - g.curPos.toNat) = 2 ^ 32 by omega, hmaxeq] at hstep
    obtain ⟨c, hc⟩ := dvd_of_outputMap_eq hoff hpos hg hstep
    have hc2 : c < 2 := by
      by_contra hge
      have := Nat.mul_le_mul_left max.toNat (show 2 ≤ c by omega)
      omega
    have hc01 : c = 0 ∨ c = 1 := by omega
    obtain rfl | rfl := hc01
    · omega
    · omega
  · intro hle k hk
    have hk : k.toNat < max.toNat := hk
    exact hfits k (by omega)

open Uni in
theorem getStep_nthCall_twenty :
    (∀ k < (20 : BitVec 32), (init 20 7 13 (Shuffle.id _)).curPos.toNat + k.toNat < 2 ^ 32 →
        (init 20 7 13 (Shuffle.id _)).getStep k =
          (init 20 7 13 (Shuffle.id _)).nthCall k.toNat) ∧
      ((∀ k < (20 : BitVec 32), (init 20 7 13 (Shuffle.id _)).getStep k =
          (init 20 7 13 (Shuffle.id _)).nthCall k.toNat) ↔
        (init 20 7 13 (Shuffle.id _)).curPos.toNat + (20 : BitVec 32).toNat ≤ 2 ^ 32) :=
  getStep_nthCall_iff 20 7 13 (Shuffle.id _) _ (by decide) (by decide) .init

open Uni in
/-- At the last position below the largest `max`, the sum of `get_step(2)`
wraps to position 0, where the calls go to position 1. -/
theorem getStep_ne_nthCall_largest :
    (init 0xFFFFFFFF 0 0xFFFFFFFE (Shuffle.id _)).getStep 2 ≠
      (init 0xFFFFFFFF 0 0xFFFFFFFE (Shuffle.id _)).nthCall 2 := by
  have hvalid : Valid (init 0xFFFFFFFF 0 0xFFFFFFFE (Shuffle.id _)) :=
    init_valid (by decide) (by decide) _
  intro h
  rw [getStep_eq_wrapped hvalid, nthCall_eq hvalid, ofNat_outputMap_inj hvalid] at h
  have h1 := outputMap_eq_zero hvalid (init_prime_pos (by decide)) (q := 1) (by decide) h.symm
  omega

/-! ## The atomic counter -/

open Uni in
/-- **The atomic counter of `uni`.** From a common state of `init`, the
atomic generator returns what the plain one returns until its position has
run through the words. Every call agrees exactly when `max` is a power of
two. -/
theorem nthCallAtomic_iff (max off pos : BitVec 32) (shuffle : Shuffle (BitVec 32))
    (hoff : off < max) (hpos : pos < max) :
    (∀ k, pos.toNat + k < 2 ^ 32 →
        (init max off pos shuffle).nthCallAtomic k = (init max off pos shuffle).nthCall k) ∧
      ((∀ k, (init max off pos shuffle).nthCallAtomic k = (init max off pos shuffle).nthCall k) ↔
        ∃ j, max.toNat = 2 ^ j) := by
  have hvalid := init_valid hoff hpos shuffle
  have hword := pos.isLt
  have hatomic : ∀ k, (init max off pos shuffle).nthCallAtomic k = _ :=
    nthCallAtomic_eq hvalid pos
  refine ⟨?_, ?_, ?_⟩
  · intro k hk
    rw [hatomic, nthCall_eq hvalid, Nat.mod_eq_of_lt hk]
    rfl
  · intro h
    -- the call at which the atomic position wraps
    have hcall := h (2 ^ 32 - pos.toNat)
    rw [hatomic, nthCall_eq hvalid, ofNat_outputMap_inj hvalid,
      show pos.toNat + (2 ^ 32 - pos.toNat) = 2 ^ 32 by omega, Nat.mod_self, Nat.zero_mod] at hcall
    unfold rotate at hcall
    have hsum : (init max off pos shuffle).curPos.toNat + (2 ^ 32 - pos.toNat) = 2 ^ 32 := by
      show pos.toNat + (2 ^ 32 - pos.toNat) = 2 ^ 32
      omega
    rw [hsum] at hcall
    have hdvd := dvd_of_outputMap_eq hoff hpos .init hcall
    obtain ⟨j, _, hj⟩ := (Nat.dvd_prime_pow Nat.prime_two).mp hdvd
    exact ⟨j, hj⟩
  · rintro ⟨j, hj⟩ k
    have hj32 : j < 32 := by
      apply (Nat.pow_lt_pow_iff_right (a := 2) (by omega)).mp
      rw [← hj]
      exact max.isLt
    have hdvd : (init max off pos shuffle).max.toNat ∣ 2 ^ 32 := by
      show max.toNat ∣ 2 ^ 32
      rw [hj]
      exact Nat.pow_dvd_pow 2 (by omega)
    rw [hatomic, nthCall_eq hvalid, Nat.mod_mod_of_dvd _ hdvd]
    rfl

open Uni in
theorem nthCallAtomic_twenty :
    (∀ k, (13 : BitVec 32).toNat + k < 2 ^ 32 →
        (init 20 7 13 (Shuffle.id _)).nthCallAtomic k =
          (init 20 7 13 (Shuffle.id _)).nthCall k) ∧
      ((∀ k, (init 20 7 13 (Shuffle.id _)).nthCallAtomic k =
          (init 20 7 13 (Shuffle.id _)).nthCall k) ↔
        ∃ j, (20 : BitVec 32).toNat = 2 ^ j) :=
  nthCallAtomic_iff 20 7 13 (Shuffle.id _) (by decide) (by decide)

open Uni in
/-- With `max = 3`, the call at which the atomic position wraps reads
position 0, where the plain one reads position 1. -/
theorem nthCallAtomic_ne_three :
    (init 3 0 0 (Shuffle.id _)).nthCallAtomic (2 ^ 32) ≠
      (init 3 0 0 (Shuffle.id _)).nthCall (2 ^ 32) := by
  have hvalid : Valid (init 3 0 0 (Shuffle.id _)) := init_valid (by decide) (by decide) _
  have hatomic : ∀ k, (init 3 0 0 (Shuffle.id _)).nthCallAtomic k = _ := nthCallAtomic_eq hvalid 0
  intro h
  rw [hatomic, nthCall_eq hvalid, ofNat_outputMap_inj hvalid] at h
  have h1 := outputMap_eq_zero hvalid (init_prime_pos (by decide)) (q := 1) (by decide) h.symm
  omega

end Leeloo
