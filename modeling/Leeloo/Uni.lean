/-
Leeloo.Uni — `uni<uint32_t>` of `uni.h`, the generator of unique random
integers.

The two draws `rand_eng(0, max - 1)` of `init` are arguments, and so is
the order `std::random_shuffle` leaves (`Shuffle`). A function returns
`none` where its `assert` fails or it reads outside `_rem_perm`; both are
excluded from the states `init` can reach (`Valid`).

The integers are 32-bit words, and the sum `residue(pos) +
_intermediate_off` of the source is a 32-bit sum. A sequence of `max`
calls lists `[0, max)` exactly when no such sum can wrap
(`calls_enumerate_iff`).
-/
import Leeloo.Lib.QuadraticResidue
import Leeloo.Lib.RangePerm
import Leeloo.PrimeHelpers

namespace Leeloo

open QuadraticResidue RangePerm

/-- A `std::random_shuffle`, with the draws it makes. -/
structure Shuffle (α : Type*) where
  run : List α → List α
  perm : ∀ l, (run l).Perm l

/-- The shuffle that leaves everything in place. -/
def Shuffle.id (α : Type*) : Shuffle α := ⟨fun l => l, fun l => List.Perm.refl l⟩

/-- The data members of `uni<uint32_t>`. -/
structure Uni where
  prime : BitVec 32
  max : BitVec 32
  intermediateOff : BitVec 32
  remPerm : List (BitVec 32)
  curPos : BitVec 32
  deriving DecidableEq, Repr

/-- `pos_increment`: the value before the increment, and the new one. -/
def posIncrement (i max : BitVec 32) : BitVec 32 × BitVec 32 :=
  let i' := i + 1
  (i, if i' = max then 0 else i')

namespace Uni

/-- `init_final_perm`. -/
def initFinalPerm (shuffle : Shuffle (BitVec 32)) (prime max : BitVec 32) : List (BitVec 32) :=
  let rem := max - prime
  shuffle.run ((List.range rem.toNat).map fun i => prime + BitVec.ofNat 32 i)

/-- `init`, with the two integers it draws. -/
def init (max intermediateOff curPos : BitVec 32) (shuffle : Shuffle (BitVec 32)) : Uni :=
  let prime := findPreviousMatchingPrime max
  { prime, max, intermediateOff, curPos, remPerm := initFinalPerm shuffle prime max }

/-- `residue`, with its `assert(v < _max)`. -/
def residue (g : Uni) (v : BitVec 32) : Option (BitVec 32) :=
  if v < g.max then
    if g.prime ≤ v then g.remPerm[(v - g.prime).toNat]?
    else
      let residue := ((v.setWidth 64 * v.setWidth 64) % g.prime.setWidth 64).setWidth 32
      some (if v ≤ g.prime / 2 then residue else g.prime - residue)
  else none

/-- `operator()`. -/
def next (g : Uni) : Option (BitVec 32 × Uni) := do
  let (pos, curPos) := posIncrement g.curPos g.max
  let r ← g.residue pos
  let res ← g.residue ((r + g.intermediateOff) % g.max)
  some (res, { g with curPos })

/-- `get_step`. -/
def getStep (g : Uni) (step : BitVec 32) : Option (BitVec 32) := do
  let realStep := (g.curPos + step) % g.max
  let r ← g.residue realStep
  g.residue ((r + g.intermediateOff) % g.max)

/-- `n` calls of `operator()`, with what they return. -/
def calls : Nat → Uni → Option (List (BitVec 32) × Uni)
  | 0, g => some ([], g)
  | n + 1, g => do
    let (v, g) ← g.next
    let (out, g) ← g.calls n
    some (v :: out, g)

/-- The states after any number of calls. -/
inductive Reachable (g : Uni) : Uni → Prop
  | init : Reachable g g
  | next {g' g'' : Uni} {v : BitVec 32} : Reachable g g' → g'.next = some (v, g'') →
      Reachable g g''

/-! ## The states of a generator -/

/-- What `init` establishes and the calls keep. -/
structure Valid (g : Uni) : Prop where
  off_lt : g.intermediateOff.toNat < g.max.toNat
  pos_lt : g.curPos.toNat < g.max.toNat
  prime : g.prime.toNat = 0 ∨
    (g.prime.toNat ≤ g.max.toNat ∧ g.prime.toNat.Prime ∧ g.prime.toNat % 4 = 3)
  /-- `_rem_perm` is a permutation of the integers from `_prime` to `_max - 1`. -/
  remPerm : (g.remPerm.map BitVec.toNat).Perm
    (List.range' g.prime.toNat (g.max.toNat - g.prime.toNat))

theorem init_valid {max off pos : BitVec 32} (hoff : off < max) (hpos : pos < max)
    (shuffle : Shuffle (BitVec 32)) : Valid (init max off pos shuffle) where
  off_lt := hoff
  pos_lt := hpos
  prime := findPreviousMatchingPrime_spec (by omega) (by
    have hlt : off.toNat < max.toNat := hoff
    omega)
  remPerm := by
    have hlt : off.toNat < max.toNat := hoff
    have hle : (findPreviousMatchingPrime max).toNat ≤ max.toNat := by
      obtain h0 | h := findPreviousMatchingPrime_spec (v := max) (by omega) (by omega)
      · omega
      · exact h.1
    have hmaxlt := max.isLt
    simp only [init, initFinalPerm]
    generalize findPreviousMatchingPrime max = prime at hle
    have hrem : (max - prime).toNat = max.toNat - prime.toNat := Word.toNat_sub_of_le hle
    have hmap : ((List.range (max - prime).toNat).map fun i =>
        prime + BitVec.ofNat 32 i).map BitVec.toNat =
          List.range' prime.toNat (max.toNat - prime.toNat) := by
      rw [List.map_map, List.range'_eq_map_range, hrem]
      apply List.map_congr_left
      intro i hi
      have hi := List.mem_range.mp hi
      simp only [Function.comp_apply, BitVec.toNat_add, BitVec.toNat_ofNat]
      omega
    rw [← hmap]
    exact (shuffle.perm _).map _

/-! ## `residue` is a permutation of `[0, max)` -/

/-- `residue` on natural numbers. -/
def residueMap (g : Uni) (v : Nat) : Nat :=
  if g.prime.toNat ≤ v then (g.remPerm[v - g.prime.toNat]?.getD 0).toNat
  else permute g.prime.toNat v

namespace Valid

variable {g : Uni}

theorem length_remPerm (hg : Valid g) :
    g.remPerm.length = g.max.toNat - g.prime.toNat := by
  have hlen := hg.remPerm.length_eq
  simpa using hlen

/-- The index `v - _prime` is inside `_rem_perm`. -/
theorem remPerm_getElem? (hg : Valid g) {v : Nat} (hp : g.prime.toNat ≤ v)
    (hv : v < g.max.toNat) :
    ∃ x, g.remPerm[v - g.prime.toNat]? = some x ∧ g.prime.toNat ≤ x.toNat ∧
      x.toNat < g.max.toNat := by
  have hidx : v - g.prime.toNat < g.remPerm.length := by
    rw [hg.length_remPerm]
    omega
  refine ⟨_, List.getElem?_eq_getElem hidx, ?_⟩
  have hmem : (g.remPerm[v - g.prime.toNat]).toNat ∈
      List.range' g.prime.toNat (g.max.toNat - g.prime.toNat) :=
    hg.remPerm.mem_iff.mp (List.mem_map_of_mem (List.getElem_mem hidx))
  rw [List.mem_range'_1] at hmem
  omega

theorem residueMap_lt (hg : Valid g) {v : Nat} (hv : v < g.max.toNat) :
    residueMap g v < g.max.toNat := by
  unfold residueMap
  by_cases hp : g.prime.toNat ≤ v
  · obtain ⟨x, hx, _, hlt⟩ := hg.remPerm_getElem? hp hv
    rw [if_pos hp, hx]
    exact hlt
  · rw [if_neg hp]
    obtain h0 | ⟨hle, hprime, _⟩ := hg.prime
    · omega
    · have hlt := permute_lt hprime (v := v) (by omega)
      omega

/-- No assertion fails, no read leaves the table, no product wraps. -/
theorem residue_eq (hg : Valid g) {v : BitVec 32} (hv : v.toNat < g.max.toNat) :
    g.residue v = some (BitVec.ofNat 32 (residueMap g v.toNat)) := by
  unfold residue residueMap
  rw [if_pos (show v < g.max from hv)]
  by_cases hp : g.prime.toNat ≤ v.toNat
  · obtain ⟨x, hx, _⟩ := hg.remPerm_getElem? hp hv
    rw [if_pos (show g.prime ≤ v from hp), if_pos hp, Word.toNat_sub_of_le hp, hx]
    simp
  · rw [if_neg (show ¬ g.prime ≤ v from hp), if_neg hp]
    have hprime32 := g.prime.isLt
    have hsq : v.toNat * v.toNat < 2 ^ 64 := by
      have hmul := Nat.mul_lt_mul'' v.isLt v.isLt
      omega
    have hmod : v.toNat * v.toNat % g.prime.toNat < g.prime.toNat := Nat.mod_lt _ (by omega)
    have hres : (((v.setWidth 64 * v.setWidth 64) % g.prime.setWidth 64).setWidth 32).toNat =
        v.toNat * v.toNat % g.prime.toNat := by
      simp only [BitVec.toNat_setWidth, BitVec.toNat_umod, BitVec.toNat_mul]
      rw [Nat.mod_eq_of_lt (show v.toNat < 2 ^ 64 by omega), Nat.mod_eq_of_lt hsq,
        Nat.mod_eq_of_lt (show g.prime.toNat < 2 ^ 64 by omega),
        Nat.mod_eq_of_lt (by omega)]
    have hhalf : (v ≤ g.prime / 2) ↔ v.toNat ≤ g.prime.toNat / 2 := by
      rw [BitVec.le_def, BitVec.toNat_udiv]
      rfl
    unfold permute
    simp only [Option.some.injEq]
    apply BitVec.eq_of_toNat_eq
    generalize v.toNat * v.toNat % g.prime.toNat = square at hmod hres
    by_cases h : v.toNat ≤ g.prime.toNat / 2
    · rw [if_pos (hhalf.mpr h), if_pos h, hres, BitVec.toNat_ofNat,
        Nat.mod_eq_of_lt (by omega)]
    · rw [if_neg (fun hc => h (hhalf.mp hc)), if_neg h, Word.toNat_sub_of_le (by
        rw [BitVec.le_def, hres]; omega), hres, BitVec.toNat_ofNat,
        Nat.mod_eq_of_lt (by omega)]

/-- The residues fill `[0, prime)`, the table the rest. -/
theorem residueMap_injOn (hg : Valid g) : Set.InjOn (residueMap g) (Set.Iio g.max.toNat) := by
  intro v hv x hx h
  have hv : v < g.max.toNat := hv
  have hx : x < g.max.toNat := hx
  unfold residueMap at h
  by_cases hpv : g.prime.toNat ≤ v
  · obtain ⟨a, ha, hale, _⟩ := hg.remPerm_getElem? hpv hv
    by_cases hpx : g.prime.toNat ≤ x
    · -- two places of the table
      obtain ⟨b, hb, _, _⟩ := hg.remPerm_getElem? hpx hx
      rw [if_pos hpv, if_pos hpx, ha, hb] at h
      have hnodup : (g.remPerm.map BitVec.toNat).Nodup :=
        hg.remPerm.nodup_iff.mpr List.nodup_range'
      have hidx : v - g.prime.toNat < (g.remPerm.map BitVec.toNat).length := by
        rw [List.length_map, hg.length_remPerm]
        omega
      have heq : (g.remPerm.map BitVec.toNat)[v - g.prime.toNat]? =
          (g.remPerm.map BitVec.toNat)[x - g.prime.toNat]? := by
        rw [List.getElem?_map, List.getElem?_map, ha, hb]
        exact congrArg some h
      have := (List.getElem?_inj hidx hnodup).mp heq
      omega
    · rw [if_pos hpv, if_neg hpx, ha] at h
      obtain h0 | ⟨_, hprime, _⟩ := hg.prime
      · omega
      · have hlt := permute_lt hprime (v := x) (by omega)
        simp only [Option.getD_some] at h
        omega
  · obtain h0 | ⟨_, hprime, h3⟩ := hg.prime
    · omega
    · by_cases hpx : g.prime.toNat ≤ x
      · obtain ⟨b, hb, hble, _⟩ := hg.remPerm_getElem? hpx hx
        have hlt := permute_lt hprime (v := v) (by omega)
        rw [if_neg hpv, if_pos hpx, hb, Option.getD_some] at h
        omega
      · rw [if_neg hpv, if_neg hpx] at h
        exact permute_injOn hprime h3 (show v < g.prime.toNat by omega)
          (show x < g.prime.toNat by omega) h

end Valid

/-! ## The sequence of calls -/

/-- The 32-bit sum of `operator()`, reduced modulo `_max`. -/
def offsetMap (g : Uni) (x : Nat) : Nat :=
  (x + g.intermediateOff.toNat) % 2 ^ 32 % g.max.toNat

/-- What `operator()` returns at a position. -/
def outputMap (g : Uni) (pos : Nat) : Nat := residueMap g (offsetMap g (residueMap g pos))

theorem offsetMap_lt {g : Uni} (hg : Valid g) (x : Nat) : offsetMap g x < g.max.toNat :=
  Nat.mod_lt _ (by have := hg.off_lt; omega)

/-- A sum that fits in a word is reduced once. -/
theorem offsetMap_of_lt {g : Uni} {x : Nat} (h : x + g.intermediateOff.toNat < 2 ^ 32) :
    offsetMap g x = (x + g.intermediateOff.toNat) % g.max.toNat := by
  unfold offsetMap
  rw [Nat.mod_eq_of_lt h]

/-- A square that needs neither a reduction nor the complement. -/
theorem residueMap_of_sq_lt {g : Uni} {v : Nat} (hhalf : v ≤ g.prime.toNat / 2)
    (hsq : v * v < g.prime.toNat) : residueMap g v = v * v := by
  have hv : v < g.prime.toNat := by
    by_contra hge
    have hzero : g.prime.toNat = 0 := by omega
    omega
  unfold residueMap permute
  rw [if_neg (by omega), if_pos hhalf, Nat.mod_eq_of_lt hsq]

theorem outputMap_lt {g : Uni} (hg : Valid g) (pos : Nat) : outputMap g pos < g.max.toNat :=
  hg.residueMap_lt (offsetMap_lt hg _)

/-- The position counter walks `[0, max)` cyclically. -/
theorem toNat_posIncrement {i max : BitVec 32} (h : i.toNat < max.toNat) :
    (posIncrement i max).2.toNat = rotate max.toNat i.toNat 1 := by
  have hmax := max.isLt
  have hinc : (i + 1).toNat = i.toNat + 1 := BitVec.toNat_add_of_lt (by simp; omega)
  unfold posIncrement rotate
  by_cases heq : i + 1 = max
  · simp only [if_pos heq]
    rw [← hinc, heq, Nat.mod_self]
    rfl
  · simp only [if_neg heq]
    have hne : i.toNat + 1 ≠ max.toNat := by
      intro hc
      exact heq (BitVec.eq_of_toNat_eq (by rw [hinc, hc]))
    rw [hinc, Nat.mod_eq_of_lt (by omega)]

/-- The two residues of `operator()` and `get_step`, at a valid position. -/
theorem output_eq {g : Uni} (hg : Valid g) (pos : BitVec 32) (hpos : pos.toNat < g.max.toNat) :
    ((g.residue pos).bind fun r => g.residue ((r + g.intermediateOff) % g.max)) =
      some (BitVec.ofNat 32 (outputMap g pos.toNat)) := by
  have hmax := g.max.isLt
  have hr := hg.residueMap_lt hpos
  have hoff : ((BitVec.ofNat 32 (residueMap g pos.toNat) + g.intermediateOff) % g.max).toNat =
      offsetMap g (residueMap g pos.toNat) := by
    simp only [BitVec.toNat_umod, BitVec.toNat_add, BitVec.toNat_ofNat, offsetMap]
    rw [Nat.mod_eq_of_lt (show residueMap g pos.toNat < 2 ^ 32 by omega)]
  have hsecond := hg.residue_eq (v := (BitVec.ofNat 32 (residueMap g pos.toNat) +
    g.intermediateOff) % g.max) (by rw [hoff]; exact offsetMap_lt hg _)
  rw [hg.residue_eq hpos, Option.bind_some, hsecond, hoff]
  rfl

/-- One call, from a valid state: it cannot fail, and only moves the
position. -/
theorem next_eq {g : Uni} (hg : Valid g) :
    g.next = some (BitVec.ofNat 32 (outputMap g g.curPos.toNat),
      { g with curPos := (posIncrement g.curPos g.max).2 }) := by
  have hout := output_eq hg _ hg.pos_lt
  unfold next
  simp only [posIncrement, Option.bind_eq_bind]
  rw [← Option.bind_assoc, hout]
  rfl

/-- `get_step` looks ahead in the calls, as long as the position does not
wrap. -/
theorem getStep_eq {g : Uni} (hg : Valid g) (step : BitVec 32)
    (h : g.curPos.toNat + step.toNat < 2 ^ 32) :
    g.getStep step =
      some (BitVec.ofNat 32 (outputMap g (rotate g.max.toNat g.curPos.toNat step.toNat))) := by
  have hpos : ((g.curPos + step) % g.max).toNat =
      rotate g.max.toNat g.curPos.toNat step.toNat := by
    rw [BitVec.toNat_umod, BitVec.toNat_add_of_lt h]
    rfl
  have hout := output_eq hg ((g.curPos + step) % g.max)
    (by rw [hpos]; exact rotate_lt hg.pos_lt)
  rw [hpos] at hout
  exact hout

theorem Valid.movePos {g : Uni} (hg : Valid g) {pos : BitVec 32} (hpos : pos.toNat < g.max.toNat) :
    Valid { g with curPos := pos } :=
  ⟨hg.off_lt, hpos, hg.prime, hg.remPerm⟩

theorem next_valid {g g' : Uni} {v : BitVec 32} (hg : Valid g) (h : g.next = some (v, g')) :
    Valid g' := by
  rw [next_eq hg] at h
  cases h
  apply hg.movePos
  rw [toNat_posIncrement hg.pos_lt]
  exact rotate_lt hg.pos_lt

theorem reachable_valid {g g' : Uni} (hg : Valid g) (h : Reachable g g') : Valid g' := by
  induction h with
  | init => exact hg
  | next _ hnext ih => exact next_valid ih hnext

/-- A run of calls reads the output map along the cyclic positions. -/
theorem calls_eq {g : Uni} (hg : Valid g) (n : Nat) :
    ∃ out g', g.calls n = some (out, g') ∧
      out.map BitVec.toNat =
        (List.range n).map fun i => outputMap g (rotate g.max.toNat g.curPos.toNat i) := by
  induction n generalizing g with
  | zero => exact ⟨[], g, rfl, rfl⟩
  | succ n ih =>
    have hlt := hg.pos_lt
    have hmax := g.max.isLt
    have hpos := toNat_posIncrement hlt
    have hg' : Valid { g with curPos := (posIncrement g.curPos g.max).2 } := by
      apply hg.movePos
      rw [hpos]
      exact rotate_lt hlt
    obtain ⟨out, g', hcalls, hout⟩ := ih hg'
    refine ⟨BitVec.ofNat 32 (outputMap g g.curPos.toNat) :: out, g', ?_, ?_⟩
    · unfold calls
      rw [next_eq hg]
      simp only [Option.bind_eq_bind, Option.bind_some, hcalls]
    · have hfirst : (BitVec.ofNat 32 (outputMap g g.curPos.toNat)).toNat =
          outputMap g (rotate g.max.toNat g.curPos.toNat 0) := by
        have hlt' := outputMap_lt hg g.curPos.toNat
        rw [BitVec.toNat_ofNat, Nat.mod_eq_of_lt (by omega)]
        unfold rotate
        rw [Nat.add_zero, Nat.mod_eq_of_lt hlt]
      rw [List.map_cons, hfirst, hout, List.range_succ_eq_map, List.map_cons, List.map_map]
      congr 1
      apply List.map_congr_left
      intro i _
      simp only [Function.comp_apply, hpos, rotate_rotate, Nat.succ_eq_add_one, Nat.add_comm 1 i]
      rfl

/-- The calls of a full period. -/
def Enumerates (g : Uni) : Prop :=
  ∃ out g', g.calls g.max.toNat = some (out, g') ∧
    (out.map BitVec.toNat).Perm (List.range g.max.toNat)

/-- The outputs along the cyclic positions list `[0, max)` exactly when the
offset sums do not wrap. -/
theorem outputs_perm_iff {g : Uni} (hg : Valid g) :
    ((List.range g.max.toNat).map fun i =>
      outputMap g (rotate g.max.toNat g.curPos.toNat i)).Perm (List.range g.max.toNat) ↔
    g.intermediateOff.toNat + g.max.toNat ≤ 2 ^ 32 := by
  have hmaps : ∀ i < g.max.toNat, residueMap g i < g.max.toNat := fun i hi => hg.residueMap_lt hi
  calc ((List.range g.max.toNat).map fun i =>
        outputMap g (rotate g.max.toNat g.curPos.toNat i)).Perm (List.range g.max.toNat)
      ↔ Set.InjOn (fun i => outputMap g (rotate g.max.toNat g.curPos.toNat i))
          (Set.Iio g.max.toNat) :=
        map_range_perm_iff fun i _ => outputMap_lt hg _
    _ ↔ Set.InjOn (outputMap g) (Set.Iio g.max.toNat) :=
        injOn_comp_iff (fun i _ => rotate_lt hg.pos_lt) rotate_injOn
    _ ↔ Set.InjOn (fun x => offsetMap g (residueMap g x)) (Set.Iio g.max.toNat) :=
        injOn_comp_left_iff (fun i _ => offsetMap_lt hg _) hg.residueMap_injOn
    _ ↔ Set.InjOn (offsetMap g) (Set.Iio g.max.toNat) :=
        injOn_comp_iff hmaps hg.residueMap_injOn
    _ ↔ g.intermediateOff.toNat + g.max.toNat ≤ 2 ^ 32 :=
        wrappingOffset_injOn_iff g.max.isLt hg.off_lt

/-- A period lists `[0, max)` exactly when the offset sums do not wrap. -/
theorem enumerates_iff {g : Uni} (hg : Valid g) :
    Enumerates g ↔ g.intermediateOff.toNat + g.max.toNat ≤ 2 ^ 32 := by
  obtain ⟨out, g', hcalls, hout⟩ := calls_eq hg g.max.toNat
  rw [← outputs_perm_iff hg, ← hout]
  constructor
  · intro h
    obtain ⟨out', g'', hcalls', hperm⟩ := h
    rw [hcalls] at hcalls'
    cases hcalls'
    exact hperm
  · intro h
    exact ⟨out, g', hcalls, h⟩

/-- The parameters of a generator do not change. -/
theorem reachable_params {g g' : Uni} (hg : Valid g) (h : Reachable g g') :
    g'.max = g.max ∧ g'.intermediateOff = g.intermediateOff := by
  induction h with
  | init => exact ⟨rfl, rfl⟩
  | next hreach hnext ih =>
    rw [next_eq (reachable_valid hg hreach)] at hnext
    cases hnext
    exact ih

end Uni

open Uni in
/-- **A period of `uni`.** From any state that calls can reach, `max` calls
return each integer of `[0, max)` once exactly when the intermediate
offset plus `max` fits in 32 bits. -/
theorem calls_enumerate_iff (max off pos : BitVec 32) (shuffle : Shuffle (BitVec 32)) (g : Uni)
    (hoff : off < max) (hpos : pos < max) (hg : Reachable (init max off pos shuffle) g) :
    (∃ out g', g.calls max.toNat = some (out, g') ∧
      (out.map BitVec.toNat).Perm (List.range max.toNat)) ↔
    off.toNat + max.toNat ≤ 2 ^ 32 := by
  have hinit := init_valid hoff hpos shuffle
  obtain ⟨hmax, hinter⟩ := reachable_params hinit hg
  have h := enumerates_iff (reachable_valid hinit hg)
  unfold Enumerates at h
  rw [hmax, hinter] at h
  exact h

open Uni in
theorem calls_enumerate_twenty :
    ∃ out g', (init 20 7 13 (Shuffle.id _)).calls 20 = some (out, g') ∧
      (out.map BitVec.toNat).Perm (List.range 20) :=
  (calls_enumerate_iff 20 7 13 (Shuffle.id _) _ (by decide) (by decide) .init).mpr (by decide)

open Uni in
/-- With the largest `max` and the largest offset below it, the sums wrap
and a period does not list `[0, max)`. -/
theorem calls_repeat_largest :
    ¬ ∃ out g', (init 0xFFFFFFFF 0xFFFFFFFE 0 (Shuffle.id _)).calls 0xFFFFFFFF = some (out, g') ∧
      (out.map BitVec.toNat).Perm (List.range 0xFFFFFFFF) := by
  have hinit : Valid (init 0xFFFFFFFF 0xFFFFFFFE 0 (Shuffle.id _)) :=
    init_valid (by decide) (by decide) _
  intro h
  have hle := (enumerates_iff hinit).mp h
  revert hle
  decide

end Leeloo
