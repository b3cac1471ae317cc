/-
Leeloo.UniThreads — `uni<uint32_t, true>` and `uprng<uint32_t, true>`
called from several threads.

The atomic `fetch_and_increment` is the only access of a call to what
changes; the rest reads parameters that stay as `init` left them. So a
generator is a shared counter (`atomicService`), and whatever the threads
do the calls return what the calls of one thread return. No two threads
get one integer as long as the counter has not gone round: `max` fetches
of `uni`, unless a sum leaves 32 bits, and `_prime` fetches of `uprng`,
where the calls of several threads skip positions side by side.
-/
import Leeloo.Lib.SharedCounter
import Leeloo.UniSteps
import Leeloo.UprngU32

namespace Leeloo

open RangePerm SharedCounter

/-- Two calls that overlap: the thread that fetches second returns first. -/
theorem exists_overlap {σ π α : Type*} (S : Service σ π α) (st : σ) {v₀ v₁ : α}
    (h₀ : S.result (S.fetch st).1 = some v₀)
    (h₁ : S.result (S.fetch (S.fetch st).2).1 = some v₁) :
    ∃ c : Config Bool σ π α, Reachable S st c ∧ c.fetches = 2 ∧
      c.returned = [⟨false, 0, 1, v₁⟩, ⟨true, 0, 0, v₀⟩] :=
  ⟨_, (((((Reachable.start.step (.call true rfl)).step (.fetch true rfl)).step
    (.call false rfl)).step (.fetch false rfl)).step (.ret false rfl h₁)).step (.ret true rfl h₀),
    rfl, rfl⟩

/-- The word after `n` increments. -/
theorem iterate_add_one (i : BitVec 32) (n : Nat) :
    (fun i => i + 1)^[n] i = i + BitVec.ofNat 32 n := by
  induction n with
  | zero => simp
  | succ n ih =>
    rw [Function.iterate_succ_apply', ih, BitVec.add_assoc]
    congr 1
    apply BitVec.eq_of_toNat_eq
    simp [BitVec.toNat_add, BitVec.toNat_ofNat]

namespace Uni

/-- `operator()` of `uni<uint32_t, true>` as its threads run it: the atomic
`fetch_and_increment`, and the two residues of the position taken. The
value is `none` where an assertion fails. -/
def atomicService (g : Uni) : Service (BitVec 32) (BitVec 32) (Option (BitVec 32)) where
  fetch i := posIncrementAtomic i g.max
  result pos := some ((g.residue pos).bind fun r => g.residue ((r + g.intermediateOff) % g.max))

variable {g : Uni}

theorem atomicService_position (i : BitVec 32) (n : Nat) :
    g.atomicService.position i n = (i + BitVec.ofNat 32 n) % g.max := by
  rw [← iterate_add_one]
  rfl

/-- Fetch number `k` gives what call number `k` of one thread gives. -/
theorem atomicService_result (hg : Valid g) (k : Nat) :
    g.atomicService.result (g.atomicService.position g.curPos k) = some (g.nthCallAtomic k) := by
  have hpos : ((g.curPos + BitVec.ofNat 32 k) % g.max).toNat =
      (g.curPos.toNat + k) % 2 ^ 32 % g.max.toNat := by
    rw [BitVec.toNat_umod, BitVec.toNat_add, BitVec.toNat_ofNat, Nat.add_mod_mod]
  have hlt : ((g.curPos + BitVec.ofNat 32 k) % g.max).toNat < g.max.toNat := by
    rw [hpos]
    exact Nat.mod_lt _ (by have := hg.off_lt; omega)
  have hcall : g.nthCallAtomic k = _ := nthCallAtomic_eq hg g.curPos k
  rw [hcall, atomicService_position, ← hpos]
  exact congrArg some (output_eq hg _ hlt)

/-- While the counter has not gone round, the calls of one thread walk the
positions of a period. -/
theorem map_nthCallAtomic (hg : Valid g) {n : Nat} (hwrap : g.curPos.toNat + n ≤ 2 ^ 32) :
    (List.range n).map (fun k => (g.nthCallAtomic k).map BitVec.toNat) =
      (List.range n).map fun k => some (outputMap g (rotate g.max.toNat g.curPos.toNat k)) := by
  apply List.map_congr_left
  intro k hk
  have hk := List.mem_range.mp hk
  have hcall : g.nthCallAtomic k = _ := nthCallAtomic_eq hg g.curPos k
  have hlt := outputMap_lt hg (rotate g.max.toNat g.curPos.toNat k)
  have hmax := g.max.isLt
  rw [hcall, Nat.mod_eq_of_lt (show g.curPos.toNat + k < 2 ^ 32 by omega), Option.map_some,
    BitVec.toNat_ofNat]
  exact congrArg some (Nat.mod_eq_of_lt (hlt.trans hmax))

/-- A period lists `[0, max)` when the offset sums do not wrap. -/
theorem map_nthCallAtomic_perm (hg : Valid g)
    (hsum : g.intermediateOff.toNat + g.max.toNat ≤ 2 ^ 32)
    (hwrap : g.curPos.toNat + g.max.toNat ≤ 2 ^ 32) :
    ((List.range g.max.toNat).map fun k => (g.nthCallAtomic k).map BitVec.toNat).Perm
      ((List.range g.max.toNat).map some) := by
  have hperm := ((outputs_perm_iff hg).mpr hsum).map some
  rw [List.map_map] at hperm
  rw [map_nthCallAtomic hg hwrap]
  exact hperm

/-- Within a period no integer comes twice. -/
theorem map_nthCallAtomic_nodup (hg : Valid g)
    (hsum : g.intermediateOff.toNat + g.max.toNat ≤ 2 ^ 32) {n : Nat} (hn : n ≤ g.max.toNat)
    (hwrap : g.curPos.toNat + n ≤ 2 ^ 32) :
    ((List.range n).map fun k => (g.nthCallAtomic k).map BitVec.toNat).Nodup := by
  have hinj := (map_range_perm_iff fun i _ => outputMap_lt hg _).mp ((outputs_perm_iff hg).mpr hsum)
  rw [map_nthCallAtomic hg hwrap]
  apply List.Nodup.map_on _ List.nodup_range
  intro k hk k' hk' h
  have hk := List.mem_range.mp hk
  have hk' := List.mem_range.mp hk'
  exact hinj (hk.trans_le hn) (hk'.trans_le hn) (Option.some.inj h)

end Uni

section Threads

variable {ι : Type*} [DecidableEq ι]

open Uni in
/-- **Threads on one `uni`.** Whatever the steps of the threads and their
order, the calls return what the calls of one thread return, no assertion
fails, and a call that began after another one had returned comes later in
that order. -/
theorem uni_threads_linearized (max off pos : BitVec 32) (shuffle : Shuffle (BitVec 32))
    (hoff : off < max) (hpos : pos < max)
    (c : Config ι (BitVec 32) (BitVec 32) (Option (BitVec 32)))
    (hc : Reachable (init max off pos shuffle).atomicService pos c) :
    Linearized c (fun k => some ((init max off pos shuffle).nthCallAtomic k)) ∧
      ∀ r ∈ c.returned, ∃ v < max, r.value = some v := by
  have hg := init_valid hoff hpos shuffle
  have hresult : ∀ k, (init max off pos shuffle).atomicService.result
      ((init max off pos shuffle).atomicService.position pos k) = _ := atomicService_result hg
  have hlin := hc.linearized
  simp only [hresult] at hlin
  refine ⟨hlin, fun r hr => ?_⟩
  have hcall : (init max off pos shuffle).nthCallAtomic r.ticket = _ :=
    nthCallAtomic_eq hg pos r.ticket
  have hvalue := hlin.value r hr
  rw [hcall, Option.some.injEq] at hvalue
  refine ⟨_, ?_, hvalue.symm⟩
  have hlt := outputMap_lt hg
    ((pos.toNat + r.ticket) % 2 ^ 32 % (init max off pos shuffle).max.toNat)
  have hmax : (init max off pos shuffle).max.toNat < 2 ^ 32 := BitVec.isLt _
  rw [BitVec.lt_def, BitVec.toNat_ofNat, Nat.mod_eq_of_lt (hlt.trans hmax)]
  exact hlt

open Uni in
theorem uni_threads_linearized_overlap :
    ∃ c : Config Bool (BitVec 32) (BitVec 32) (Option (BitVec 32)), c.returned.length = 2 ∧
      Linearized c (fun k => some ((init 20 7 13 (Shuffle.id _)).nthCallAtomic k)) ∧
      ∀ r ∈ c.returned, ∃ v < 20, r.value = some v := by
  obtain ⟨c, hc, _, hreturned⟩ :=
    exists_overlap (init 20 7 13 (Shuffle.id _)).atomicService 13 rfl rfl
  exact ⟨c, by rw [hreturned]; rfl,
    uni_threads_linearized 20 7 13 (Shuffle.id _) (by decide) (by decide) c hc⟩

open Uni in
/-- **No two threads get one integer.** In the first `max` fetches, and as
long as neither an offset sum nor the counter leaves 32 bits, the integers
returned are below `max` and different; once the threads have made `max`
fetches and returned, they hold each integer below `max`. -/
theorem uni_threads_unique (max off pos : BitVec 32) (shuffle : Shuffle (BitVec 32))
    (hoff : off < max) (hpos : pos < max) (hsum : off.toNat + max.toNat ≤ 2 ^ 32)
    (c : Config ι (BitVec 32) (BitVec 32) (Option (BitVec 32)))
    (hc : Reachable (init max off pos shuffle).atomicService pos c)
    (hfetches : c.fetches ≤ max.toNat) (hwrap : pos.toNat + c.fetches ≤ 2 ^ 32) :
    (c.returned.map Return.value).Nodup ∧
      (c.Settled → c.fetches = max.toNat →
        (c.returned.map fun r => r.value.map BitVec.toNat).Perm
          ((List.range max.toNat).map some)) := by
  have hg := init_valid hoff hpos shuffle
  have hseq : (init max off pos shuffle).atomicService.sequential pos c.fetches =
      (List.range c.fetches).map (init max off pos shuffle).nthCallAtomic := by
    unfold Service.sequential
    rw [← List.filterMap_eq_map]
    exact List.filterMap_congr fun k _ => atomicService_result hg k
  constructor
  · obtain ⟨l, hperm, hsub⟩ := hc.values_subperm
    rw [← hperm.nodup_iff]
    refine hsub.nodup ?_
    rw [hseq]
    refine List.Nodup.of_map (Option.map BitVec.toNat) ?_
    rw [List.map_map]
    exact map_nthCallAtomic_nodup hg hsum hfetches hwrap
  · intro hsettled hall
    have hperm := (hc.values_perm hsettled).map (Option.map BitVec.toNat)
    rw [hseq, List.map_map, List.map_map] at hperm
    rw [hall] at hperm hwrap
    exact hperm.trans (map_nthCallAtomic_perm hg hsum hwrap)

open Uni in
theorem uni_threads_unique_overlap :
    ∃ c : Config Bool (BitVec 32) (BitVec 32) (Option (BitVec 32)), c.returned.length = 2 ∧
      (c.returned.map Return.value).Nodup ∧
      (c.Settled → c.fetches = 20 →
        (c.returned.map fun r => r.value.map BitVec.toNat).Perm ((List.range 20).map some)) := by
  obtain ⟨c, hc, hfetches, hreturned⟩ :=
    exists_overlap (init 20 7 13 (Shuffle.id _)).atomicService 13 rfl rfl
  exact ⟨c, by rw [hreturned]; rfl,
    uni_threads_unique 20 7 13 (Shuffle.id _) (by decide) (by decide) (by decide) c hc
      (by rw [hfetches]; decide) (by rw [hfetches]; decide)⟩

end Threads

/-! ## `uprng` -/

namespace UprngU32

/-- `operator()` of `uprng<uint32_t, true>` as its threads run it: the
atomic `fetch_and_increment`, and `get_step` of the position taken, which
is skipped when it is not below `_max`. -/
def atomicService (u : UprngU32) : Service (BitVec 32) (BitVec 32) (BitVec 32) where
  fetch i := posIncrementAtomic i u.prime
  result pos :=
    let res := u.getStep pos
    if u.max ≤ res then none else some res

variable {u : UprngU32}

theorem atomicService_position {n : Nat} (hn : n < u.prime.toNat) :
    (u.atomicService.position 0 n).toNat = n := by
  have hprime := u.prime.isLt
  have hpos : u.atomicService.position 0 n = ((fun i => i + 1)^[n] 0) % u.prime := rfl
  rw [hpos, iterate_add_one, zero_add, BitVec.toNat_umod, BitVec.toNat_ofNat,
    Nat.mod_eq_of_lt (hn.trans hprime), Nat.mod_eq_of_lt hn]

/-- The first `n` positions keep what a period of one thread keeps there. -/
theorem map_sequential (hu : Params u) {n : Nat} (hn : n ≤ u.prime.toNat) :
    (u.atomicService.sequential 0 n).map BitVec.toNat =
      ((List.range n).map u.stepMap).filter (· < u.max.toNat) := by
  unfold Service.sequential
  rw [List.map_filterMap, ← List.filterMap_eq_filter, List.filterMap_map]
  apply List.filterMap_congr
  intro t ht
  have hpos := atomicService_position (u := u) ((List.mem_range.mp ht).trans_le hn)
  have hres := toNat_getStep hu.prime.one_lt (u.atomicService.position 0 t)
  rw [hpos] at hres
  show Option.map _ (if u.max ≤ u.getStep _ then none else some (u.getStep _)) = _
  by_cases hskip : u.max ≤ u.getStep (u.atomicService.position 0 t)
  · have hle : u.max.toNat ≤ u.stepMap t := by
      rw [← hres]
      exact hskip
    rw [if_pos hskip]
    simp [Option.guard, hle]
  · have hlt : u.stepMap t < u.max.toNat := by
      rw [← hres]
      exact not_le.mp hskip
    rw [if_neg hskip, Option.map_some, hres]
    simp [Option.guard, hlt]

end UprngU32

section Threads

variable {ι : Type*} [DecidableEq ι]

open UprngU32 in
/-- **Threads on one `uprng`**, each skipping what is not below `max`. In a
period of the counter the integers returned are below `max` and different,
whatever the steps of the threads and their order; once the threads have
been through the period, they have returned each integer below `max`. -/
theorem uprng_threads_unique (u : UprngU32) (hu : Params u)
    (c : Config ι (BitVec 32) (BitVec 32) (BitVec 32)) (hc : Reachable u.atomicService 0 c)
    (hfetches : c.fetches ≤ u.prime.toNat) :
    (c.returned.map Return.value).Nodup ∧ (∀ r ∈ c.returned, r.value < u.max) ∧
      (c.Settled → c.fetches = u.prime.toNat →
        (c.returned.map fun r => r.value.toNat).Perm (List.range u.max.toNat)) := by
  have hseq := map_sequential hu hfetches
  refine ⟨?_, fun r hr => ?_, fun hsettled hall => ?_⟩
  · obtain ⟨l, hperm, hsub⟩ := hc.values_subperm
    rw [← hperm.nodup_iff]
    refine hsub.nodup (List.Nodup.of_map BitVec.toNat ?_)
    rw [hseq]
    refine (List.Nodup.map_on (fun i hi j hj h => ?_) List.nodup_range).filter _
    exact stepMap_injOn hu ((List.mem_range.mp hi).trans_le hfetches)
      ((List.mem_range.mp hj).trans_le hfetches) h
  · have hmem : r.value.toNat ∈ (u.atomicService.sequential 0 c.fetches).map BitVec.toNat :=
      List.mem_map_of_mem (hc.values_subperm.subset (List.mem_map_of_mem hr))
    rw [hseq, List.mem_filter, decide_eq_true_eq] at hmem
    exact hmem.2
  · have hperm := (hc.values_perm hsettled).map BitVec.toNat
    rw [hseq, hall, List.map_map] at hperm
    refine hperm.trans ?_
    have hkept := kept_zero_perm hu
    unfold kept at hkept
    rwa [Nat.sub_zero, ← List.range_eq_range'] at hkept

open UprngU32 in
/-- The second of two threads skips its first position. -/
theorem uprng_threads_unique_skip :
    ∃ c : Config Bool (BitVec 32) (BitVec 32) (BitVec 32),
      c.returned.map Return.value = [1, 3] ∧
      (c.returned.map Return.value).Nodup ∧ (∀ r ∈ c.returned, r.value < uprngSample.max) ∧
      (c.Settled → c.fetches = 11 →
        (c.returned.map fun r => r.value.toNat).Perm (List.range 8)) := by
  have hu : Params uprngSample := ⟨by decide, by decide, by decide, by decide, by decide,
    by decide, by decide, by decide, by decide⟩
  have hc : Reachable uprngSample.atomicService 0 _ :=
    (((((((Reachable.start.step (.call true rfl)).step (.fetch true rfl)).step
      (.call false rfl)).step (.fetch false rfl)).step (.again false rfl (by decide +kernel))).step
      (.fetch false rfl)).step (.ret (v := 1) false rfl (by decide +kernel))).step
      (.ret (v := 3) true rfl (by decide +kernel))
  exact ⟨_, rfl, uprng_threads_unique uprngSample hu _ hc (by decide)⟩

end Threads

end Leeloo
