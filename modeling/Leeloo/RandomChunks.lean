/-
Leeloo.RandomChunks — the chunk arithmetic of `random_sets(size_div, …)` of
`list_intervals.h`, where the base type may be narrower than `size_type`.

`size_all` is a base type value and `size_div` a `size_type`. The number of
full chunks is a division in the base type, for which `size_div` is
narrowed; its product with `size_div` and the loops are in `size_type`. A
`size_div` that the base type cannot hold loses its high bits there, and
may become zero.

The model keeps the buffer between the chunks, and says how often the
generator is called. `none` is a division by zero, a failed lookup, a read
of `fset` outside the buffer, or a loop that does not end.
-/
import Leeloo.RandomSets

namespace Leeloo

open HalfOpen Leeloo.Interval ListIntervals

variable {w : Nat} {Seed : Type}

/-- What one call of `random_sets` does: the sets given to `fset`, and the
number of calls of the generator. -/
structure SetsRun (w : Nat) where
  sets : List (List (BitVec w))
  calls : Nat

namespace ListIntervals

/-- The loop over the full chunks: the chunks, the calls, and the state of
the generator after it. -/
def chunkLoop (l : ListIntervals w 32) (u : Uprng Seed w) (sizeDiv sizeAllFull : BitVec 32) :
    Nat → BitVec 32 → u.State → Option (SetsRun w × u.State)
  | 0, _, _ => none
  | fuel + 1, i, st =>
    if i < sizeAllFull then do
      let (buf, st) ← u.fill l.atCached sizeDiv.toNat st
      let (run, st) ← chunkLoop l u sizeDiv sizeAllFull fuel (i + sizeDiv) st
      some (⟨buf :: run.sets, sizeDiv.toNat + run.calls⟩, st)
    else some (⟨[], 0⟩, st)

/-- `random_sets(size_div, fset, rand_eng)`; `fresh` is what the allocated
buffer holds. -/
def randomChunks (l : ListIntervals w 32) (u : Uprng Seed w) (seed : Seed)
    (fresh : List (BitVec w)) (sizeDiv : BitVec 32) (fuel : Nat) : Option (SetsRun w) :=
  let sizeDiv := if sizeDiv ≤ 0 then 1 else sizeDiv
  let sizeAll := l.size
  let st := u.init seed sizeAll
  if sizeDiv.setWidth w = 0 then none
  else do
    let sizeAllFull := (sizeAll / sizeDiv.setWidth w).setWidth 32 * sizeDiv
    let (run, st) ← l.chunkLoop u sizeDiv sizeAllFull fuel 0 st
    let rem := sizeAll.setWidth 32 - (sizeAllFull.setWidth w).setWidth 32
    if 0 < rem then
      let left := sizeAll.toNat - sizeAllFull.toNat
      let (tail, _) ← u.fill l.atCached left st
      let buf := tail ++ (run.sets.getLast?.getD fresh).drop left
      if rem ≤ sizeDiv then some ⟨run.sets ++ [buf.take rem.toNat], run.calls + left⟩ else none
    else some run

/-- The call ends, asks the generator for `size()` values, and gives every
value of the list to `fset` once. -/
def EmitsOnce (l : ListIntervals w 32) (u : Uprng Seed w) (seed : Seed) (fresh : List (BitVec w))
    (sizeDiv : BitVec 32) : Prop :=
  ∃ fuel run, l.randomChunks u seed fresh sizeDiv fuel = some run ∧ run.calls = l.size.toNat ∧
    run.sets.flatten.Nodup ∧ ∀ v, v ∈ run.sets.flatten ↔ v ∈ covers l.intervals

end ListIntervals

/-! ## The full chunks -/

section Chunks

variable {l : ListIntervals w 32} {u : Uprng Seed w} {st : u.State}
  {value : BitVec w → BitVec w} {n : Nat}

/-- From full chunk number `k` on: the chunks left hold the values drawn
there. -/
theorem chunkLoop_spec (hr : ∀ r ∈ (u.draws n st).1, l.atCached r = some (value r))
    {div full : BitVec 32} {q : Nat} (hfull : full.toNat = q * div.toNat) (hle : full.toNat ≤ n)
    (fuel k : Nat) (i : BitVec 32) (hi : i.toNat = k * div.toNat) (hk : k ≤ q)
    (hfuel : q - k < fuel) :
    ∃ run, l.chunkLoop u div full fuel i (u.draws (k * div.toNat) st).2 =
        some (run, (u.draws full.toNat st).2) ∧
      run.calls = full.toNat - k * div.toNat ∧
      run.sets.flatten =
        (((u.draws n st).1.drop (k * div.toNat)).take (full.toNat - k * div.toNat)).map value := by
  induction fuel generalizing k i with
  | zero => omega
  | succ fuel ih =>
    have hkq : k * div.toNat ≤ q * div.toNat := Nat.mul_le_mul_right _ hk
    unfold chunkLoop
    by_cases hlt : i < full
    · obtain ⟨hkq', hstep, hi'⟩ := Word.toNat_add_multiple hi hfull hlt
      have hsucc : (k + 1) * div.toNat = k * div.toNat + div.toNat := Nat.succ_mul _ _
      obtain ⟨run, hrun, hcalls, hflat⟩ := ih (k + 1) (i + div) hi' hkq' (by omega)
      have hbuf := Uprng.fill_later hr (show k * div.toNat + div.toNat ≤ n by omega)
      rw [← hsucc] at hbuf
      rw [if_pos hlt]
      simp only [hbuf, Option.bind_eq_bind, Option.bind_some, hrun]
      refine ⟨_, rfl, ?_, ?_⟩
      · show div.toNat + run.calls = _
        omega
      · rw [List.flatten_cons, hflat, hsucc, ← List.map_append, ← List.drop_drop, ← List.take_add]
        congr 2
        omega
    · have hge : full.toNat ≤ i.toNat := not_lt.mp hlt
      have heq : k * div.toNat = full.toNat := by omega
      rw [if_neg hlt, heq]
      exact ⟨_, rfl, by simp, by simp⟩

/-- A loop that is entered calls the generator for one chunk at least. -/
theorem le_calls_of_chunkLoop {div full i : BitVec 32} {fuel : Nat} {run : SetsRun w}
    {st' : u.State} (h : l.chunkLoop u div full fuel i st = some (run, st')) (hi : i < full) :
    div.toNat ≤ run.calls := by
  cases fuel with
  | zero => cases h
  | succ fuel =>
    unfold chunkLoop at h
    rw [if_pos hi] at h
    simp only [Option.bind_eq_bind, Option.bind_eq_some_iff] at h
    obtain ⟨_, _, rest, _, heq⟩ := h
    cases heq
    exact Nat.le_add_right _ _

end Chunks

/-! ## When the values are emitted once -/

section Emits

variable {l : ListIntervals w 32} {u : Uprng Seed w} {seed : Seed} {fresh : List (BitVec w)}
  {sizeDiv div full : BitVec 32}

/-- The size and the number of values in full chunks fit `size_type`, so
their difference is the number of values left. -/
theorem toNat_rem (hw : w ≤ 32) {size : BitVec w} (hle : full.toNat ≤ size.toNat) :
    (size.setWidth 32 - (full.setWidth w).setWidth 32).toNat = size.toNat - full.toNat := by
  have hsize : (size.setWidth 32).toNat = size.toNat := BitVec.toNat_setWidth_of_le hw
  have hfull : ((full.setWidth w).setWidth 32).toNat = full.toNat := by
    rw [BitVec.toNat_setWidth_of_le hw, BitVec.toNat_setWidth,
      Nat.mod_eq_of_lt (lt_of_le_of_lt hle size.isLt)]
  rw [Word.toNat_sub_of_le (by rw [BitVec.le_def, hsize, hfull]; exact hle), hsize, hfull]

/-- The number of full chunks, counted with the narrowed chunk size. -/
theorem toNat_fullChunks (hw : w ≤ 32) (size : BitVec w) (div : BitVec 32) :
    ((size / div.setWidth w).setWidth 32).toNat = size.toNat / (div.toNat % 2 ^ w) := by
  rw [BitVec.toNat_setWidth_of_le hw, BitVec.toNat_udiv, BitVec.toNat_setWidth]

/-- The lookups of all the ranks drawn list the values. -/
theorem draws_perm_values (hw : w ≤ 32) (hn : Normal l.intervals) (hcached : Cached l)
    (hu : u.Enumerates seed l.size) :
    ∃ value : BitVec w → BitVec w,
      (∀ r ∈ (u.draws l.size.toNat (u.init seed l.size)).1, l.atCached r = some (value r)) ∧
      ((u.draws l.size.toNat (u.init seed l.size)).1.map value).Perm (values l.intervals) := by
  have hs : Separated (· ≤ ·) l.intervals := hn.separated.imp le_of_lt
  have hlen : l.size.toNat = (values l.intervals).length := by
    rw [length_values, toNat_size (widthSum_lt hn.proper hs)]
  refine ⟨fun r => (values l.intervals)[r.toNat]?.getD 0, fun r hmem => ?_, hu.map_perm hlen⟩
  have hlt : r.toNat < (values l.intervals).length := by
    rw [← hlen]
    exact hu.lt_of_mem hmem
  rw [hcached.atCached_values hw hn.proper hs (by omega) hlt]
  simp [hlt]

/-- Full chunks that end at most one chunk before the size: the chunks hold
the values drawn, all of them. -/
theorem emitsOnce_of_full (hw : w ≤ 32) (hn : Normal l.intervals) (hcached : Cached l)
    (hu : u.Enumerates seed l.size) (hdiv : (if sizeDiv ≤ 0 then 1 else sizeDiv) = div)
    (hne : div.setWidth w ≠ 0) (hfull : (l.size / div.setWidth w).setWidth 32 * div = full)
    {q : Nat} (hq : full.toNat = q * div.toNat) (hle : full.toNat ≤ l.size.toNat)
    (hrest : l.size.toNat - full.toNat ≤ div.toNat) :
    l.EmitsOnce u seed fresh sizeDiv := by
  obtain ⟨value, hr, hperm⟩ := draws_perm_values hw hn hcached hu
  have hall := Uprng.length_draws (u := u) l.size.toNat (u.init seed l.size)
  obtain ⟨run, hrun, hcalls, hflat⟩ := chunkLoop_spec hr hq hle (q + 1) 0 0 (by simp) (by omega)
    (by omega)
  rw [Nat.zero_mul, Nat.sub_zero] at hcalls hflat
  rw [Nat.zero_mul] at hrun
  rw [List.drop_zero] at hflat
  change l.chunkLoop u div full (q + 1) 0 (u.init seed l.size) = _ at hrun
  have hrem := toNat_rem hw hle
  have hvalues : ∀ sets : List (List (BitVec w)),
      sets.flatten = (u.draws l.size.toNat (u.init seed l.size)).1.map value →
      sets.flatten.Nodup ∧ ∀ v, v ∈ sets.flatten ↔ v ∈ covers l.intervals := by
    intro sets hsets
    rw [hsets]
    refine ⟨hperm.nodup_iff.mpr (values_nodup hn.proper (hn.separated.imp le_of_lt)), fun v => ?_⟩
    rw [hperm.mem_iff, mem_values_iff hn.proper]
  unfold EmitsOnce randomChunks
  by_cases hlast : 0 < l.size.setWidth 32 - (full.setWidth w).setWidth 32
  · have htail := Uprng.fill_later hr (k := full.toNat) (m := l.size.toNat - full.toNat) (by omega)
    have hlen := Uprng.length_of_fill htail
    refine ⟨q + 1, ⟨run.sets ++ [(((u.draws l.size.toNat (u.init seed l.size)).1.drop
      full.toNat).take (l.size.toNat - full.toNat)).map value],
      run.calls + (l.size.toNat - full.toNat)⟩, ?_, ?_, hvalues _ ?_⟩
    · simp only [hdiv, if_neg hne, hfull, hrun, Option.bind_eq_bind, Option.bind_some,
        if_pos hlast, htail]
      rw [if_pos (by rw [BitVec.le_def, hrem]; exact hrest), hrem, List.take_left' hlen]
    · show run.calls + (l.size.toNat - full.toNat) = _
      omega
    · rw [List.flatten_append, List.flatten_singleton, hflat, ← List.map_append, ← List.take_add,
        Nat.add_sub_cancel' hle, List.take_of_length_le (le_of_eq hall)]
  · have heq : l.size.toNat = full.toNat := by
      have hnot : ¬ 0 < l.size.toNat - full.toNat := by
        rw [← hrem]
        exact hlast
      omega
    refine ⟨q + 1, run, ?_, by omega, hvalues run.sets ?_⟩
    · simp only [hdiv, if_neg hne, hfull, hrun, Option.bind_eq_bind, Option.bind_some,
        if_neg hlast]
    · rw [hflat, ← heq, List.take_of_length_le (le_of_eq hall)]

/-- The number of full chunks times the chunk size is no multiple of
`2^32`, as it is none of `2^w`. -/
theorem full_pos (hw : w ≤ 32) {size : BitVec w} (hpos : 0 < div.toNat % 2 ^ w)
    (hle : div.toNat % 2 ^ w ≤ size.toNat) :
    0 < (size / div.setWidth w).setWidth 32 * div := by
  have hq := toNat_fullChunks hw size div
  have hqpos : 0 < size.toNat / (div.toNat % 2 ^ w) := Nat.div_pos hle hpos
  have hqle := Nat.div_mul_le_self size.toNat (div.toNat % 2 ^ w)
  rw [Word.pos_iff_ne_zero]
  intro hzero
  have hfull : size.toNat / (div.toNat % 2 ^ w) * div.toNat % 2 ^ 32 = 0 := by
    rw [← hq, ← BitVec.toNat_mul, hzero]
    rfl
  have hdvd : 2 ^ w ∣ size.toNat / (div.toNat % 2 ^ w) * div.toNat :=
    (Nat.pow_dvd_pow 2 hw).trans (Nat.dvd_of_mod_eq_zero hfull)
  have hdvd' : 2 ^ w ∣ size.toNat / (div.toNat % 2 ^ w) * (div.toNat % 2 ^ w) := by
    rw [Nat.dvd_iff_mod_eq_zero, Nat.mul_mod_mod]
    exact Nat.mod_eq_zero_of_dvd hdvd
  have hbound := Nat.le_of_dvd (Nat.mul_pos hqpos hpos) hdvd'
  have hsize := size.isLt
  omega

/-- A chunk size that the base type cannot hold, and that is not above the
size once narrowed: a division by zero, or more calls than values. -/
theorem not_emitsOnce (hw : w ≤ 32) (hdiv : (if sizeDiv ≤ 0 then 1 else sizeDiv) = div)
    (hbig : 2 ^ w ≤ div.toNat) (hle : div.toNat % 2 ^ w ≤ l.size.toNat) :
    ¬ l.EmitsOnce u seed fresh sizeDiv := by
  rintro ⟨fuel, run, hrun, hcalls, _⟩
  unfold randomChunks at hrun
  simp only [hdiv] at hrun
  by_cases hzero : div.setWidth w = 0
  · rw [if_pos hzero] at hrun
    cases hrun
  have hpos : 0 < div.toNat % 2 ^ w := by
    rw [← BitVec.toNat_setWidth]
    exact Word.pos_iff_ne_zero.mpr hzero
  have hfull := full_pos hw hpos hle
  have hsize := l.size.isLt
  rw [if_neg hzero] at hrun
  simp only [Option.bind_eq_bind, Option.bind_eq_some_iff] at hrun
  obtain ⟨⟨chunks, st⟩, hloop, hrest⟩ := hrun
  have hchunk : div.toNat ≤ chunks.calls := le_calls_of_chunkLoop hloop hfull
  split at hrest
  · obtain ⟨⟨tail, _⟩, _, hlast⟩ := Option.bind_eq_some_iff.mp hrest
    split at hlast
    · cases hlast
      simp only at hcalls
      omega
    · cases hlast
  · have hrun : chunks = run := Option.some.inj hrest
    rw [← hrun] at hcalls
    omega

end Emits

/-- **When `random_sets` emits every value once**: the chunk size fits the
base type, or what is left of it there is above the size of the list. -/
theorem randomChunks_iff (hw : w ≤ 32) (u : Uprng Seed w) (seed : Seed)
    (l₀ l : ListIntervals w 32) (c : BitVec 64) (hn : Normal l₀.intervals)
    (hc : l₀.createIndexCache c = some l) (hu : u.Enumerates seed l.size)
    (fresh : List (BitVec w)) (sizeDiv : BitVec 32) :
    l.EmitsOnce u seed fresh sizeDiv ↔
      (if sizeDiv = 0 then 1 else sizeDiv.toNat) < 2 ^ w ∨
        l.size.toNat < (if sizeDiv = 0 then 1 else sizeDiv.toNat) % 2 ^ w := by
  have hs : Separated (· ≤ ·) l₀.intervals := hn.separated.imp le_of_lt
  have hsum := widthSum_lt hn.proper hs
  have hpow : 2 ^ w ≤ 2 ^ 32 := Nat.pow_le_pow_right (by omega) hw
  have hlen := length_le_widthSum hn.proper
  obtain ⟨hints, hcached⟩ := createIndexCache_cached hw (by omega) (by omega) hc
  rw [← hints] at hn
  generalize hdiv : (if sizeDiv ≤ 0 then 1 else sizeDiv) = div
  have hdivpos := toNat_div_pos sizeDiv
  rw [← toNat_div]
  rw [hdiv] at hdivpos ⊢
  have hnarrow : (div.setWidth w).toNat = div.toNat % 2 ^ w := BitVec.toNat_setWidth ..
  have hsize := l.size.isLt
  constructor
  · intro hemits
    by_contra hnot
    exact not_emitsOnce hw hdiv (by omega) (by omega) hemits
  · intro hcase
    have hnpos : 0 < div.toNat % 2 ^ w := by
      obtain hfits | hover := hcase
      · rw [Nat.mod_eq_of_lt hfits]
        exact hdivpos
      · omega
    have hne : div.setWidth w ≠ 0 := by
      rw [← Word.pos_iff_ne_zero, BitVec.lt_def, hnarrow]
      exact hnpos
    have hq := toNat_fullChunks hw l.size div
    obtain hfits | hover := hcase
    · rw [Nat.mod_eq_of_lt hfits] at hq
      have hmul := Nat.div_mul_le_self l.size.toNat div.toNat
      have hmod := Nat.mod_lt l.size.toNat hdivpos
      have hdm := Nat.div_add_mod' l.size.toNat div.toNat
      have hfull : ((l.size / div.setWidth w).setWidth 32 * div).toNat =
          l.size.toNat / div.toNat * div.toNat := by
        rw [BitVec.toNat_mul, hq, Nat.mod_eq_of_lt (by omega)]
      exact emitsOnce_of_full hw hn hcached hu hdiv hne rfl hfull (by omega) (by omega)
    · have hfull : ((l.size / div.setWidth w).setWidth 32 * div).toNat = 0 * div.toNat := by
        rw [BitVec.toNat_mul, hq, Nat.div_eq_of_lt hover]
        simp
      have hmodle := Nat.mod_le div.toNat (2 ^ w)
      exact emitsOnce_of_full hw hn hcached hu hdiv hne rfl hfull (by omega) (by omega)

/-- Five 16-bit values in two intervals, with their cache. -/
def cachedChunks : ListIntervals 16 32 where
  intervals := [⟨3, 5⟩, ⟨10, 13⟩]
  indexCache := [2, 5]
  cacheEntrySize := 1

/-- A generator that counts from 0. -/
def countingUprng : Uprng Unit 16 where
  State := BitVec 16 × BitVec 16
  init _ max := (0, max)
  next st := (st.1, (st.1 + 1, st.2))
  getStep st step := st.1 + step
  max st := st.2

theorem randomChunks_iff_counting : cachedChunks.EmitsOnce countingUprng () [] 2 :=
  (randomChunks_iff (by decide) countingUprng () { intervals := cachedChunks.intervals }
    cachedChunks 1 ⟨by decide, List.pairwise_pair.mpr (by decide)⟩ (by decide)
    (by unfold Uprng.Enumerates; decide) [] 2).mpr (.inl (by decide))

/-- A chunk size of `2^16` over 16-bit values is a division by zero. -/
theorem not_randomChunks_high :
    Normal cachedChunks.intervals ∧
      ({ intervals := cachedChunks.intervals } : ListIntervals 16 32).createIndexCache 1 =
        some cachedChunks ∧
      countingUprng.Enumerates () cachedChunks.size ∧
      ¬ cachedChunks.EmitsOnce countingUprng () [] 0x10000 := by
  refine ⟨⟨by decide, List.pairwise_pair.mpr (by decide)⟩, by decide, ?_, ?_⟩
  · unfold Uprng.Enumerates
    decide
  · exact not_emitsOnce (by decide) rfl (by decide) (by decide)

end Leeloo
