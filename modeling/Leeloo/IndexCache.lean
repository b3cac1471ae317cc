/-
Leeloo.IndexCache — `create_index_cache` and `at_cached`.

After `create_index_cache(c)` entry `j` of the cache is the number of
values in the first `(j + 1) * c` intervals (`createIndexCache_getElem?`).
The lookup needs no monotonicity: the dichotomy keeps `cache[a] < r`
unless `a = 0`, the forward scan keeps it, so the scan stops on a block
below which fewer than `r` values lie (`getCachedIntervalIdx_spec`). From
there the linear walk of `at_cached` is the linear walk of `at` with the
values below the block subtracted.
-/
import Leeloo.Rank

namespace Leeloo

open HalfOpen Leeloo.Interval ListIntervals

variable {w s : Nat}

/-! ## `create_index_cache` -/

theorem sizeT_of_lt {n : Nat} (h : n < 2 ^ 64) : sizeT n = n := Nat.mod_eq_of_lt h

/-- The end of a block does not wrap: it is `c` or at most twice its
start. -/
theorem sizeT_block_end {c e n : Nat} (hc64 : c < 2 ^ 64) (hn : n ≤ 2 ^ 63) (hi : e * c < n) :
    sizeT (e * c + c) = (e + 1) * c := by
  have hwrap : e * c + c < 2 ^ 64 := by
    cases e with
    | zero => simpa using hc64
    | succ e =>
      have hle : c ≤ (e + 1) * c := Nat.le_mul_of_pos_left c (by omega)
      omega
  rw [sizeT_of_lt hwrap, Nat.add_mul, Nat.one_mul]

/-- The intervals of a block, the last one cut at the end of the list. -/
theorem take_block (ints : List (Interval w)) (c e : Nat) :
    (ints.drop (e * c)).take (min ints.length ((e + 1) * c) - e * c) =
      (ints.drop (e * c)).take c := by
  rw [Nat.add_mul, Nat.one_mul]
  by_cases hend : e * c + c ≤ ints.length
  · rw [min_eq_right hend, Nat.add_sub_cancel_left]
  · rw [min_eq_left (by omega), List.take_of_length_le (by simp),
      List.take_of_length_le (by simp; omega)]

/-- The outer loop appends one entry a block: entry `j` counts the values
of the first `(j + 1) * c` intervals. -/
theorem createIndexCacheLoop_getElem? {ints : List (Interval w)} {c : Nat} (hws : w ≤ s)
    (hc : 0 < c) (hc64 : c < 2 ^ 64) (hlen : ints.length ≤ 2 ^ 63)
    (hsum : widthSum ints < 2 ^ s) (fuel e : Nat) (cur : BitVec s) (cache : List (BitVec s))
    (hfuel : ints.length ≤ e * c + fuel) (he : cache.length = e)
    (hcur : cur.toNat = widthSum (ints.take (e * c))) (j : Nat) :
    (createIndexCacheLoop ints c fuel (e * c) cur cache)[j]? =
      if j < e then cache[j]?
      else if j * c < ints.length then
        some (BitVec.ofNat s (widthSum (ints.take ((j + 1) * c))))
      else none := by
  induction fuel generalizing e cur cache with
  | zero =>
    rw [createIndexCacheLoop]
    by_cases hj : j < e
    · rw [if_pos hj]
    · have hjc : e * c ≤ j * c := Nat.mul_le_mul_right c (by omega)
      rw [if_neg hj, if_neg (by omega), List.getElem?_eq_none (by omega)]
  | succ fuel ih =>
    rw [createIndexCacheLoop]
    by_cases hi : e * c < ints.length
    · rw [if_pos hi]
      have hacc : widthSum (ints.take (e * c)) + widthSum ((ints.drop (e * c)).take c) =
          widthSum (ints.take ((e + 1) * c)) := by
        rw [widthSum_take_add, Nat.add_mul, Nat.one_mul]
      have hle := widthSum_take_le ints ((e + 1) * c)
      have hcur' : (((ints.drop (e * c)).take c).foldl
          (fun cur it => cur + it.width.setWidth s) cur).toNat =
            widthSum (ints.take ((e + 1) * c)) := by
        rw [toNat_foldl_width hws _ _ (by omega), hcur, hacc]
      simp only [sizeT_block_end hc64 hlen hi, take_block]
      rw [ih (e + 1) _ _ (by rw [Nat.add_mul]; omega) (by simp [he]) hcur']
      by_cases hj : j < e
      · rw [if_pos (by omega), if_pos hj, List.getElem?_append_left (by omega)]
      · by_cases hje : j = e
        · subst hje
          rw [if_pos (by omega), if_neg hj, if_pos hi,
            List.getElem?_append_right (by omega), he, Nat.sub_self]
          simp only [List.getElem?_cons_zero, Option.some.injEq]
          apply BitVec.eq_of_toNat_eq
          rw [hcur', BitVec.toNat_ofNat, Nat.mod_eq_of_lt (by omega)]
        · rw [if_neg (by omega), if_neg hj]
    · rw [if_neg hi]
      by_cases hj : j < e
      · rw [if_pos hj]
      · have hjc : e * c ≤ j * c := Nat.mul_le_mul_right c (by omega)
        rw [if_neg hj, if_neg (by omega), List.getElem?_eq_none (by omega)]

/-- The state after `create_index_cache`, with the intervals unchanged
since: entry `j` is the number of values below the end of block `j`. -/
structure Cached (l : ListIntervals w s) : Prop where
  pos : 0 < l.cacheEntrySize
  getElem? : ∀ j, l.indexCache[j]? =
    if j * l.cacheEntrySize < l.intervals.length then
      some (BitVec.ofNat s (widthSum (l.intervals.take ((j + 1) * l.cacheEntrySize))))
    else none

theorem createIndexCache_cached {l l' : ListIntervals w s} {c : BitVec 64} (hws : w ≤ s)
    (hlen : l.intervals.length ≤ 2 ^ 63) (hsum : widthSum l.intervals < 2 ^ s)
    (h : l.createIndexCache c = some l') :
    l'.intervals = l.intervals ∧ Cached l' := by
  unfold createIndexCache at h
  split at h
  · rename_i hc
    cases h
    refine ⟨rfl, hc, fun j => ?_⟩
    have hloop := createIndexCacheLoop_getElem? hws hc c.isLt hlen hsum l.intervals.length 0 0 []
      (by omega) rfl (by simp) j
    simpa using hloop
  · cases h

/-! ## The lookup -/

/-- Below a block of the cache: nothing, or fewer than `r` values. -/
def BelowBlock (cache : List (BitVec s)) (r : BitVec s) (a : Nat) : Prop :=
  a = 0 ∨ ∃ v, cache[a]? = some v ∧ v < r

/-- The dichotomy ends on an entry equal to `r`, or on a window whose
first entry is below `r` unless it is the first of the cache. -/
theorem dichotomyLoop_spec (cache : List (BitVec s)) (r : BitVec s) (fuel a b : Nat)
    (hb : b ≤ cache.length) (hab : a ≤ b) (hfuel : b - a < fuel) (hbelow : BelowBlock cache r a) :
    (∃ mid, dichotomyLoop cache r fuel a b = some (.lucky mid) ∧ cache[mid]? = some r) ∨
    (∃ a', dichotomyLoop cache r fuel a b = some (.window a') ∧ a' ≤ b ∧
      BelowBlock cache r a') := by
  induction fuel generalizing a b with
  | zero => omega
  | succ fuel ih =>
    rw [dichotomyLoop]
    by_cases hwin : 4 < b - a
    · rw [if_pos hwin]
      have hmid : (b + a) / 2 < cache.length := by omega
      simp only [List.getElem?_eq_getElem hmid, Option.bind_eq_bind, Option.bind_some]
      by_cases heq : cache[(b + a) / 2] = r
      · rw [if_pos heq]
        exact Or.inl ⟨_, rfl, by rw [List.getElem?_eq_getElem hmid, heq]⟩
      · rw [if_neg heq]
        by_cases hlt : cache[(b + a) / 2] < r
        · rw [if_pos hlt]
          exact ih _ b hb (by omega) (by omega)
            (Or.inr ⟨_, List.getElem?_eq_getElem hmid, hlt⟩)
        · rw [if_neg hlt]
          obtain ⟨mid, h⟩ | ⟨a', h, ha', hbel⟩ :=
            ih a ((b + a) / 2) (by omega) (by omega) (by omega) hbelow
          · exact Or.inl ⟨mid, h⟩
          · exact Or.inr ⟨a', h, by omega, hbel⟩
    · rw [if_neg hwin]
      exact Or.inr ⟨a, rfl, hab, hbelow⟩

/-- The forward scan stops at the first entry not below `r`, when there is
one at or after `a`; the entry before it is below `r`. -/
theorem finishLoop_spec (cache : List (BitVec s)) (r : BitVec s) (a n : Nat)
    (hn : a ≤ n) (hend : ∃ v, cache[n]? = some v ∧ r ≤ v)
    (hbelow : BelowBlock cache r a ∨ ∃ v, cache[a - 1]? = some v ∧ v < r) :
    ∃ a', finishLoop r a (cache.drop a) = some a' ∧ a' ≤ n ∧
      (a' = 0 ∨ ∃ v, cache[a' - 1]? = some v ∧ v < r) := by
  obtain ⟨vn, hvn, hrn⟩ := hend
  have hnlen : n < cache.length := (List.getElem?_eq_some_iff.mp hvn).1
  -- the distance to the entry that stops the scan at the latest
  induction hd : n - a generalizing a with
  | zero =>
    obtain rfl : a = n := by omega
    have hva : cache[a] = vn := (List.getElem?_eq_some_iff.mp hvn).2
    rw [List.drop_eq_getElem_cons hnlen, finishLoop, hva, if_neg (not_lt.mpr hrn)]
    refine ⟨a, rfl, le_refl _, ?_⟩
    obtain (h0 | ⟨v, hv, hlt⟩) | hprev := hbelow
    · exact Or.inl h0
    · rw [hvn] at hv
      cases hv
      exact (not_lt.mpr hrn hlt).elim
    · exact Or.inr hprev
  | succ d ih =>
    have halen : a < cache.length := by omega
    rw [List.drop_eq_getElem_cons halen, finishLoop]
    by_cases hlt : cache[a] < r
    · rw [if_pos hlt]
      exact ih (a + 1) (by omega) (Or.inr ⟨_, List.getElem?_eq_getElem halen, hlt⟩) (by omega)
    · rw [if_neg hlt]
      refine ⟨a, rfl, hn, ?_⟩
      obtain (h0 | ⟨v, hv, hvr⟩) | hprev := hbelow
      · exact Or.inl h0
      · rw [List.getElem?_eq_getElem halen] at hv
        cases hv
        exact (hlt hvr).elim
      · exact Or.inr hprev

namespace Cached

variable {l : ListIntervals w s}

/-- Entry `j` exists exactly for the blocks of the list, and its value does
not wrap. -/
theorem entry (h : Cached l) (hsum : widthSum l.intervals < 2 ^ s) {j : Nat} {v : BitVec s}
    (hv : l.indexCache[j]? = some v) :
    j * l.cacheEntrySize < l.intervals.length ∧
      v.toNat = widthSum (l.intervals.take ((j + 1) * l.cacheEntrySize)) := by
  rw [h.getElem?] at hv
  split at hv
  · rename_i hj
    cases hv
    have hle := widthSum_take_le l.intervals ((j + 1) * l.cacheEntrySize)
    exact ⟨hj, by rw [BitVec.toNat_ofNat, Nat.mod_eq_of_lt (by omega)]⟩
  · cases hv

/-- The last entry counts every value. -/
theorem last (h : Cached l) (hne : l.intervals ≠ []) :
    l.indexCache[(l.intervals.length - 1) / l.cacheEntrySize]? =
      some (BitVec.ofNat s (widthSum l.intervals)) := by
  have hlen : 0 < l.intervals.length := List.length_pos_iff.mpr hne
  have hdiv := Nat.div_mul_le_self (l.intervals.length - 1) l.cacheEntrySize
  have hlt := Nat.lt_mul_div_succ (l.intervals.length - 1) h.pos
  rw [h.getElem?, if_pos (by omega), List.take_of_length_le]
  rw [Nat.mul_comm]
  omega

/-- `get_cached_interval_idx` finds the interval index of a block and a
remainder: the rank minus the number of values below the block. It is 0
only if the block starts at that rank. -/
theorem getCachedIntervalIdx_spec (h : Cached l) (hws : widthSum l.intervals < 2 ^ s)
    (hlen : l.intervals.length ≤ 2 ^ 63) {r : BitVec s} (hr : r.toNat < widthSum l.intervals) :
    ∃ idx k : Nat, l.getCachedIntervalIdx r = some (idx, (k : Int)) ∧
      idx < l.intervals.length ∧ r.toNat = widthSum (l.intervals.take idx) + k := by
  have hne : l.intervals ≠ [] := by
    intro hnil
    rw [hnil] at hr
    simp at hr
  have hlast := h.last hne
  have hlastlt : (l.intervals.length - 1) / l.cacheEntrySize < l.indexCache.length :=
    (List.getElem?_eq_some_iff.mp hlast).1
  unfold getCachedIntervalIdx
  obtain ⟨mid, hmid, hentry⟩ | ⟨a0, ha0, _, hbelow⟩ :=
    dichotomyLoop_spec l.indexCache r (l.indexCache.length + 1) 0 l.indexCache.length
      (le_refl _) (Nat.zero_le _) (by omega) (Or.inl rfl)
  · -- an entry equal to `r`: the rank is the first of the next block
    obtain ⟨hj, hval⟩ := h.entry hws hentry
    have hlt : (mid + 1) * l.cacheEntrySize < l.intervals.length := by
      by_contra hge
      rw [List.take_of_length_le (by omega)] at hval
      omega
    refine ⟨(mid + 1) * l.cacheEntrySize, 0, ?_, hlt, hval⟩
    simp only [hmid, Option.bind_eq_bind, Option.bind_some, sizeT_of_lt (by omega :
      (mid + 1) * l.cacheEntrySize < 2 ^ 64), Nat.cast_zero]
  · -- a window: the scan stops at the last entry at the latest
    have hlastle : r ≤ BitVec.ofNat s (widthSum l.intervals) := by
      rw [BitVec.le_def, BitVec.toNat_ofNat, Nat.mod_eq_of_lt hws]
      omega
    have ha0le : a0 ≤ (l.intervals.length - 1) / l.cacheEntrySize := by
      obtain h0 | ⟨v, hv, _⟩ := hbelow
      · rw [h0]
        exact Nat.zero_le _
      · have hj := (h.entry hws hv).1
        rw [Nat.le_div_iff_mul_le h.pos]
        omega
    obtain ⟨a, ha, han, hprev⟩ := finishLoop_spec l.indexCache r a0 _ ha0le
      ⟨_, hlast, hlastle⟩ (Or.inl hbelow)
    have hblock : a * l.cacheEntrySize < l.intervals.length := by
      have hmul := (Nat.le_div_iff_mul_le h.pos).mp han
      have hlen : 0 < l.intervals.length := List.length_pos_iff.mpr hne
      omega
    have hsz : sizeT (a * l.cacheEntrySize) = a * l.cacheEntrySize := sizeT_of_lt (by omega)
    simp only [ha0, Option.bind_eq_bind, Option.bind_some, ha, hsz]
    cases a with
    | zero =>
      refine ⟨0, r.toNat, ?_, by omega, by simp⟩
      simp
    | succ a =>
      obtain h0 | ⟨v, hv, hvr⟩ := hprev
      · omega
      · -- the entry before block `a + 1` counts the values below it
        rw [Nat.add_sub_cancel] at hv
        have hval := (h.entry hws hv).2
        have hlt : v.toNat < r.toNat := hvr
        refine ⟨(a + 1) * l.cacheEntrySize, r.toNat - v.toNat, ?_, hblock, by omega⟩
        rw [if_pos (by omega), Nat.add_sub_cancel, hv]
        simp only [Option.bind_some, Int.ofNat_sub (le_of_lt hlt)]

end Cached

/-! ## `at_cached` is `at` -/

/-- `at` walks all the intervals. -/
theorem at_eq {l : ListIntervals w s} {r : BitVec s}
    (hr : r.toNat < l.size.toNat) :
    l.at_ r = some ((getRthValueLoop s (r.setWidth w) l.intervals).setWidth w) := by
  unfold at_
  rw [if_pos hr, getRthValue_to_end, List.drop_zero]

/-- On a cached list both lookups find the same value at every rank. -/
theorem Cached.atCached_at (hws : w ≤ s) {l : ListIntervals w s} (h : Cached l)
    (hp : AllProper l.intervals) (hsum : widthSum l.intervals < 2 ^ w)
    (hlen : l.intervals.length ≤ 2 ^ 63) {r : BitVec w} (hr : r < l.size) :
    l.atCached r = l.at_ (r.setWidth s) := by
  have hpow : 2 ^ w ≤ 2 ^ s := Nat.pow_le_pow_right (by omega) hws
  have hrs : (r.setWidth s).toNat = r.toNat := BitVec.toNat_setWidth_of_le hws
  have hrn : r.toNat < widthSum l.intervals := by
    rw [← toNat_size hsum]
    exact hr
  obtain ⟨idx, k, hidx, hlt, hrk⟩ :=
    h.getCachedIntervalIdx_spec (r := r.setWidth s) (by omega) hlen (by omega)
  -- the walk of `at` reaches the same interval with the same remainder
  have hwalk : getRthValueLoop s r l.intervals =
      getRthValueLoop s (BitVec.ofNat w k) (l.intervals.drop idx) := by
    have happ := getRthValueLoop_append (s := s) (l.intervals.take idx) (l.intervals.drop idx) r k
      (hrs ▸ hrk)
    rwa [List.take_append_drop] at happ
  rw [at_eq (hrs.symm ▸ hr), Word.setWidth_setWidth hws]
  unfold atCached
  simp only [if_pos (And.intro hr h.pos), hidx, Option.bind_eq_bind, Option.bind_some]
  by_cases hk : k = 0
  · subst hk
    have hpos : 0 < (l.intervals[idx]).width := by
      have := toNat_width_pos (hp _ (List.getElem_mem hlt))
      rw [BitVec.lt_def]
      simpa using this
    rw [if_pos Nat.cast_zero, List.getElem?_eq_getElem hlt, hwalk, List.drop_eq_getElem_cons hlt,
      getRthValueLoop_head _ (by simpa using hpos), Word.setWidth_setWidth hws]
    simp
  · rw [if_neg (by omega), getRthValue_to_end, hwalk]
    simp

/-- The same where `size_type` is the base type. -/
theorem Cached.atCached_eq {l : ListIntervals w w} (h : Cached l) (hp : AllProper l.intervals)
    (hsum : widthSum l.intervals < 2 ^ w) (hlen : l.intervals.length ≤ 2 ^ 63) {r : BitVec w}
    (hr : r < l.size) : l.atCached r = l.at_ r := by
  rw [h.atCached_at (le_refl w) hp hsum hlen hr, BitVec.setWidth_eq]

/-- **`at_cached` is `at`.** After `create_index_cache`, and whatever is
queued for removal since, both lookups return the same value at every rank
below `size()`, without an access out of bounds. -/
theorem atCached_eq_at (l : ListIntervals 32 32) (c : BitVec 64)
    (hp : ∀ i ∈ l.intervals, i.lower < i.upper)
    (hsum : (l.intervals.map fun i => i.upper.toNat - i.lower.toNat).sum < 2 ^ 32)
    (hc : 1 ≤ c.toNat) :
    ∃ l', l.createIndexCache c = some l' ∧ l'.intervals = l.intervals ∧
      ∀ (removed : List (Interval 32)) (r : BitVec 32),
        r < { l' with removedIntervals := removed }.size →
        ∃ v, { l' with removedIntervals := removed }.atCached r = some v ∧
          { l' with removedIntervals := removed }.at_ r = some v := by
  have hw : (l.intervals.map fun i => i.upper.toNat - i.lower.toNat) =
      l.intervals.map fun i => i.width.toNat :=
    List.map_congr_left fun i hi => (toNat_width (hp i hi)).symm
  have hsum' : widthSum l.intervals < 2 ^ 32 := by
    rw [widthSum, ← hw]
    exact hsum
  have hlen : l.intervals.length ≤ 2 ^ 63 := by
    have := length_le_widthSum hp
    omega
  have hsome : ∃ l', l.createIndexCache c = some l' := by
    unfold createIndexCache
    rw [if_pos (by omega)]
    exact ⟨_, rfl⟩
  obtain ⟨l', hl'⟩ := hsome
  obtain ⟨hints, hcached⟩ := createIndexCache_cached (le_refl 32) hlen hsum' hl'
  refine ⟨l', hl', hints, ?_⟩
  intro removed r hr
  have hcached' : Cached { l' with removedIntervals := removed } :=
    ⟨hcached.pos, hcached.getElem?⟩
  have hp' : AllProper l.intervals := hp
  have heq := hcached'.atCached_eq (by simpa [hints] using hp') (by simpa [hints] using hsum')
    (by simpa [hints] using hlen) hr
  rw [heq]
  exact ⟨_, at_eq hr, at_eq hr⟩

/-- The lookups agree at rank 9 of five intervals cached two by two. -/
theorem atCached_eq_at_blocks :
    let l : ListIntervals 32 32 := { intervals := [⟨0, 1⟩, ⟨4, 7⟩, ⟨10, 12⟩, ⟨20, 24⟩, ⟨30, 33⟩] }
    ∃ l', l.createIndexCache 2 = some l' ∧ l'.intervals = l.intervals ∧
      ∀ (removed : List (Interval 32)) (r : BitVec 32),
        r < { l' with removedIntervals := removed }.size →
        ∃ v, { l' with removedIntervals := removed }.atCached r = some v ∧
          { l' with removedIntervals := removed }.at_ r = some v :=
  atCached_eq_at _ 2 (by decide) (by decide) (by decide)

end Leeloo
