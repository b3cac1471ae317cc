/-
Leeloo.ListIntervals — the class `list_intervals<Interval, SizeType>` of
`list_intervals.h`.

`w` is the width of the base type and `s` the width of `SizeType` (32 by
default). A `size_t` is a `Nat` that wraps explicitly (`sizeT`) where the
source adds or multiplies; a `ssize_t` is an `Int`. A function that
indexes a vector returns `Option`: `none` is a read outside the vector or
a failed `assert`. A loop that has no bound in the source carries a fuel,
and `none` also stands for running out of it, so a `some` result says that
the loop ends.

`tbb::parallel_sort` does not say in which order it leaves intervals of
equal lower bound. Every call of `aggregate` therefore takes the two sorts
it makes as an argument (`Sorts`), and the theorems quantify over it.
-/
import Leeloo.Interval
import Leeloo.Lib.UnstableSort

namespace Leeloo

open Leeloo.Interval

/-- `size_t` arithmetic, modulo `2^64`. -/
def sizeT (n : Nat) : Nat := n % 2 ^ 64

/-- `tbb::parallel_sort` with `cmp_f`. -/
abbrev ParallelSort (w : Nat) : Type := UnstableSort (HalfOpen.lower : Interval w → BitVec w)

/-- The two sorts one call of `aggregate` may make. -/
structure Sorts (w : Nat) where
  removed : ParallelSort w
  stored : ParallelSort w

/-- Both sorts keep the order of ties. -/
def Sorts.insertion (w : Nat) : Sorts w := ⟨.insertion _, .insertion _⟩

/-- The data members of `list_intervals`. -/
structure ListIntervals (w s : Nat) where
  intervals : List (Interval w) := []
  /-- `_excluded_intervals`, reached through `removed_intervals()`. -/
  removedIntervals : List (Interval w) := []
  indexCache : List (BitVec s) := []
  cacheEntrySize : Nat := 0
  deriving DecidableEq, Repr

/-! ## The merge of `aggregate_container` -/

/-- The loop of `aggregate_container` over `[it, ints.end())`, with the
last `push_back`. -/
def aggregateLoop {w : Nat} (curMerge : Interval w) (ret : List (Interval w)) :
    List (Interval w) → List (Interval w)
  | [] => ret ++ [curMerge]
  | curInt :: rest =>
    if overlap curMerge curInt then
      aggregateLoop (hull curMerge curInt) ret rest
    else
      aggregateLoop curInt (ret ++ [curMerge]) rest

/-- `aggregate_container`. -/
def aggregateContainer {w : Nat} (sort : ParallelSort w) (ints : List (Interval w)) :
    List (Interval w) :=
  if ints.length ≤ 1 then ints
  else
    match sort.run ints with
    | [] => []
    | front :: rest => aggregateLoop front [] rest

/-! ## The subtraction of `split_merged_interval_removed` -/

/-- The first loop: advance the shared cursor past the removed intervals
that end below `cur_merge_`. A cursor is the list from its position on. -/
def skipRemoved {w : Nat} (curMerge_ : Interval w) : List (Interval w) → List (Interval w)
  | [] => []
  | r :: rest => if r.upper < curMerge_.lower then skipRemoved curMerge_ rest else r :: rest

/-- One pass of the `do` body: cut `cur_merge` with one removed interval. -/
def cutMerged {w : Nat} (curMerge : Interval w) (ret : List (Interval w)) (r : Interval w) :
    Interval w × List (Interval w) :=
  if r.lower ≤ curMerge.lower ∧ curMerge.upper ≤ r.upper then
    (Interval.empty, ret)
  else if r.lower ≤ curMerge.lower ∧ r.upper ≤ curMerge.upper ∧ curMerge.lower ≤ r.upper then
    (setLower curMerge r.upper, ret)
  else if curMerge.lower ≤ r.lower ∧ curMerge.upper ≤ r.upper ∧ r.lower ≤ curMerge.upper then
    (setUpper curMerge r.lower, ret)
  else if curMerge.lower ≤ r.lower ∧ r.upper ≤ curMerge.upper then
    (setLower curMerge r.upper, ret ++ [⟨curMerge.lower, r.lower⟩])
  else
    (curMerge, ret)

/-- The `do … while` loop on the local copy of the cursor, which stands on
`r`. -/
def cutLoop {w : Nat} (curMerge : Interval w) (ret : List (Interval w)) (r : Interval w) :
    List (Interval w) → Interval w × List (Interval w)
  | [] => cutMerged curMerge ret r
  | next :: rest =>
    let cut := cutMerged curMerge ret r
    if next.lower < cut.1.upper then cutLoop cut.1 cut.2 next rest else cut

/-- The final `if (cur_merge.width() > 0) ret.push_back(cur_merge)`. -/
def pushNonEmpty {w : Nat} (curMerge : Interval w) (ret : List (Interval w)) :
    List (Interval w) :=
  if 0 < curMerge.width then ret ++ [curMerge] else ret

/-- `split_merged_interval_removed`: the new `ret` and the new cursor. -/
def splitMergedIntervalRemoved {w : Nat} (curMerge_ : Interval w) (ret : List (Interval w))
    (itRemoved : List (Interval w)) : List (Interval w) × List (Interval w) :=
  match skipRemoved curMerge_ itRemoved with
  | [] => (pushNonEmpty curMerge_ ret, [])
  | r :: rest =>
    let cut := cutLoop curMerge_ ret r rest
    (pushNonEmpty cut.1 cut.2, r :: rest)

/-- The loop of `aggregate` over `[it, intervals().end())`, with the last
split. -/
def aggregateRemovedLoop {w : Nat} (curMerge : Interval w)
    (ret itRemoved : List (Interval w)) : List (Interval w) → List (Interval w)
  | [] => (splitMergedIntervalRemoved curMerge ret itRemoved).1
  | curInt :: rest =>
    if overlap curMerge curInt then
      aggregateRemovedLoop (hull curMerge curInt) ret itRemoved rest
    else
      let split := splitMergedIntervalRemoved curMerge ret itRemoved
      aggregateRemovedLoop curInt split.1 split.2 rest

namespace ListIntervals

variable {w s : Nat}

/-! ## Adding and removing -/

/-- `add(interval_type const&)`. -/
def add (l : ListIntervals w s) (i : Interval w) : ListIntervals w s :=
  { l with intervals := l.intervals ++ [i] }

/-- `remove(interval_type const&)`. -/
def remove (l : ListIntervals w s) (i : Interval w) : ListIntervals w s :=
  { l with removedIntervals := l.removedIntervals ++ [i] }

/-- `add(list_intervals const&)`. -/
def addList (l o : ListIntervals w s) : ListIntervals w s :=
  { l with intervals := l.intervals ++ o.intervals }

/-- `remove(list_intervals const&)`. -/
def removeList (l o : ListIntervals w s) : ListIntervals w s :=
  { l with removedIntervals := l.removedIntervals ++ o.intervals }

/-- `clear`. -/
def clear (l : ListIntervals w s) : ListIntervals w s :=
  { l with intervals := [], removedIntervals := [] }

/-- `aggregate`. -/
def aggregate (sorts : Sorts w) (l : ListIntervals w s) : ListIntervals w s :=
  if l.removedIntervals.length = 0 then
    { l with intervals := aggregateContainer sorts.stored l.intervals }
  else if l.intervals.length = 0 then l
  else
    let removed := aggregateContainer sorts.removed l.removedIntervals
    match sorts.stored.run l.intervals with
    | [] => l
    | front :: rest =>
      { l with
        intervals := aggregateRemovedLoop front [] removed rest
        removedIntervals := [] }

/-! ## Prefix rounding -/

/-- `prefix2mask`, for a prefix of at most `w` bits. -/
def prefix2mask (w : Nat) (pfx : Nat) : BitVec w :=
  if pfx = 0 then ~~~0 else (1#w <<< (w - pfx)) - 1

/-- The loop body of `aggregate_max_prefix_impl`. -/
def roundInterval (strict : Bool) (mask : BitVec w) (it : Interval w) : Interval w :=
  let maxSize := mask + 1
  if it.width < maxSize ∨ (¬ strict ∧ it.upper &&& mask ≠ 0) then
    ⟨it.lower &&& ~~~mask, (it.upper ||| mask) + 1⟩
  else it

/-- `aggregate_max_prefix_impl<strict>`; `sorts` and `sorts'` are those of
its two calls of `aggregate`. The loop runs over the first `org_size`
intervals, a `size_type`. -/
def aggregateMaxPrefixImpl (strict : Bool) (sorts sorts' : Sorts w) (minPrefix : Nat)
    (l : ListIntervals w s) : ListIntervals w s :=
  if minPrefix = 0 then l
  else
    let agg := l.aggregate sorts
    let mask := prefix2mask w minPrefix
    let orgSize := (BitVec.ofNat s agg.intervals.length).toNat
    let rounded := (agg.intervals.take orgSize).map (roundInterval strict mask) ++
      agg.intervals.drop orgSize
    { agg with intervals := rounded }.aggregate sorts'

/-- `aggregate_max_prefix`. -/
def aggregateMaxPrefix (sorts sorts' : Sorts w) (minPrefix : Nat) (l : ListIntervals w s) :
    ListIntervals w s :=
  aggregateMaxPrefixImpl false sorts sorts' minPrefix l

/-- `aggregate_max_prefix_strict`. -/
def aggregateMaxPrefixStrict (sorts sorts' : Sorts w) (minPrefix : Nat) (l : ListIntervals w s) :
    ListIntervals w s :=
  aggregateMaxPrefixImpl true sorts sorts' minPrefix l

/-! ## Size, rank and lookup -/

/-- `size`, summed in the base type. -/
def size (l : ListIntervals w s) : BitVec w :=
  l.intervals.foldl (fun ret i => ret + i.width) 0

/-- `operator==`, the index loop over two vectors of one length. -/
def opEq (l o : ListIntervals w s) : Bool :=
  if l.intervals.length ≠ o.intervals.length then false
  else (l.intervals.zip o.intervals).all fun p =>
    !(decide (p.1.lower ≠ p.2.lower) || decide (p.1.upper ≠ p.2.upper))

/-- The loop of `get_rth_value`. The subtraction is made in the base type;
the result is a `size_type`, and `-1` is its largest value. -/
def getRthValueLoop (s : Nat) (cur : BitVec w) : List (Interval w) → BitVec s
  | [] => BitVec.allOnes s
  | it :: rest =>
    if cur < it.width then (it.upper - (it.width - cur)).setWidth s
    else getRthValueLoop s (cur - it.width) rest

/-- `get_rth_value(r, interval_start, interval_end)`. -/
def getRthValue (l : ListIntervals w s) (r : BitVec w) (intervalStart intervalEnd : Nat) :
    BitVec s :=
  getRthValueLoop s r ((l.intervals.drop intervalStart).take (intervalEnd - intervalStart))

/-- `at`, with its `assert(r < size())`. -/
def at_ (l : ListIntervals w s) (r : BitVec s) : Option (BitVec w) :=
  if r.toNat < l.size.toNat then
    some ((l.getRthValue (r.setWidth w) 0 l.intervals.length).setWidth w)
  else none

/-- The outer loop of `create_index_cache`. -/
def createIndexCacheLoop (ints : List (Interval w)) (cacheEntrySize : Nat) :
    Nat → Nat → BitVec s → List (BitVec s) → List (BitVec s)
  | 0, _, _, cache => cache
  | fuel + 1, i, curSize, cache =>
    if i < ints.length then
      let jEnd := min ints.length (sizeT (i + cacheEntrySize))
      let block := (ints.drop i).take (jEnd - i)
      let curSize := block.foldl (fun cur it => cur + it.width.setWidth s) curSize
      createIndexCacheLoop ints cacheEntrySize fuel (sizeT (i + cacheEntrySize)) curSize
        (cache ++ [curSize])
    else cache

/-- `create_index_cache`, with its `assert(cache_entry_size > 0)`. -/
def createIndexCache (l : ListIntervals w s) (cacheEntrySize : BitVec 64) :
    Option (ListIntervals w s) :=
  if 0 < cacheEntrySize.toNat then
    some { l with
      cacheEntrySize := cacheEntrySize.toNat
      indexCache :=
        createIndexCacheLoop l.intervals cacheEntrySize.toNat l.intervals.length 0 0 [] }
  else none

/-- How the dichotomy of `get_cached_interval_idx` ends: on an entry equal
to `r`, or with a window of at most four entries from `a` on. -/
inductive Probe where
  | lucky (mid : Nat)
  | window (a : Nat)
  deriving DecidableEq, Repr

/-- The dichotomy loop of `get_cached_interval_idx`. -/
def dichotomyLoop (cache : List (BitVec s)) (r : BitVec s) : Nat → Nat → Nat → Option Probe
  | 0, _, _ => none
  | fuel + 1, a, b =>
    if 4 < b - a then do
      let mid := (b + a) / 2
      let vmid ← cache[mid]?
      if vmid = r then some (.lucky mid)
      else if vmid < r then dichotomyLoop cache r fuel mid b
      else dichotomyLoop cache r fuel a mid
    else some (.window a)

/-- The unbounded loop `while ((v = _index_cache[a]) < r) a++`, over the
cache from `a` on. -/
def finishLoop (r : BitVec s) (a : Nat) : List (BitVec s) → Option Nat
  | [] => none
  | v :: rest => if v < r then finishLoop r (a + 1) rest else some a

/-- `get_cached_interval_idx`: the interval index and `rem`. -/
def getCachedIntervalIdx (l : ListIntervals w s) (r : BitVec s) : Option (Nat × Int) := do
  match ← dichotomyLoop l.indexCache r (l.indexCache.length + 1) 0 l.indexCache.length with
  | .lucky mid => some (sizeT ((mid + 1) * l.cacheEntrySize), 0)
  | .window a0 =>
    let a ← finishLoop r a0 (l.indexCache.drop a0)
    if 0 < a then
      let prev ← l.indexCache[a - 1]?
      some (sizeT (a * l.cacheEntrySize), (r.toNat : Int) - (prev.toNat : Int))
    else
      some (sizeT (a * l.cacheEntrySize), (r.toNat : Int))

/-- `at_cached`, with its `assert(r < size() && _cache_entry_size > 0)`. -/
def atCached (l : ListIntervals w s) (r : BitVec w) : Option (BitVec w) := do
  if r < l.size ∧ 0 < l.cacheEntrySize then
    let (intervalIdx, cur) ← l.getCachedIntervalIdx (r.setWidth s)
    if cur = 0 then
      let it ← l.intervals[intervalIdx]?
      some it.lower
    else
      some ((l.getRthValue (BitVec.ofInt w cur) intervalIdx l.intervals.length).setWidth w)
  else none

/-- The final loop of `contains`, over `n` indices from `i` on. -/
def containsScan (l : ListIntervals w s) (v : BitVec w) : Nat → Nat → Option Bool
  | 0, _ => some false
  | n + 1, i => do
    let it ← l.intervals[i]?
    if it.contains v then some true else containsScan l v n (i + 1)

/-- The dichotomy of `contains`; `a`, `b` and `mid` are `size_type`s. -/
def containsLoop (l : ListIntervals w s) (v : BitVec w) :
    Nat → BitVec s → BitVec s → Option Bool
  | 0, _, _ => none
  | fuel + 1, a, b =>
    if 4 < (b - a).toNat then do
      let mid := (b + a) / 2
      let it ← l.intervals[mid.toNat]?
      if it.contains v then some true
      else if v < it.lower then containsLoop l v fuel a mid
      else containsLoop l v fuel mid b
    else containsScan l v (b.toNat - a.toNat) a.toNat

/-- `contains`. -/
def contains (l : ListIntervals w s) (v : BitVec w) : Option Bool :=
  containsLoop l v (l.intervals.length + 1) 0 (BitVec.ofNat s l.intervals.length)

end ListIntervals

end Leeloo
