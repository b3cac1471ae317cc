/-
Leeloo.AggregateTheorems — `aggregate` computes the normal form of
union(added) minus union(removed).

The merge half (`aggregateLoop`) is about any list sorted by lower bound,
degenerate intervals included: it keeps the covered set and leaves each
upper bound strictly below every later lower bound. The subtraction half
(`cutLoop`) reduces to `HalfOpen.Cut`: each pass of the `do` body is one
of the ways a cut can grow, and `cutMerged_cases` says once which one.

The removed intervals only need `lower ≤ upper`. When they are proper the
pieces are strictly apart (`rel` is `<`); an empty removed interval may
split a stored one in two touching pieces (`rel` is `≤`), which is what
the step lists of the random generators can contain.
-/
import Leeloo.ListIntervals

namespace Leeloo

open HalfOpen Leeloo.Interval

variable {w s : Nat}

/-! ## The merge loop -/

theorem aggregateLoop_append (cur : Interval w) (ret l : List (Interval w)) :
    aggregateLoop cur ret l = ret ++ aggregateLoop cur [] l := by
  induction l generalizing cur ret with
  | nil => simp [aggregateLoop]
  | cons c rest ih =>
    simp only [aggregateLoop]
    split
    · exact ih _ _
    · rw [ih c (ret ++ [cur]), ih c ([] ++ [cur])]
      simp

theorem aggregateLoop_overlap {cur c : Interval w} (rest : List (Interval w))
    (h : overlap cur c = true) :
    aggregateLoop cur [] (c :: rest) = aggregateLoop (hull cur c) [] rest := by
  rw [aggregateLoop, if_pos h]

theorem aggregateLoop_disjoint {cur c : Interval w} (rest : List (Interval w))
    (h : ¬ overlap cur c = true) :
    aggregateLoop cur [] (c :: rest) = cur :: aggregateLoop c [] rest := by
  rw [aggregateLoop, if_neg h, List.nil_append, aggregateLoop_append]
  rfl

/-- In a sorted list the hull keeps the lower bound of the first. -/
theorem hull_lower {cur c : Interval w} (h : cur.lower ≤ c.lower) :
    (hull cur c).lower = cur.lower := min_eq_left h

theorem lowerSorted_hull {cur c : Interval w} {rest : List (Interval w)}
    (hs : LowerSorted (cur :: c :: rest)) : LowerSorted (hull cur c :: rest) := by
  refine List.pairwise_cons.mpr ⟨fun x hx => ?_, hs.tail.tail⟩
  rw [hull_lower (hs.head_le List.mem_cons_self)]
  exact hs.head_le (List.mem_cons_of_mem _ hx)

/-- Sorted neighbours that `overlap` rejects are strictly separated. -/
theorem lt_of_not_overlap {cur c : Interval w} (hle : cur.lower ≤ c.lower)
    (h : ¬ overlap cur c = true) : cur.upper < c.lower := by
  rw [overlap_iff, not_or, not_and] at h
  exact not_le.mp (h.1 hle)

/-- Merging two sorted neighbours keeps the covered set. -/
theorem covers_hull {cur c : Interval w} (rest : List (Interval w)) (hle : cur.lower ≤ c.lower)
    (hov : overlap cur c = true) : covers (hull cur c :: rest) = covers (cur :: c :: rest) := by
  ext v
  have hhull := mem_hull_iff (v := v) hle ((overlap_iff.mp hov).imp (fun h => h.2) id)
  simp only [mem_covers_cons, hull, min_eq_left hle]
  rw [hhull, or_assoc]

/-- The merge keeps the covered set. -/
theorem covers_aggregateLoop (cur : Interval w) (l : List (Interval w))
    (hs : LowerSorted (cur :: l)) :
    covers (aggregateLoop cur [] l) = covers (cur :: l) := by
  induction l generalizing cur with
  | nil => simp [aggregateLoop]
  | cons c rest ih =>
    have hle : cur.lower ≤ c.lower := hs.head_le List.mem_cons_self
    by_cases hov : overlap cur c = true
    · rw [aggregateLoop_overlap rest hov, ih _ (lowerSorted_hull hs)]
      exact covers_hull rest hle hov
    · rw [aggregateLoop_disjoint rest hov, covers_cons, ih _ hs.tail, covers_cons cur]

/-- No merged interval starts below the first. -/
theorem lower_le_aggregateLoop (cur : Interval w) (l : List (Interval w))
    (hs : LowerSorted (cur :: l)) : ∀ o ∈ aggregateLoop cur [] l, cur.lower ≤ o.lower := by
  induction l generalizing cur with
  | nil =>
    intro o ho
    rw [aggregateLoop, List.nil_append, List.mem_singleton] at ho
    rw [ho]
  | cons c rest ih =>
    have hle : cur.lower ≤ c.lower := hs.head_le List.mem_cons_self
    intro o ho
    by_cases hov : overlap cur c = true
    · rw [aggregateLoop_overlap rest hov] at ho
      have h := ih _ (lowerSorted_hull hs) o ho
      rwa [hull_lower hle] at h
    · rw [aggregateLoop_disjoint rest hov] at ho
      rcases List.mem_cons.mp ho with rfl | ho
      · exact le_refl _
      · exact hle.trans (ih _ hs.tail o ho)

/-- Merged intervals are strictly separated, degenerate ones included. -/
theorem separated_aggregateLoop (cur : Interval w) (l : List (Interval w))
    (hs : LowerSorted (cur :: l)) : Separated (· < ·) (aggregateLoop cur [] l) := by
  induction l generalizing cur with
  | nil => exact List.pairwise_singleton _ _
  | cons c rest ih =>
    have hle : cur.lower ≤ c.lower := hs.head_le List.mem_cons_self
    by_cases hov : overlap cur c = true
    · rw [aggregateLoop_overlap rest hov]
      exact ih _ (lowerSorted_hull hs)
    · rw [aggregateLoop_disjoint rest hov]
      refine List.pairwise_cons.mpr ⟨fun o ho => ?_, ih _ hs.tail⟩
      exact (lt_of_not_overlap hle hov).trans_le (lower_le_aggregateLoop _ _ hs.tail o ho)

theorem hull_upper_le {cur c : Interval w} :
    cur.upper ≤ (hull cur c).upper ∧ c.upper ≤ (hull cur c).upper :=
  ⟨le_max_left _ _, le_max_right _ _⟩

/-- A hull with a proper interval is proper, in a sorted list. -/
theorem proper_hull {cur c : Interval w} (hle : cur.lower ≤ c.lower)
    (h : cur.Proper ∨ c.Proper) : (hull cur c).Proper := by
  rw [Proper, hull_lower hle]
  rcases h with h | h
  · exact lt_of_lt_of_le h hull_upper_le.1
  · exact hle.trans_lt (lt_of_lt_of_le h hull_upper_le.2)

/-- What a hull of overlapping intervals keeps, the merge keeps. -/
theorem aggregateLoop_forall {P : Interval w → Prop}
    (hhull : ∀ a b, overlap a b = true → P a → P b → P (hull a b))
    (cur : Interval w) (l : List (Interval w)) (hp : ∀ i ∈ cur :: l, P i) :
    ∀ o ∈ aggregateLoop cur [] l, P o := by
  induction l generalizing cur with
  | nil =>
    intro o ho
    rw [aggregateLoop, List.nil_append, List.mem_singleton] at ho
    rw [ho]
    exact hp cur List.mem_cons_self
  | cons c rest ih =>
    have hcur : P cur := hp cur List.mem_cons_self
    have htail : ∀ i ∈ c :: rest, P i := fun i hi => hp i (List.mem_cons_of_mem _ hi)
    by_cases hov : overlap cur c = true
    · rw [aggregateLoop_overlap rest hov]
      apply ih
      intro i hi
      rcases List.mem_cons.mp hi with rfl | hi
      · exact hhull cur c hov hcur (htail c List.mem_cons_self)
      · exact htail i (List.mem_cons_of_mem _ hi)
    · rw [aggregateLoop_disjoint rest hov]
      intro o ho
      rcases List.mem_cons.mp ho with rfl | ho
      · exact hcur
      · exact ih c htail o ho

/-- A relation between the bounds that a hull respects: `<` for proper
intervals, `≤` for possibly empty ones. -/
theorem bounds_hull {rel : BitVec w → BitVec w → Prop} (hrel : GapRel rel) {a b : Interval w}
    (ha : rel a.lower a.upper) (hb : rel b.lower b.upper) :
    rel (hull a b).lower (hull a b).upper := by
  -- the lower bound of the hull is that of one of the two
  simp only [hull]
  rcases min_choice a.lower b.lower with hmin | hmin
  · rw [hmin]; exact hrel.trans_le ha hull_upper_le.1
  · rw [hmin]; exact hrel.trans_le hb hull_upper_le.2

theorem bounds_aggregateLoop {rel : BitVec w → BitVec w → Prop} (hrel : GapRel rel)
    (cur : Interval w) (l : List (Interval w))
    (hp : ∀ i ∈ cur :: l, rel i.lower i.upper) :
    ∀ o ∈ aggregateLoop cur [] l, rel o.lower o.upper :=
  aggregateLoop_forall (fun _ _ _ => bounds_hull hrel) cur l hp

/-- Every interval lies in one of the merged ones. -/
theorem exists_within_aggregateLoop (cur : Interval w) (l : List (Interval w)) :
    ∀ i ∈ cur :: l, ∃ o ∈ aggregateLoop cur [] l, o.lower ≤ i.lower ∧ i.upper ≤ o.upper := by
  induction l generalizing cur with
  | nil =>
    intro i hi
    rw [List.mem_singleton.mp hi]
    exact ⟨cur, by simp [aggregateLoop], le_refl _, le_refl _⟩
  | cons c rest ih =>
    intro i hi
    by_cases hov : overlap cur c = true
    · rw [aggregateLoop_overlap rest hov]
      -- the first two lie in their hull, which lies in a merged one
      have hfront : i = cur ∨ i = c →
          ∃ o ∈ aggregateLoop (hull cur c) [] rest, o.lower ≤ i.lower ∧ i.upper ≤ o.upper := by
        intro h
        obtain ⟨o, ho, hlow, hup⟩ := ih (hull cur c) (hull cur c) List.mem_cons_self
        have hbounds : (hull cur c).lower ≤ i.lower ∧ i.upper ≤ (hull cur c).upper := by
          obtain rfl | rfl := h
          · exact ⟨min_le_left _ _, hull_upper_le.1⟩
          · exact ⟨min_le_right _ _, hull_upper_le.2⟩
        exact ⟨o, ho, hlow.trans hbounds.1, hbounds.2.trans hup⟩
      rcases List.mem_cons.mp hi with rfl | hi
      · exact hfront (Or.inl rfl)
      rcases List.mem_cons.mp hi with rfl | hi
      · exact hfront (Or.inr rfl)
      · exact ih _ i (List.mem_cons_of_mem _ hi)
    · rw [aggregateLoop_disjoint rest hov]
      rcases List.mem_cons.mp hi with rfl | hi
      · exact ⟨i, List.mem_cons_self, le_refl _, le_refl _⟩
      · obtain ⟨o, ho, h⟩ := ih c i hi
        exact ⟨o, List.mem_cons_of_mem _ ho, h⟩

/-! ## `aggregate_container` -/

/-- The sort hands the merge loop a sorted list. -/
theorem lowerSorted_run (sort : ParallelSort w) (l : List (Interval w)) :
    LowerSorted (sort.run l) := sort.sorted l

/-- Either the container is kept, or it is the merge of its sort. -/
theorem aggregateContainer_cases (sort : ParallelSort w) (ints : List (Interval w)) :
    (aggregateContainer sort ints = ints ∧ ints.length ≤ 1) ∨
      ∃ front rest, sort.run ints = front :: rest ∧
        aggregateContainer sort ints = aggregateLoop front [] rest := by
  by_cases hlen : ints.length ≤ 1
  · exact Or.inl ⟨by rw [aggregateContainer, if_pos hlen], hlen⟩
  · right
    have hne : ints ≠ [] := by
      rintro rfl
      simp at hlen
    cases hrun : sort.run ints with
    | nil => exact (sort.run_ne_nil hne hrun).elim
    | cons front rest =>
      refine ⟨front, rest, rfl, ?_⟩
      rw [aggregateContainer, if_neg hlen, hrun]

theorem covers_aggregateContainer (sort : ParallelSort w) (ints : List (Interval w)) :
    covers (aggregateContainer sort ints) = covers ints := by
  rcases aggregateContainer_cases sort ints with ⟨h, _⟩ | ⟨front, rest, hrun, h⟩
  · rw [h]
  · rw [h, covers_aggregateLoop front rest (hrun ▸ lowerSorted_run sort ints), ← hrun]
    exact covers_perm (sort.perm ints)

theorem separated_aggregateContainer (sort : ParallelSort w) (ints : List (Interval w)) :
    Separated (· < ·) (aggregateContainer sort ints) := by
  rcases aggregateContainer_cases sort ints with ⟨h, hlen⟩ | ⟨front, rest, hrun, h⟩
  · rw [h]
    match ints, hlen with
    | [], _ => exact List.Pairwise.nil
    | [i], _ => exact List.pairwise_singleton _ _
  · rw [h]
    exact separated_aggregateLoop front rest (hrun ▸ lowerSorted_run sort ints)

theorem aggregateContainer_forall {P : Interval w → Prop}
    (hhull : ∀ a b, overlap a b = true → P a → P b → P (hull a b))
    (sort : ParallelSort w) {ints : List (Interval w)} (hp : ∀ i ∈ ints, P i) :
    ∀ o ∈ aggregateContainer sort ints, P o := by
  rcases aggregateContainer_cases sort ints with ⟨h, _⟩ | ⟨front, rest, hrun, h⟩
  · rw [h]; exact hp
  · rw [h]
    apply aggregateLoop_forall hhull
    intro i hi
    rw [← hrun] at hi
    exact hp i (sort.mem_run.mp hi)

theorem exists_within_aggregateContainer (sort : ParallelSort w) {ints : List (Interval w)}
    {i : Interval w} (hi : i ∈ ints) :
    ∃ o ∈ aggregateContainer sort ints, o.lower ≤ i.lower ∧ i.upper ≤ o.upper := by
  rcases aggregateContainer_cases sort ints with ⟨h, _⟩ | ⟨front, rest, hrun, h⟩
  · rw [h]; exact ⟨i, hi, le_refl _, le_refl _⟩
  · rw [h]
    exact exists_within_aggregateLoop front rest i (hrun ▸ sort.mem_run.mpr hi)

theorem bounds_aggregateContainer {rel : BitVec w → BitVec w → Prop} (hrel : GapRel rel)
    (sort : ParallelSort w) {ints : List (Interval w)}
    (hp : ∀ i ∈ ints, rel i.lower i.upper) :
    ∀ o ∈ aggregateContainer sort ints, rel o.lower o.upper :=
  aggregateContainer_forall (fun _ _ _ => bounds_hull hrel) sort hp

/-- `aggregate_container` computes the normal form. -/
theorem normal_aggregateContainer (sort : ParallelSort w) {ints : List (Interval w)}
    (hp : AllProper ints) : Normal (aggregateContainer sort ints) :=
  ⟨bounds_aggregateContainer gapRel_lt sort hp, separated_aggregateContainer sort ints⟩

theorem aggregateContainer_of_normal (sort : ParallelSort w) {ints : List (Interval w)}
    (h : Normal ints) : aggregateContainer sort ints = ints :=
  (normal_aggregateContainer sort h.proper).ext h (covers_aggregateContainer sort ints)

/-! ## The cut loop -/

/-- What one pass of the `do` body does to a proper `cur_merge` that ends
at or above the cursor: it is swallowed, trimmed below, trimmed above,
split in two, or left alone because the removed interval is beyond it. -/
theorem cutMerged_cases {cur r : Interval w} (ret : List (Interval w))
    (hp : cur.Proper) (hcr : cur.lower ≤ r.upper) (hr : r.lower ≤ r.upper) :
    (cutMerged cur ret r = (Interval.empty, ret) ∧ r.lower ≤ cur.lower ∧ cur.upper ≤ r.upper) ∨
    (cutMerged cur ret r = (⟨r.upper, cur.upper⟩, ret) ∧
      r.lower ≤ cur.lower ∧ r.upper < cur.upper) ∨
    (cutMerged cur ret r = (⟨cur.lower, r.lower⟩, ret) ∧
      cur.lower < r.lower ∧ r.lower ≤ cur.upper ∧ cur.upper ≤ r.upper) ∨
    (cutMerged cur ret r = (⟨r.upper, cur.upper⟩, ret ++ [⟨cur.lower, r.lower⟩]) ∧
      cur.lower < r.lower ∧ r.upper < cur.upper) ∨
    (cutMerged cur ret r = (cur, ret) ∧ cur.upper < r.lower) := by
  have hlt : cur.lower < cur.upper := hp
  rcases le_or_gt r.lower cur.lower with hlow | hlow
  · rcases le_or_gt cur.upper r.upper with hup | hup
    · exact Or.inl ⟨by rw [cutMerged, if_pos ⟨hlow, hup⟩], hlow, hup⟩
    · refine Or.inr (Or.inl ⟨?_, hlow, hup⟩)
      rw [cutMerged, if_neg fun h => not_le.mpr hup h.2, if_pos ⟨hlow, hup.le, hcr⟩]
      rfl
  · have h1 : ¬ (r.lower ≤ cur.lower ∧ cur.upper ≤ r.upper) := fun h => not_le.mpr hlow h.1
    have h2 : ¬ (r.lower ≤ cur.lower ∧ r.upper ≤ cur.upper ∧ cur.lower ≤ r.upper) :=
      fun h => not_le.mpr hlow h.1
    rcases le_or_gt cur.upper r.upper with hup | hup
    · rcases le_or_gt r.lower cur.upper with hin | hout
      · refine Or.inr (Or.inr (Or.inl ⟨?_, hlow, hin, hup⟩))
        rw [cutMerged, if_neg h1, if_neg h2, if_pos ⟨hlow.le, hup, hin⟩]
        rfl
      · refine Or.inr (Or.inr (Or.inr (Or.inr ⟨?_, hout⟩)))
        rw [cutMerged, if_neg h1, if_neg h2, if_neg fun h => not_le.mpr hout h.2.2,
          if_neg fun h => not_le.mpr hout (hr.trans h.2)]
    · refine Or.inr (Or.inr (Or.inr (Or.inl ⟨?_, hlow, hup⟩)))
      rw [cutMerged, if_neg h1, if_neg h2, if_neg fun h => not_le.mpr hup h.2.1,
        if_pos ⟨hlow.le, hup.le⟩]
      rfl

/-- The loop stops where no later removed interval starts below the new
upper bound. -/
theorem cutLoop_stop {cur r : Interval w} {ret rest : List (Interval w)}
    (h : ∀ q ∈ rest, (cutMerged cur ret r).1.upper ≤ q.lower) :
    cutLoop cur ret r rest = cutMerged cur ret r := by
  cases rest with
  | nil => rfl
  | cons q rest =>
    rw [cutLoop]
    exact if_neg (not_lt.mpr (h q List.mem_cons_self))

theorem pushNonEmpty_proper {cur : Interval w} (hp : cur.Proper) (ret : List (Interval w)) :
    pushNonEmpty cur ret = ret ++ [cur] := by
  rw [pushNonEmpty, if_pos (width_pos_iff.mpr (ne_of_lt hp))]

theorem pushNonEmpty_empty (ret : List (Interval w)) :
    pushNonEmpty Interval.empty ret = ret := by
  rw [pushNonEmpty, if_neg fun h => width_pos_iff.mp h rfl]

/-- What the loops need of an aggregated removal list. -/
structure RemovedOk (rel : BitVec w → BitVec w → Prop) (removed : List (Interval w)) : Prop where
  gap : ∀ r ∈ removed, rel r.lower r.upper
  separated : Separated (· < ·) removed

theorem RemovedOk.tail {rel : BitVec w → BitVec w → Prop} {r : Interval w}
    {rest : List (Interval w)} (h : RemovedOk rel (r :: rest)) : RemovedOk rel rest :=
  ⟨fun q hq => h.gap q (List.mem_cons_of_mem _ hq), (List.pairwise_cons.mp h.separated).2⟩

theorem RemovedOk.head_lt {rel : BitVec w → BitVec w → Prop} {r q : Interval w}
    {rest : List (Interval w)} (h : RemovedOk rel (r :: rest)) (hq : q ∈ rest) :
    r.upper < q.lower := (List.pairwise_cons.mp h.separated).1 q hq

/-- Removed intervals from `q` on do not meet an interval that ends at or
below `q`. -/
theorem cut_whole {rel : BitVec w → BitVec w → Prop} {cur : Interval w}
    {removed : List (Interval w)} (hp : cur.Proper)
    (h : ∀ r ∈ removed, cur.upper ≤ r.lower) : Cut rel cur removed [cur] :=
  Cut.whole hp fun r hr => Or.inl (h r hr)

/-- The cut loop, given what it does with the part of `cur_merge` above the
first removed interval. -/
theorem cutLoop_cases {rel : BitVec w → BitVec w → Prop} (hrel : GapRel rel)
    {cur r : Interval w} {ret rest : List (Interval w)}
    (hp : cur.Proper) (hcr : cur.lower ≤ r.upper) (hok : RemovedOk rel (r :: rest))
    (hcont : ∀ ret', cutMerged cur ret r = (⟨r.upper, cur.upper⟩, ret') →
      (⟨r.upper, cur.upper⟩ : Interval w).Proper →
      ∃ pieces,
        pushNonEmpty (cutLoop cur ret r rest).1 (cutLoop cur ret r rest).2 = ret' ++ pieces ∧
          Cut rel ⟨r.upper, cur.upper⟩ rest pieces) :
    ∃ pieces,
      pushNonEmpty (cutLoop cur ret r rest).1 (cutLoop cur ret r rest).2 = ret ++ pieces ∧
        Cut rel cur (r :: rest) pieces := by
  have hr : r.lower ≤ r.upper := hrel.le (hok.gap r List.mem_cons_self)
  rcases cutMerged_cases ret hp hcr hr with
    ⟨h, hl, hu⟩ | ⟨h, hl, hu⟩ | ⟨h, hl, hin, hu⟩ | ⟨h, hl, hu⟩ | ⟨h, hout⟩
  · -- swallowed: the sentinel `[0, 0)` stops the loop and is not pushed
    rw [cutLoop_stop fun q _ => by rw [h]; exact Word.zero_le _, h]
    exact ⟨[], by rw [pushNonEmpty_empty, List.append_nil], Cut.none hl hu⟩
  · obtain ⟨pieces, hpush, hcut⟩ := hcont ret h hu
    exact ⟨pieces, hpush, Cut.trimLower hl hcr hcut⟩
  · -- trimmed above: what follows the removed interval is beyond
    have hp' : (⟨cur.lower, r.lower⟩ : Interval w).Proper := hl
    rw [cutLoop_stop fun q hq => by rw [h]; exact hr.trans (hok.head_lt hq).le, h]
    exact ⟨_, pushNonEmpty_proper hp' ret,
      Cut.trimUpper hl hin hu fun q hq => hr.trans (hok.head_lt hq).le⟩
  · obtain ⟨pieces, hpush, hcut⟩ := hcont _ h hu
    refine ⟨⟨cur.lower, r.lower⟩ :: pieces, by rw [hpush, List.append_assoc]; rfl, ?_⟩
    exact Cut.split hrel hl hr hu.le (hok.gap r List.mem_cons_self)
      (fun q hq => hok.head_lt hq) hcut
  · have hbeyond : ∀ q ∈ rest, cur.upper ≤ q.lower := fun q hq =>
      hout.le.trans (hr.trans (hok.head_lt hq).le)
    rw [cutLoop_stop fun q hq => by rw [h]; exact hbeyond q hq, h]
    refine ⟨[cur], pushNonEmpty_proper hp ret, cut_whole hp fun q hq => ?_⟩
    rcases List.mem_cons.mp hq with rfl | hq
    · exact hout.le
    · exact hbeyond q hq

/-- **The cut loop and its final push leave a `Cut` of `cur_merge`.** -/
theorem cutLoop_spec {rel : BitVec w → BitVec w → Prop} (hrel : GapRel rel)
    (cur r : Interval w) (ret rest : List (Interval w))
    (hp : cur.Proper) (hcr : cur.lower ≤ r.upper) (hok : RemovedOk rel (r :: rest)) :
    ∃ pieces,
      pushNonEmpty (cutLoop cur ret r rest).1 (cutLoop cur ret r rest).2 = ret ++ pieces ∧
        Cut rel cur (r :: rest) pieces := by
  induction rest generalizing cur r ret with
  | nil =>
    -- one pass, and nothing follows the removed interval
    exact cutLoop_cases hrel hp hcr hok fun ret' hcut hup =>
      ⟨[⟨r.upper, cur.upper⟩], by rw [cutLoop, hcut]; exact pushNonEmpty_proper hup ret',
        cut_whole hup fun q hq => (List.not_mem_nil hq).elim⟩
  | cons q rest ih =>
    refine cutLoop_cases hrel hp hcr hok fun ret' hcut hup => ?_
    have hq : r.upper < q.lower := hok.head_lt List.mem_cons_self
    rw [cutLoop, hcut]
    by_cases hnext : q.lower < cur.upper
    · -- the loop goes on with what is left above `r`
      simp only [if_pos hnext]
      exact ih _ q ret' hup (hq.le.trans (hrel.le (hok.tail.gap q List.mem_cons_self))) hok.tail
    · simp only [if_neg hnext]
      refine ⟨[⟨r.upper, cur.upper⟩], pushNonEmpty_proper hup ret', cut_whole hup fun p hp => ?_⟩
      rcases List.mem_cons.mp hp with rfl | hp
      · exact not_lt.mp hnext
      · exact (not_lt.mp hnext).trans
          ((hrel.le (hok.tail.gap q List.mem_cons_self)).trans (hok.tail.head_lt hp).le)

/-! ## `split_merged_interval_removed` -/

/-- The cursor only passes removed intervals that end below `cur_merge_`. -/
theorem skipRemoved_spec (cur : Interval w) (it : List (Interval w)) :
    ∃ below, it = below ++ skipRemoved cur it ∧ (∀ r ∈ below, r.upper < cur.lower) ∧
      ∀ r rest, skipRemoved cur it = r :: rest → cur.lower ≤ r.upper := by
  induction it with
  | nil => exact ⟨[], rfl, fun r hr => (List.not_mem_nil hr).elim, fun r rest h => by cases h⟩
  | cons q it ih =>
    by_cases hq : q.upper < cur.lower
    · obtain ⟨below, heq, hbelow, hhead⟩ := ih
      have hskip : skipRemoved cur (q :: it) = skipRemoved cur it := by
        rw [skipRemoved, if_pos hq]
      refine ⟨q :: below, by rw [hskip, List.cons_append, ← heq], fun r hr => ?_, ?_⟩
      · cases hr with
        | head => exact hq
        | tail _ hr => exact hbelow r hr
      · rw [hskip]; exact hhead
    · have hskip : skipRemoved cur (q :: it) = q :: it := by rw [skipRemoved, if_neg hq]
      refine ⟨[], by rw [hskip]; rfl, fun r hr => (List.not_mem_nil hr).elim, ?_⟩
      intro r rest h
      rw [hskip] at h
      cases h
      exact not_lt.mp hq

theorem splitMergedIntervalRemoved_cursor (cur : Interval w) (ret it : List (Interval w)) :
    (splitMergedIntervalRemoved cur ret it).2 = skipRemoved cur it := by
  unfold splitMergedIntervalRemoved
  split
  · rename_i h; rw [h]
  · rename_i h; rw [h]

/-- An empty `cur_merge` is swallowed or left alone, and is not pushed. -/
theorem cutLoop_empty {rel : BitVec w → BitVec w → Prop} (hrel : GapRel rel) {cur r : Interval w}
    {rest : List (Interval w)} (ret : List (Interval w)) (he : cur.lower = cur.upper)
    (hcr : cur.lower ≤ r.upper) (hok : RemovedOk rel (r :: rest)) :
    pushNonEmpty (cutLoop cur ret r rest).1 (cutLoop cur ret r rest).2 = ret := by
  have hr : r.lower ≤ r.upper := hrel.le (hok.gap r List.mem_cons_self)
  by_cases hlow : r.lower ≤ cur.lower
  · have hcut : cutMerged cur ret r = (Interval.empty, ret) := by
      rw [cutMerged, if_pos ⟨hlow, he ▸ hcr⟩]
    rw [cutLoop_stop fun q _ => by rw [hcut]; exact Word.zero_le _, hcut, pushNonEmpty_empty]
  · have hin : ¬ r.lower ≤ cur.upper := he ▸ hlow
    have hcut : cutMerged cur ret r = (cur, ret) := by
      rw [cutMerged, if_neg fun h => hlow h.1, if_neg fun h => hlow h.1,
        if_neg fun h => hin h.2.2, if_neg fun h => hin (hr.trans h.2)]
    have hbeyond : ∀ q ∈ rest, cur.upper ≤ q.lower := fun q hq =>
      he ▸ hcr.trans (hok.head_lt hq).le
    rw [cutLoop_stop fun q hq => by rw [hcut]; exact hbeyond q hq, hcut, pushNonEmpty,
      if_neg fun h => width_pos_iff.mp h he]

theorem RemovedOk.suffix {rel : BitVec w → BitVec w → Prop} {below rest : List (Interval w)}
    (h : RemovedOk rel (below ++ rest)) : RemovedOk rel rest :=
  ⟨fun q hq => h.gap q (List.mem_append_right _ hq), (List.pairwise_append.mp h.separated).2.1⟩

/-- Splitting one merged interval appends its `Cut` to `ret`. -/
theorem splitMergedIntervalRemoved_spec {rel : BitVec w → BitVec w → Prop} (hrel : GapRel rel)
    (cur : Interval w) (ret it : List (Interval w)) (hle : cur.lower ≤ cur.upper)
    (hok : RemovedOk rel it) :
    ∃ pieces, (splitMergedIntervalRemoved cur ret it).1 = ret ++ pieces ∧
      Cut rel cur it pieces := by
  obtain ⟨below, heq, hbelow, hhead⟩ := skipRemoved_spec cur it
  rw [heq] at hok
  have hlow : ∀ r ∈ below, r.upper ≤ cur.lower := fun r hr => (hbelow r hr).le
  unfold splitMergedIntervalRemoved
  cases hskip : skipRemoved cur it with
  | nil =>
    rw [hskip] at heq
    obtain hp | he := lt_or_eq_of_le hle
    · refine ⟨[cur], pushNonEmpty_proper hp ret, ?_⟩
      rw [heq]
      exact Cut.skip hlow (cut_whole hp fun r hr => (List.not_mem_nil hr).elim)
    · refine ⟨[], ?_, Cut.of_empty he it⟩
      simp only [pushNonEmpty, if_neg fun h => width_pos_iff.mp h he, List.append_nil]
  | cons r rest =>
    rw [hskip] at heq hok
    obtain hp | he := lt_or_eq_of_le hle
    · obtain ⟨pieces, hpush, hcut⟩ :=
        cutLoop_spec hrel cur r ret rest hp (hhead r rest hskip) hok.suffix
      refine ⟨pieces, hpush, ?_⟩
      rw [heq]
      exact Cut.skip hlow hcut
    · refine ⟨[], ?_, Cut.of_empty he it⟩
      rw [List.append_nil]
      exact cutLoop_empty hrel ret he (hhead r rest hskip) hok.suffix

/-! ## The loop of `aggregate` -/

/-- `pieces` is the list of what `src` covers and `removed` does not:
proper intervals, in order, `rel` apart. -/
structure Swept (rel : BitVec w → BitVec w → Prop) (src removed pieces : List (Interval w)) :
    Prop where
  proper : AllProper pieces
  separated : Separated rel pieces
  mem_iff : ∀ v, v ∈ covers pieces ↔ v ∈ covers src ∧ v ∉ covers removed

/-- One finished merged interval: its pieces, followed by those of the
rest, which the cursor left above it. -/
theorem Swept.cons {rel : BitVec w → BitVec w → Prop} (hrel : GapRel rel) {cur c : Interval w}
    {rest below it pieces later : List (Interval w)}
    (hlt : cur.upper < c.lower) (hsort : LowerSorted (c :: rest))
    (hbelow : ∀ r ∈ below, r.upper < c.lower)
    (hcut : Cut rel cur (below ++ it) pieces) (hlater : Swept rel (c :: rest) it later)
    (hlow : ∀ p ∈ later, c.lower ≤ p.lower) :
    Swept rel (cur :: c :: rest) (below ++ it) (pieces ++ later) where
  proper := by
    intro p hp
    obtain hp | hp := List.mem_append.mp hp
    · exact hcut.proper p hp
    · exact hlater.proper p hp
  separated := by
    refine List.pairwise_append.mpr ⟨hcut.separated, hlater.separated, fun p hp q hq => ?_⟩
    exact hrel.of_lt (((hcut.upper_le p hp).trans_lt hlt).trans_le (hlow q hq))
  mem_iff := by
    intro v
    rw [covers_append, Set.mem_union, hcut.mem_iff, hlater.mem_iff, covers_cons cur,
      Set.mem_union, or_and_right]
    -- points of the rest are above everything the cursor has passed
    have hrest : v ∈ covers (c :: rest) → v ∉ covers below := by
      intro ⟨i, hi, hiv, _⟩ ⟨r, hr, _, hru⟩
      have hci : c.lower ≤ i.lower := by
        cases hi with
        | head => exact le_refl _
        | tail _ hi => exact hsort.head_le hi
      exact not_lt.mpr ((hbelow r hr).le.trans (hci.trans hiv)) hru
    rw [covers_append, Set.mem_union, not_or]
    constructor
    · intro h
      obtain h | ⟨h1, h2⟩ := h
      · exact Or.inl h
      · exact Or.inr ⟨h1, hrest h1, h2⟩
    · intro h
      obtain h | ⟨h1, _, h2⟩ := h
      · exact Or.inl h
      · exact Or.inr ⟨h1, h2⟩

theorem aggregateRemovedLoop_spec {rel : BitVec w → BitVec w → Prop} (hrel : GapRel rel)
    (cur : Interval w) (ret it l : List (Interval w)) (hp : ∀ i ∈ cur :: l, i.lower ≤ i.upper)
    (hs : LowerSorted (cur :: l)) (hok : RemovedOk rel it) :
    ∃ pieces, aggregateRemovedLoop cur ret it l = ret ++ pieces ∧
      Swept rel (cur :: l) it pieces ∧ ∀ p ∈ pieces, cur.lower ≤ p.lower := by
  induction l generalizing cur ret it with
  | nil =>
    obtain ⟨pieces, hret, hcut⟩ :=
      splitMergedIntervalRemoved_spec hrel cur ret it (hp cur List.mem_cons_self) hok
    refine ⟨pieces, hret, ⟨hcut.proper, hcut.separated, fun v => ?_⟩, hcut.lower_le⟩
    rw [hcut.mem_iff, mem_covers_cons]
    simp
  | cons c rest ih =>
    have hle : cur.lower ≤ c.lower := hs.head_le List.mem_cons_self
    by_cases hov : overlap cur c = true
    · rw [aggregateRemovedLoop, if_pos hov]
      have hp' : ∀ i ∈ hull cur c :: rest, i.lower ≤ i.upper := by
        intro i hi
        cases hi with
        | head =>
          rw [hull_lower hle]
          exact (hp cur List.mem_cons_self).trans hull_upper_le.1
        | tail _ hi => exact hp i (List.mem_cons_of_mem _ (List.mem_cons_of_mem _ hi))
      obtain ⟨pieces, hret, hsw, hlow⟩ := ih (hull cur c) ret it hp' (lowerSorted_hull hs) hok
      rw [hull_lower hle] at hlow
      refine ⟨pieces, hret, ⟨hsw.proper, hsw.separated, fun v => ?_⟩, hlow⟩
      rw [hsw.mem_iff, covers_hull rest hle hov]
    · rw [aggregateRemovedLoop, if_neg hov]
      obtain ⟨pieces, hret, hcut⟩ :=
        splitMergedIntervalRemoved_spec hrel cur ret it (hp cur List.mem_cons_self) hok
      obtain ⟨below, heq, hbelow, _⟩ := skipRemoved_spec cur it
      have hok' : RemovedOk rel (skipRemoved cur it) := by
        rw [heq] at hok; exact hok.suffix
      have hp' : ∀ i ∈ c :: rest, i.lower ≤ i.upper := fun i hi =>
        hp i (List.mem_cons_of_mem _ hi)
      obtain ⟨later, hret', hsw, hlow⟩ :=
        ih c (ret ++ pieces) (skipRemoved cur it) hp' hs.tail hok'
      have hlt : cur.upper < c.lower := lt_of_not_overlap hle hov
      refine ⟨pieces ++ later, ?_, ?_, ?_⟩
      · simp only [hret, splitMergedIntervalRemoved_cursor, hret', List.append_assoc]
      · rw [heq] at hcut ⊢
        exact Swept.cons hrel hlt hs.tail (fun r hr => (hbelow r hr).trans_le hle) hcut hsw hlow
      · intro p hmem
        obtain hmem | hmem := List.mem_append.mp hmem
        · exact hcut.lower_le p hmem
        · exact hle.trans (hlow p hmem)

/-! ## `aggregate` -/

namespace ListIntervals

/-- The exits of `aggregate`: nothing removed, nothing stored, or the
general sweep. -/
theorem aggregate_cases (sorts : Sorts w) (l : ListIntervals w s) :
    (l.removedIntervals = [] ∧
      l.aggregate sorts = { l with intervals := aggregateContainer sorts.stored l.intervals }) ∨
    (l.removedIntervals ≠ [] ∧ l.intervals = [] ∧ l.aggregate sorts = l) ∨
    (∃ front rest, sorts.stored.run l.intervals = front :: rest ∧
      l.aggregate sorts = { l with
        intervals := aggregateRemovedLoop front []
          (aggregateContainer sorts.removed l.removedIntervals) rest
        removedIntervals := [] }) := by
  by_cases hr : l.removedIntervals.length = 0
  · exact Or.inl ⟨List.length_eq_zero_iff.mp hr, by rw [aggregate, if_pos hr]⟩
  · have hr' : l.removedIntervals ≠ [] := fun h => hr (by rw [h]; rfl)
    by_cases hi : l.intervals.length = 0
    · exact Or.inr (Or.inl ⟨hr', List.length_eq_zero_iff.mp hi,
        by rw [aggregate, if_neg hr, if_pos hi]⟩)
    · right; right
      have hne : l.intervals ≠ [] := fun h => hi (by rw [h]; rfl)
      cases hrun : sorts.stored.run l.intervals with
      | nil => exact (sorts.stored.run_ne_nil hne hrun).elim
      | cons front rest =>
        refine ⟨front, rest, rfl, ?_⟩
        rw [aggregate, if_neg hr, if_neg hi]
        simp only [hrun]

/-- With nothing queued or nothing stored, only the merge is left. -/
theorem aggregate_intervals_of_or (sorts : Sorts w) {l : ListIntervals w s}
    (h : l.removedIntervals = [] ∨ l.intervals = []) :
    (l.aggregate sorts).intervals = aggregateContainer sorts.stored l.intervals := by
  unfold aggregate
  by_cases hr : l.removedIntervals.length = 0
  · rw [if_pos hr]
  · have hi : l.intervals = [] := h.resolve_left fun hnil => hr (by rw [hnil]; rfl)
    rw [if_neg hr, if_pos (by rw [hi]; rfl), hi]
    rfl

/-- With a removal queued, empty stored intervals are swept out too. -/
theorem aggregate_swept_of_queue {rel : BitVec w → BitVec w → Prop} (hrel : GapRel rel)
    (sorts : Sorts w) (l : ListIntervals w s) (hA : ∀ i ∈ l.intervals, i.lower ≤ i.upper)
    (hR : ∀ r ∈ l.removedIntervals, rel r.lower r.upper) (hq : l.removedIntervals ≠ []) :
    Swept rel l.intervals l.removedIntervals (l.aggregate sorts).intervals := by
  obtain ⟨hr, _⟩ | ⟨_, hi, h⟩ | ⟨front, rest, hrun, h⟩ := aggregate_cases sorts l
  · exact (hq hr).elim
  · rw [h, hi]
    refine ⟨fun p hp => (List.not_mem_nil hp).elim, List.Pairwise.nil, fun v => ?_⟩
    simp
  · rw [h]
    have hperm := sorts.stored.perm l.intervals
    rw [hrun] at hperm
    have hp : ∀ i ∈ front :: rest, i.lower ≤ i.upper := fun i hi => hA i (hperm.mem_iff.mp hi)
    have hs : LowerSorted (front :: rest) := hrun ▸ lowerSorted_run sorts.stored l.intervals
    have hok : RemovedOk rel (aggregateContainer sorts.removed l.removedIntervals) :=
      ⟨bounds_aggregateContainer hrel sorts.removed hR, separated_aggregateContainer _ _⟩
    obtain ⟨pieces, hret, hsw, _⟩ := aggregateRemovedLoop_spec hrel front [] _ rest hp hs hok
    simp only [hret, List.nil_append]
    refine ⟨hsw.proper, hsw.separated, fun v => ?_⟩
    rw [hsw.mem_iff, covers_perm hperm, covers_aggregateContainer]

/-- **`aggregate` stores what is added and not removed**, whatever the
sorts do with ties. -/
theorem aggregate_swept {rel : BitVec w → BitVec w → Prop} (hrel : GapRel rel)
    (sorts : Sorts w) (l : ListIntervals w s) (hA : AllProper l.intervals)
    (hR : ∀ r ∈ l.removedIntervals, rel r.lower r.upper) :
    Swept rel l.intervals l.removedIntervals (l.aggregate sorts).intervals := by
  by_cases hr : l.removedIntervals = []
  · rw [aggregate_intervals_of_or sorts (Or.inl hr), hr]
    have hn := normal_aggregateContainer sorts.stored hA
    refine ⟨hn.proper, hn.separated.imp fun h => hrel.of_lt h, fun v => ?_⟩
    simp [-mem_covers, covers_aggregateContainer]
  · exact aggregate_swept_of_queue hrel sorts l (fun i hi => (hA i hi).le) hR hr

theorem aggregate_normal (sorts : Sorts w) {l : ListIntervals w s}
    (hA : AllProper l.intervals) (hR : AllProper l.removedIntervals) :
    Normal (l.aggregate sorts).intervals :=
  have h := aggregate_swept gapRel_lt sorts l hA hR
  ⟨h.proper, h.separated⟩

theorem covers_aggregate (sorts : Sorts w) {l : ListIntervals w s}
    (hA : AllProper l.intervals) (hR : AllProper l.removedIntervals) :
    covers (l.aggregate sorts).intervals = covers l.intervals \ covers l.removedIntervals := by
  ext v
  exact (aggregate_swept gapRel_lt sorts l hA hR).mem_iff v

/-- The removal queue survives exactly the exit "nothing stored". -/
theorem aggregate_removedIntervals (sorts : Sorts w) (l : ListIntervals w s) :
    (l.aggregate sorts).removedIntervals =
      if l.intervals = [] then l.removedIntervals else [] := by
  obtain ⟨hr, h⟩ | ⟨_, hi, h⟩ | ⟨front, rest, hrun, h⟩ := aggregate_cases sorts l
  · rw [h]; simp [hr]
  · rw [h, if_pos hi]
  · have hne : l.intervals ≠ [] := by
      intro hi
      have hlen := sorts.stored.length_run l.intervals
      rw [hrun, hi] at hlen
      simp at hlen
    rw [h, if_neg hne]

/-- `operator==` compares the stored intervals. -/
theorem opEq_iff {l o : ListIntervals w s} : l.opEq o = true ↔ l.intervals = o.intervals := by
  unfold opEq
  generalize l.intervals = a
  generalize o.intervals = b
  induction a generalizing b with
  | nil => cases b <;> simp
  | cons i a ih =>
    cases b with
    | nil => simp
    | cons j b =>
      have h := ih b
      by_cases hlen : a.length = b.length
      · simp only [hlen, ne_eq, not_true_eq_false, if_false] at h
        simp only [List.length_cons, hlen, ne_eq, not_true_eq_false, if_false, List.zip_cons_cons,
          List.all_cons, Bool.and_eq_true, h, List.cons.injEq]
        simp [HalfOpen.ext_iff]
      · have hne : a ≠ b := fun h => hlen (by rw [h])
        simp [hlen, hne]

theorem aggregate_aggregate (sorts sorts' : Sorts w) {l : ListIntervals w s}
    (hA : AllProper l.intervals) (hR : AllProper l.removedIntervals) :
    (l.aggregate sorts).aggregate sorts' = l.aggregate sorts := by
  have hn := aggregate_normal sorts hA hR
  by_cases hi : l.intervals = []
  · -- nothing stored, so nothing is stored afterwards either
    have hagg : (l.aggregate sorts).intervals = [] := by
      apply hn.eq_nil_of_covers
      rw [covers_aggregate sorts hA hR, hi]
      simp
    obtain ⟨_, h⟩ | ⟨_, _, h⟩ | ⟨front, rest, hrun, _⟩ := aggregate_cases sorts' (l.aggregate sorts)
    · rw [h, aggregateContainer_of_normal sorts'.stored hn]
    · exact h
    · have hlen := sorts'.stored.length_run (l.aggregate sorts).intervals
      rw [hrun, hagg] at hlen
      simp at hlen
  · have hr := aggregate_removedIntervals sorts l
    rw [if_neg hi] at hr
    obtain ⟨_, h⟩ | ⟨hr', _, _⟩ | ⟨_, _, _, h⟩ := aggregate_cases sorts' (l.aggregate sorts)
    · rw [h, aggregateContainer_of_normal sorts'.stored hn]
    · exact (hr' hr).elim
    · rw [aggregate, if_pos (by rw [hr]; rfl), aggregateContainer_of_normal sorts'.stored hn]

/-- **`aggregate` is canonical.** It stores union(added) minus
union(removed) in normal form, whatever the sorts do with ties; so two
aggregated lists of one set are equal, and aggregating again changes
nothing. -/
theorem aggregate_canonical (sorts : Sorts w) (l : ListIntervals w s)
    (hA : ∀ i ∈ l.intervals, i.lower < i.upper)
    (hR : ∀ r ∈ l.removedIntervals, r.lower < r.upper) :
    covers (l.aggregate sorts).intervals = covers l.intervals \ covers l.removedIntervals ∧
    (∀ i ∈ (l.aggregate sorts).intervals, i.lower < i.upper) ∧
    (l.aggregate sorts).intervals.IsChain (fun i j => i.upper < j.lower) ∧
    (∀ (sorts' : Sorts w) (l' : ListIntervals w s),
      (∀ i ∈ l'.intervals, i.lower < i.upper) → (∀ r ∈ l'.removedIntervals, r.lower < r.upper) →
      covers (l.aggregate sorts).intervals = covers (l'.aggregate sorts').intervals →
      (l.aggregate sorts).opEq (l'.aggregate sorts') = true) ∧
    (∀ sorts' : Sorts w, (l.aggregate sorts).aggregate sorts' = l.aggregate sorts) := by
  have hn := aggregate_normal sorts hA hR
  refine ⟨covers_aggregate sorts hA hR, hn.proper, (normal_iff_isChain hn.proper).mp hn, ?_, ?_⟩
  · intro sorts' l' hA' hR' hc
    rw [opEq_iff]
    exact hn.ext (aggregate_normal sorts' hA' hR') hc
  · exact fun sorts' => aggregate_aggregate sorts sorts' hA hR

/-- A list of the test suite: five removals over four stored intervals. -/
def removalSample : ListIntervals 8 32 where
  intervals := [⟨0, 10⟩, ⟨20, 40⟩, ⟨50, 90⟩, ⟨100, 200⟩]
  removedIntervals := [⟨0, 4⟩, ⟨5, 21⟩, ⟨25, 29⟩, ⟨30, 35⟩, ⟨36, 105⟩]

theorem aggregate_canonical_removalSample :
    (removalSample.aggregate (Sorts.insertion 8)).intervals =
      [⟨4, 5⟩, ⟨21, 25⟩, ⟨29, 30⟩, ⟨35, 36⟩, ⟨105, 200⟩] ∧
    covers (removalSample.aggregate (Sorts.insertion 8)).intervals =
      covers removalSample.intervals \ covers removalSample.removedIntervals :=
  ⟨by decide, (aggregate_canonical (Sorts.insertion 8) removalSample (by decide) (by decide)).1⟩

end ListIntervals

end Leeloo
