/-
Leeloo.RandomPromiseResume — resuming a `list_intervals_random_promise`
from its done steps.

A run of the generator only changes its iterator and its done steps. On a
non-empty range the done steps cover what is outside the range and what
was marked (`Progress`); on an empty one they keep an interval that covers
every step (`Saturated`). In both cases `set_done_steps` leaves exactly
the other steps to do, through the removal path of `aggregate`. The
interval `[0, 0)` or `[size, size)` of the done steps is empty, which is
why the removal path is used with `≤` gaps.
-/
import Leeloo.AggregateTheorems
import Leeloo.RandomPromise

namespace Leeloo

open HalfOpen Leeloo.Interval ListIntervals ValueIterator

variable {Seed : Type} {w : Nat}

/-! ## Runs of a generator -/

namespace RandomPromise

variable {u : Uprng Seed w}

/-- `aggregate_done_steps`. -/
def aggregateDoneSteps (sorts : Sorts w) (g : RandomPromise u) : RandomPromise u :=
  { g with doneSteps := g.doneSteps.aggregate sorts }

/-- The step the generator is at, when it is not at its end. -/
def currentSteps (g : RandomPromise u) : List (BitVec w) :=
  if g.end_ then [] else g.getCurrentStep.toList

/-- The runs from `g₀`: the generator, the steps it reached, and those
marked done. -/
inductive Run (li : ListIntervals w w) (g₀ : RandomPromise u) :
    RandomPromise u → List (BitVec w) → List (BitVec w) → Prop
  | start : Run li g₀ g₀ g₀.currentSteps []
  | next {g g' : RandomPromise u} {reached marked : List (BitVec w)} :
      Run li g₀ g reached marked → g.next = some g' →
      Run li g₀ g' (reached ++ g'.currentSteps) marked
  | call {g g' : RandomPromise u} {reached marked : List (BitVec w)} {v : BitVec w} :
      Run li g₀ g reached marked → g.call li = some (v, g') →
      Run li g₀ g' (reached ++ g'.currentSteps) marked
  | stepDone {g g' : RandomPromise u} {reached marked : List (BitVec w)} {step : BitVec w}
      {sorts : Sorts w} :
      Run li g₀ g reached marked → step ∈ reached → g.stepDone sorts step = some g' →
      Run li g₀ g' reached (step :: marked)
  | aggregateDone {g : RandomPromise u} {reached marked : List (BitVec w)} {sorts : Sorts w} :
      Run li g₀ g reached marked → Run li g₀ (g.aggregateDoneSteps sorts) reached marked

/-- `next` moves the iterator and nothing else. -/
theorem next_cases {g g' : RandomPromise u} (h : g.next = some g') :
    ∃ it, g' = { g with itSteps := it } := by
  unfold RandomPromise.next at h
  by_cases hend : g.end_ = true
  · rw [if_pos hend] at h
    cases h
  · rw [if_neg hend] at h
    cases hincr : g.itSteps.incr with
    | none => simp [hincr] at h
    | some it =>
      simp only [hincr, Option.bind_eq_bind, Option.bind_some, Option.some.injEq] at h
      exact ⟨it, h.symm⟩

/-- `operator()` moves as `next` does. -/
theorem next_of_call {g g' : RandomPromise u} {li : ListIntervals w w} {v : BitVec w}
    (h : g.call li = some (v, g')) : g.next = some g' := by
  unfold call at h
  cases hcur : g.getCurrent li with
  | none => simp [hcur] at h
  | some ret =>
    cases hnext : g.next with
    | none => simp [hcur, hnext] at h
    | some g'' =>
      simp only [hcur, hnext, Option.bind_eq_bind, Option.bind_some, Option.some.injEq,
        Prod.mk.injEq] at h
      rw [h.2]

/-- `step_done` adds the step to the done steps, and may aggregate them. -/
theorem stepDone_cases {sorts : Sorts w} {g g' : RandomPromise u} {step : BitVec w}
    (h : g.stepDone sorts step = some g') :
    g' = { g with doneSteps := g.doneSteps.add ⟨step, step + 1⟩ } ∨
      g' = { g with doneSteps := (g.doneSteps.add ⟨step, step + 1⟩).aggregate sorts } := by
  unfold stepDone at h
  cases hallowed : g.stepAllowed step with
  | none => simp [hallowed] at h
  | some allowed =>
    cases allowed with
    | false => simp [hallowed] at h
    | true =>
      simp only [hallowed, Option.bind_eq_bind, Option.bind_some, if_true, Option.some.injEq] at h
      rw [← h]
      by_cases hlen : 100 ≤ (g.doneSteps.add ⟨step, step + 1⟩).intervals.length
      · right
        rw [if_pos hlen]
      · left
        rw [if_neg hlen]

/-! ## What `next` and `step_done` keep -/

/-- A run moves the iterator, adds done steps and aggregates them: what
these three keep, the run keeps. -/
theorem Run.invariant {li : ListIntervals w w} {g₀ g : RandomPromise u}
    {reached marked : List (BitVec w)} {I : RandomPromise u → Prop} (h : Run li g₀ g reached marked)
    (hit : ∀ g it, I g → I { g with itSteps := it })
    (hadd : ∀ g i, I g → I { g with doneSteps := g.doneSteps.add i })
    (haggregate : ∀ g sorts, I g → I (g.aggregateDoneSteps sorts)) (h₀ : I g₀) : I g := by
  induction h with
  | start => exact h₀
  | next _ h ih =>
    obtain ⟨it, rfl⟩ := next_cases h
    exact hit _ it ih
  | call _ h ih =>
    obtain ⟨it, rfl⟩ := next_cases (next_of_call h)
    exact hit _ it ih
  | stepDone _ _ h ih =>
    obtain h | h := stepDone_cases h
    · rw [h]
      exact hadd _ _ ih
    · rw [h]
      exact haggregate _ _ (hadd _ _ ih)
  | aggregateDone _ ih => exact haggregate _ _ ih

/-- Only the iterator and the done steps change along a run. -/
theorem Run.params {li : ListIntervals w w} {g₀ g : RandomPromise u}
    {reached marked : List (BitVec w)} (h : Run li g₀ g reached marked) :
    g.uprng = g₀.uprng ∧ g.seed = g₀.seed :=
  h.invariant (I := fun g => g.uprng = g₀.uprng ∧ g.seed = g₀.seed) (fun _ _ hg => hg)
    (fun _ _ hg => hg) (fun _ _ hg => hg) ⟨rfl, rfl⟩

end RandomPromise

/-! ## The done steps -/

/-- The done steps are ordered intervals that cover `S`, some maybe empty. -/
structure DoneCovers (d : ListIntervals w w) (S : Set (BitVec w)) : Prop where
  queue : d.removedIntervals = []
  ordered : ∀ i ∈ d.intervals, i.lower ≤ i.upper
  covered : covers d.intervals = S

/-- One interval of the done steps takes every step below `n`. -/
structure Saturated (d : ListIntervals w w) (n : BitVec w) : Prop where
  queue : d.removedIntervals = []
  whole : ∃ i ∈ d.intervals, i.lower = 0 ∧ n ≤ i.upper

theorem DoneCovers.aggregate {d : ListIntervals w w} {S : Set (BitVec w)} (h : DoneCovers d S)
    (sorts : Sorts w) : DoneCovers (d.aggregate sorts) S := by
  have hints := aggregate_intervals_of_or sorts (Or.inl h.queue)
  refine ⟨?_, ?_, ?_⟩
  · rw [aggregate_removedIntervals, h.queue]
    simp
  · rw [hints]
    exact bounds_aggregateContainer gapRel_le sorts.stored h.ordered
  · rw [hints, covers_aggregateContainer]
    exact h.covered

/-- Marking a step adds it to what is covered. -/
theorem DoneCovers.add {d : ListIntervals w w} {S : Set (BitVec w)} (h : DoneCovers d S)
    (step : BitVec w) (hstep : step.toNat + 1 < 2 ^ w) :
    DoneCovers (d.add ⟨step, step + 1⟩) (S ∪ {step}) := by
  have hone : (1 : BitVec w).toNat = 1 := Word.toNat_one (by omega)
  have hsucc : (step + 1).toNat = step.toNat + 1 := by
    rw [BitVec.toNat_add_of_lt (by rw [hone]; exact hstep), hone]
  refine ⟨h.queue, ?_, ?_⟩
  · intro i hi
    obtain hi | hi := List.mem_append.mp hi
    · exact h.ordered i hi
    · rw [List.mem_singleton.mp hi, BitVec.le_def, hsucc]
      exact Nat.le_succ _
  · have hone : covers [(⟨step, step + 1⟩ : Interval w)] = {step} := by
      apply Set.ext
      intro v
      simp only [mem_covers, List.mem_singleton, exists_eq_left, Set.mem_singleton_iff,
        BitVec.le_def, BitVec.lt_def, hsucc, BitVec.toNat_eq]
      omega
    show covers (d.intervals ++ [⟨step, step + 1⟩]) = S ∪ {step}
    rw [covers_append, h.covered, hone]

/-- In a sorted merge that starts at 0, everything that starts at 0 ends up
in the first interval. -/
theorem aggregateLoop_from_zero {cur : Interval w} {l : List (Interval w)}
    (hs : LowerSorted (cur :: l)) (h0 : cur.lower = 0) :
    ∃ o rest, aggregateLoop cur [] l = o :: rest ∧ o.lower = 0 ∧
      ∀ j ∈ cur :: l, j.lower = 0 → j.upper ≤ o.upper := by
  induction l generalizing cur with
  | nil =>
    refine ⟨cur, [], rfl, h0, ?_⟩
    intro j hj _
    rw [List.mem_singleton.mp hj]
  | cons c l ih =>
    by_cases hov : overlap cur c = true
    · have hle : cur.lower ≤ c.lower := hs.head_le List.mem_cons_self
      rw [aggregateLoop_overlap l hov]
      obtain ⟨o, rest, heq, ho, hall⟩ := ih (lowerSorted_hull hs) (by rw [hull_lower hle, h0])
      refine ⟨o, rest, heq, ho, ?_⟩
      have hhull := hall (hull cur c) List.mem_cons_self (by rw [hull_lower hle, h0])
      intro j hj hj0
      cases hj with
      | head => exact le_trans hull_upper_le.1 hhull
      | tail _ hj =>
        cases hj with
        | head => exact le_trans hull_upper_le.2 hhull
        | tail _ hj => exact hall j (List.mem_cons_of_mem _ hj) hj0
    · rw [aggregateLoop_disjoint l hov]
      refine ⟨cur, _, rfl, h0, ?_⟩
      intro j hj hj0
      cases hj with
      | head => exact le_refl _
      | tail _ hj =>
        -- `c` starts above 0, and so does all that follows
        have hcj : c.lower ≤ j.lower := by
          cases hj with
          | head => exact le_refl _
          | tail _ hj => exact hs.tail.head_le hj
        have hc0 : c.lower ≤ cur.upper := by
          rw [hj0] at hcj
          exact le_trans hcj (Word.zero_le _)
        exact absurd (overlap_iff.mpr (Or.inl ⟨hs.head_le List.mem_cons_self, hc0⟩)) hov

theorem aggregateContainer_from_zero (sort : ParallelSort w) {ints : List (Interval w)}
    {n : BitVec w} (h : ∃ i ∈ ints, i.lower = 0 ∧ n ≤ i.upper) :
    ∃ o rest, aggregateContainer sort ints = o :: rest ∧ o.lower = 0 ∧ n ≤ o.upper := by
  obtain ⟨i, hi, hi0, hni⟩ := h
  obtain ⟨heq, hlen⟩ | ⟨front, rest, hrun, heq⟩ := aggregateContainer_cases sort ints
  · rw [heq]
    cases ints with
    | nil => exact (List.not_mem_nil hi).elim
    | cons j ints =>
      cases ints with
      | nil =>
        rw [List.mem_singleton] at hi
        exact ⟨j, [], rfl, by rw [← hi, hi0], by rw [← hi]; exact hni⟩
      | cons k ints =>
        simp only [List.length_cons] at hlen
        omega
  · have hs : LowerSorted (front :: rest) := hrun ▸ lowerSorted_run sort ints
    have hmem : i ∈ front :: rest := by
      rw [← hrun]
      exact (sort.perm ints).mem_iff.mpr hi
    have hfront : front.lower = 0 := by
      have hle : front.lower ≤ i.lower := by
        cases hmem with
        | head => exact le_refl _
        | tail _ hmem => exact hs.head_le hmem
      rw [hi0] at hle
      exact le_antisymm hle (Word.zero_le _)
    obtain ⟨o, later, ho, ho0, hall⟩ := aggregateLoop_from_zero hs hfront
    exact ⟨o, later, by rw [heq, ho], ho0, le_trans hni (hall i hmem hi0)⟩

theorem Saturated.aggregate {d : ListIntervals w w} {n : BitVec w} (h : Saturated d n)
    (sorts : Sorts w) : Saturated (d.aggregate sorts) n := by
  refine ⟨?_, ?_⟩
  · rw [aggregate_removedIntervals, h.queue]
    simp
  · rw [aggregate_intervals_of_or sorts (Or.inl h.queue)]
    obtain ⟨o, rest, heq, ho, hn⟩ := aggregateContainer_from_zero sorts.stored h.whole
    exact ⟨o, by rw [heq]; exact List.mem_cons_self, ho, hn⟩

theorem Saturated.add {d : ListIntervals w w} {n : BitVec w} (h : Saturated d n)
    (i : Interval w) : Saturated (d.add i) n := by
  obtain ⟨j, hj, hj0⟩ := h.whole
  exact ⟨h.queue, j, List.mem_append_left _ hj, hj0⟩

/-! ## What `set_done_steps` leaves to do -/

theorem foldl_remove (ints : List (Interval w)) (l : ListIntervals w w) :
    ints.foldl ListIntervals.remove l =
      { l with removedIntervals := l.removedIntervals ++ ints } := by
  induction ints generalizing l with
  | nil => simp
  | cons i ints ih => rw [List.foldl_cons, ih]; simp [ListIntervals.remove]

namespace RandomPromise

variable {u : Uprng Seed w}

/-- The list `set_done_steps` aggregates: `[0, max)` with the done steps
queued for removal. -/
theorem setDoneSteps_todo (sorts sorts' : Sorts w) (g : RandomPromise u) (d : ListIntervals w w) :
    ∃ l : ListIntervals w w, l.intervals = [⟨0, u.max g.uprng⟩] ∧
      l.removedIntervals = (d.aggregate sorts).intervals ∧
      (g.setDoneSteps sorts sorts' d).itSteps = valueBegin (l.aggregate sorts') := by
  refine ⟨_, ?_, ?_, rfl⟩
  · rw [foldl_remove]
    rfl
  · rw [foldl_remove]
    rfl

/-- **The steps left.** With done steps that cover `S`, the generator has
the steps below `max` outside `S` ahead, in order. -/
theorem setDoneSteps_ahead (sorts sorts' : Sorts w) (g : RandomPromise u) {d : ListIntervals w w}
    {S : Set (BitVec w)} (hd : DoneCovers d S) (hpos : 0 < u.max g.uprng) :
    ∃ vs, Ahead (g.setDoneSteps sorts sorts' d) vs ∧ vs.Pairwise (· < ·) ∧
      ∀ v, v ∈ vs ↔ v < u.max g.uprng ∧ v ∉ S := by
  obtain ⟨l, hints, hrem, hit⟩ := setDoneSteps_todo sorts sorts' g d
  have hagg := hd.aggregate sorts
  have hproper : AllProper l.intervals := by
    rw [hints]
    intro i hi
    rw [List.mem_singleton.mp hi]
    exact hpos
  have hswept := aggregate_swept gapRel_le sorts' l hproper (by rw [hrem]; exact hagg.ordered)
  refine ⟨values (l.aggregate sorts').intervals, ?_, ?_, ?_⟩
  · unfold Ahead
    rw [hit]
    exact walks_valueBegin hswept.proper
  · exact values_ascending hswept.proper hswept.separated
  · intro v
    rw [mem_values_iff hswept.proper, hswept.mem_iff, hrem, hagg.covered, hints]
    have hrange : v ∈ covers [(⟨0, u.max g.uprng⟩ : Interval w)] ↔ v < u.max g.uprng := by
      simp only [mem_covers, List.mem_singleton, exists_eq_left]
      exact and_iff_right (Word.zero_le v)
    rw [hrange]

/-- With saturated done steps nothing is left. -/
theorem setDoneSteps_end (sorts sorts' : Sorts w) (g : RandomPromise u) {d : ListIntervals w w}
    (hd : Saturated d (u.max g.uprng)) : Ahead (g.setDoneSteps sorts sorts' d) [] := by
  obtain ⟨l, hints, hrem, hit⟩ := setDoneSteps_todo sorts sorts' g d
  have hagg := hd.aggregate sorts
  have hnil : (l.aggregate sorts').intervals = [] := by
    obtain ⟨r, _⟩ := hagg.whole
    obtain ⟨h, _⟩ | ⟨_, h, _⟩ | ⟨front, rest, hrun, h⟩ := aggregate_cases sorts' l
    · -- the queue holds the interval that takes everything
      obtain ⟨r, hr, _⟩ := hagg.whole
      rw [← hrem, h] at hr
      exact (List.not_mem_nil hr).elim
    · rw [hints] at h
      cases h
    · have hone : front :: rest = [⟨0, u.max g.uprng⟩] := by
        rw [← hrun, hints]
        exact List.perm_singleton.mp (sorts'.stored.perm _)
      cases hone
      rw [h, hrem]
      obtain ⟨o, later, ho, ho0, hno⟩ :=
        aggregateContainer_from_zero sorts'.removed hagg.whole
      rw [ho]
      -- `[0, max)` is swallowed whole by the first removed interval
      have hskip : skipRemoved (⟨0, u.max g.uprng⟩ : Interval w) (o :: later) = o :: later := by
        unfold skipRemoved
        rw [if_neg (not_lt.mpr (Word.zero_le _))]
      have hcut : ∀ ret, cutMerged (⟨0, u.max g.uprng⟩ : Interval w) ret o =
          (Interval.empty, ret) := by
        intro ret
        unfold cutMerged
        rw [if_pos ⟨le_of_eq ho0, hno⟩]
      have hloop : cutLoop (⟨0, u.max g.uprng⟩ : Interval w) [] o later =
          (Interval.empty, []) := by
        rw [cutLoop_stop, hcut]
        intro q _
        rw [hcut]
        exact Word.zero_le _
      simp only [aggregateRemovedLoop, splitMergedIntervalRemoved, hskip, hloop,
        pushNonEmpty_empty]
  unfold Ahead
  rw [hit]
  have hwalks := walks_valueBegin (l := l.aggregate sorts') (by
    rw [hnil]
    exact fun i hi => (List.not_mem_nil hi).elim)
  rw [hnil, values_nil] at hwalks
  exact hwalks

/-! ## The invariant of a run -/

/-- On a non-empty range: the steps ahead and those reached are in it, and
the done steps cover what is outside it or marked. -/
structure Progress (lo hi max : BitVec w) (g : RandomPromise u) (reached marked : List (BitVec w)) :
    Prop where
  ahead : ∃ vs, Ahead g vs ∧ ∀ v ∈ vs, lo ≤ v ∧ v < hi
  reached : ∀ k ∈ reached, lo ≤ k ∧ k < hi
  done : DoneCovers g.doneSteps {k | k < lo ∨ (hi ≤ k ∧ k < max) ∨ k ∈ marked}

/-- The generator is at the first step ahead. -/
theorem Ahead.currentSteps_eq {g : RandomPromise u} {vs : List (BitVec w)} (h : Ahead g vs) :
    g.currentSteps = vs.head?.toList := by
  unfold currentSteps
  cases vs with
  | nil => rw [if_pos (h.end_iff.mpr rfl), List.head?_nil, Option.toList_none]
  | cons v vs => rw [if_neg h.not_end, h.next.1, List.head?_cons]

theorem Ahead.currentSteps_subset {g : RandomPromise u} {vs : List (BitVec w)} (h : Ahead g vs) :
    ∀ k ∈ g.currentSteps, k ∈ vs := by
  intro k hk
  rw [h.currentSteps_eq, Option.mem_toList] at hk
  exact List.mem_of_mem_head? hk

/-- **`step_done` returns** on every step that is not ahead of the current
one, however many intervals are pending. -/
theorem Ahead.stepDone_isSome_iff {g : RandomPromise u} {vs : List (BitVec w)} (h : Ahead g vs)
    (sorts : Sorts w) (step : BitVec w) :
    (g.stepDone sorts step).isSome ↔ ∀ cur ∈ g.currentSteps, step ≤ cur := by
  rw [h.currentSteps_eq]
  unfold RandomPromise.stepDone stepAllowed
  cases vs with
  | nil => simp [h.end_iff]
  | cons v vs =>
    have hderef : g.itSteps.deref = some v := h.next.1
    by_cases hle : step ≤ v
    · simp [h.not_end, hderef, hle]
    · simp [h.not_end, hderef, hle]

/-- No step reached is beyond those ahead. -/
def Behind (g : RandomPromise u) (reached : List (BitVec w)) : Prop :=
  ∃ vs, Ahead g vs ∧ vs.Pairwise (· < ·) ∧ ∀ k ∈ reached, ∀ v ∈ vs, k ≤ v

theorem Ahead.currentSteps_le {g : RandomPromise u} {vs : List (BitVec w)} (h : Ahead g vs)
    (hasc : vs.Pairwise (· < ·)) : ∀ k ∈ g.currentSteps, ∀ v ∈ vs, k ≤ v := by
  intro k hk v hv
  rw [h.currentSteps_eq, Option.mem_toList] at hk
  cases vs with
  | nil => exact (List.not_mem_nil hv).elim
  | cons x vs =>
    cases hk
    cases hv with
    | head => exact le_refl _
    | tail _ hv => exact le_of_lt ((List.pairwise_cons.mp hasc).1 v hv)

theorem Behind.next {g g' : RandomPromise u} {reached : List (BitVec w)} (h : Behind g reached)
    (hnext : g.next = some g') : Behind g' (reached ++ g'.currentSteps) := by
  obtain ⟨vs, hg, hasc, hle⟩ := h
  cases vs with
  | nil =>
    rw [RandomPromise.next, if_pos (hg.end_iff.mpr rfl)] at hnext
    cases hnext
  | cons x vs =>
    obtain ⟨_, it, hit, hg'⟩ := hg.next
    cases hnext.symm.trans hit
    have hasc' := (List.pairwise_cons.mp hasc).2
    refine ⟨vs, hg', hasc', fun k hk v hv => ?_⟩
    cases List.mem_append.mp hk with
    | inl hk => exact hle k hk v (List.mem_cons_of_mem _ hv)
    | inr hk => exact hg'.currentSteps_le hasc' k hk v hv

theorem Run.behind {li : ListIntervals w w} {g₀ g : RandomPromise u}
    {reached marked : List (BitVec w)} (h : Run li g₀ g reached marked)
    (h₀ : Behind g₀ g₀.currentSteps) : Behind g reached := by
  induction h with
  | start => exact h₀
  | next _ hnext ih => exact ih.next hnext
  | call _ hcall ih => exact ih.next (next_of_call hcall)
  | stepDone _ _ hdone ih =>
    obtain ⟨vs, hg, hrest⟩ := ih
    refine ⟨vs, ?_, hrest⟩
    obtain heq | heq := stepDone_cases hdone
    · rw [heq]
      exact hg
    · rw [heq]
      exact hg
  | aggregateDone _ ih => exact ih

/-- **Every reached step can be marked done**, also when `step_done`
aggregates. -/
theorem Run.stepDone_isSome {li : ListIntervals w w} {sorts : Sorts w}
    {todo done : ListIntervals w w} {seed : Seed} {stepStart stepEnd lo hi : BitVec w}
    (hrange : stepRange (u.max (u.init seed li.size)) stepStart stepEnd = (lo, hi)) (hlt : lo < hi)
    {g : RandomPromise u} {reached marked : List (BitVec w)}
    (h : Run li (init u sorts todo done li seed stepStart stepEnd) g reached marked)
    {step : BitVec w} (hstep : step ∈ reached) (sorts' : Sorts w) :
    (g.stepDone sorts' step).isSome := by
  have h₀ : Ahead (init u sorts todo done li seed stepStart stepEnd) (intervalValues ⟨lo, hi⟩) :=
    init_ahead sorts todo done hrange hlt
  have hasc := intervalValues_ascending (i := ⟨lo, hi⟩) hlt
  obtain ⟨vs, hg, _, hle⟩ := h.behind ⟨_, h₀, hasc, h₀.currentSteps_le hasc⟩
  rw [hg.stepDone_isSome_iff]
  exact fun cur hcur => hle step hstep cur (hg.currentSteps_subset cur hcur)

/-- `next` passes a step and changes nothing else. -/
theorem Progress.next {lo hi max : BitVec w} {g g' : RandomPromise u}
    {reached marked : List (BitVec w)} (h : Progress lo hi max g reached marked)
    (hnext : g.next = some g') :
    Progress lo hi max g' (reached ++ g'.currentSteps) marked := by
  obtain ⟨vs, hahead, hvs⟩ := h.ahead
  cases vs with
  | nil =>
    unfold RandomPromise.next at hnext
    rw [if_pos (hahead.end_iff.mpr rfl)] at hnext
    cases hnext
  | cons v vs =>
    obtain ⟨_, it, hit, hahead'⟩ := hahead.next
    rw [hit] at hnext
    cases hnext
    have hvs' : ∀ k ∈ vs, lo ≤ k ∧ k < hi := fun k hk => hvs k (List.mem_cons_of_mem _ hk)
    refine ⟨⟨vs, hahead', hvs'⟩, ?_, h.done⟩
    intro k hk
    obtain hk | hk := List.mem_append.mp hk
    · exact h.reached k hk
    · exact hvs' k (hahead'.currentSteps_subset k hk)

theorem Progress.stepDone {lo hi max : BitVec w} {g g' : RandomPromise u}
    {reached marked : List (BitVec w)} {step : BitVec w} {sorts : Sorts w}
    (h : Progress lo hi max g reached marked) (hstep : step ∈ reached)
    (hdone : g.stepDone sorts step = some g') :
    Progress lo hi max g' reached (step :: marked) := by
  have hlt : step.toNat < hi.toNat := (h.reached step hstep).2
  have hhi := hi.isLt
  have hadd := h.done.add step (by omega)
  have hset : ({k | k < lo ∨ (hi ≤ k ∧ k < max) ∨ k ∈ marked} ∪ {step} : Set (BitVec w)) =
      {k | k < lo ∨ (hi ≤ k ∧ k < max) ∨ k ∈ step :: marked} := by
    apply Set.ext
    intro k
    simp only [Set.mem_union, Set.mem_ofPred_eq, Set.mem_singleton_iff, List.mem_cons]
    grind
  rw [hset] at hadd
  obtain heq | heq := stepDone_cases hdone
  · rw [heq]
    exact ⟨h.ahead, h.reached, hadd⟩
  · rw [heq]
    exact ⟨h.ahead, h.reached, hadd.aggregate sorts⟩

theorem Run.progress {li : ListIntervals w w} {g₀ g : RandomPromise u} {lo hi max : BitVec w}
    {reached marked : List (BitVec w)} (h : Run li g₀ g reached marked)
    (h₀ : Progress lo hi max g₀ g₀.currentSteps []) :
    Progress lo hi max g reached marked := by
  induction h with
  | start => exact h₀
  | next _ hnext ih => exact ih.next hnext
  | call _ hcall ih => exact ih.next (next_of_call hcall)
  | stepDone _ hstep hdone ih => exact ih.stepDone hstep hdone
  | aggregateDone _ ih => exact ⟨ih.ahead, ih.reached, ih.done.aggregate _⟩

/-- On an empty range the done steps stay saturated, whatever is marked. -/
theorem Run.saturated {li : ListIntervals w w} {g₀ g : RandomPromise u} {max : BitVec w}
    {reached marked : List (BitVec w)} (h : Run li g₀ g reached marked)
    (h₀ : Saturated g₀.doneSteps max) : Saturated g.doneSteps max :=
  h.invariant (I := fun g => Saturated g.doneSteps max) (fun _ _ hg => hg)
    (fun _ i hg => hg.add i) (fun _ sorts hg => hg.aggregate sorts) h₀

/-! ## What `init` establishes -/

/-- The done steps of `init` before their aggregation. -/
theorem init_doneSteps (sorts : Sorts w) (todo done : ListIntervals w w) {li : ListIntervals w w}
    {seed : Seed} {stepStart stepEnd lo hi : BitVec w}
    (hrange : stepRange (u.max (u.init seed li.size)) stepStart stepEnd = (lo, hi)) :
    ∃ d : ListIntervals w w,
      d.intervals = [⟨0, lo⟩, ⟨hi, u.max (u.init seed li.size)⟩] ∧ d.removedIntervals = [] ∧
      (init u sorts todo done li seed stepStart stepEnd).doneSteps = d.aggregate sorts := by
  refine ⟨(done.clear.add ⟨0, lo⟩).add ⟨hi, u.max (u.init seed li.size)⟩, rfl, rfl, ?_⟩
  unfold init
  simp only [hrange]

theorem init_progress {sorts : Sorts w} {todo done li : ListIntervals w w} {seed : Seed}
    {stepStart stepEnd lo hi : BitVec w}
    (hrange : stepRange (u.max (u.init seed li.size)) stepStart stepEnd = (lo, hi))
    (hlt : lo < hi) (hmax : hi ≤ u.max (u.init seed li.size)) :
    Progress lo hi (u.max (u.init seed li.size))
      (init u sorts todo done li seed stepStart stepEnd)
      (init u sorts todo done li seed stepStart stepEnd).currentSteps [] := by
  have hahead := init_ahead sorts todo done hrange hlt
  have hin : ∀ v ∈ intervalValues (⟨lo, hi⟩ : Interval w), lo ≤ v ∧ v < hi :=
    fun v hv => (mem_intervalValues (i := ⟨lo, hi⟩) hlt).mp hv
  refine ⟨⟨_, hahead, hin⟩, fun k hk => hin k (hahead.currentSteps_subset k hk), ?_⟩
  obtain ⟨d, hints, hqueue, heq⟩ :=
    init_doneSteps sorts todo done hrange
  rw [heq]
  apply DoneCovers.aggregate
  refine ⟨hqueue, ?_, ?_⟩
  · rw [hints]
    intro i hi
    simp only [List.mem_cons, List.not_mem_nil, or_false] at hi
    obtain rfl | rfl := hi
    · exact Word.zero_le _
    · exact hmax
  · rw [hints]
    apply Set.ext
    intro v
    simp only [mem_covers, List.mem_cons, List.not_mem_nil, or_false, Set.mem_ofPred_eq,
      exists_eq_or_imp, exists_eq_left]
    have h0 := Word.zero_le v
    grind

/-- Two intervals that touch at the end of the first and start at 0 merge
into one. -/
theorem saturated_of_touching (sorts : Sorts w) {d : ListIntervals w w} {lo n : BitVec w}
    (hints : d.intervals = [⟨0, lo⟩, ⟨lo, n⟩]) (hqueue : d.removedIntervals = []) :
    Saturated (d.aggregate sorts) n := by
  refine ⟨by rw [aggregate_removedIntervals, hqueue]; simp, ?_⟩
  rw [aggregate_intervals_of_or sorts (Or.inl hqueue), hints]
  obtain ⟨_, hlen⟩ | ⟨front, rest, hrun, h⟩ :=
    aggregateContainer_cases sorts.stored [(⟨0, lo⟩ : Interval w), ⟨lo, n⟩]
  · simp at hlen
  · have hperm := sorts.stored.perm [(⟨0, lo⟩ : Interval w), ⟨lo, n⟩]
    have hs : LowerSorted (front :: rest) := hrun ▸ lowerSorted_run sorts.stored _
    rw [hrun] at hperm
    have hfront : front ∈ [(⟨0, lo⟩ : Interval w), ⟨lo, n⟩] :=
      hperm.mem_iff.mp List.mem_cons_self
    simp only [List.mem_cons, List.not_mem_nil, or_false] at hfront
    rw [h]
    obtain rfl | rfl := hfront
    · obtain rfl := List.perm_singleton.mp hperm.cons_inv
      have hov : overlap (⟨0, lo⟩ : Interval w) ⟨lo, n⟩ = true :=
        overlap_iff.mpr (Or.inl ⟨Word.zero_le _, le_refl _⟩)
      rw [aggregateLoop_overlap [] hov]
      exact ⟨_, List.mem_singleton_self _, min_eq_left (Word.zero_le _), le_max_right _ _⟩
    · -- the order of ties: both start at 0
      obtain rfl := List.perm_singleton.mp (hperm.trans (List.Perm.swap _ _ _)).cons_inv
      have hlo : lo = 0 := le_antisymm (hs.head_le List.mem_cons_self) (Word.zero_le _)
      have hov : overlap (⟨lo, n⟩ : Interval w) ⟨0, lo⟩ = true := by
        rw [hlo]
        exact overlap_iff.mpr (Or.inl ⟨le_refl _, Word.zero_le _⟩)
      rw [aggregateLoop_overlap [] hov]
      exact ⟨_, List.mem_singleton_self _, min_eq_right (Word.zero_le _), le_max_left _ _⟩

/-! ## Draining the steps left -/

theorem drain_ahead {li : ListIntervals w w} {f : BitVec w → BitVec w} {g : RandomPromise u}
    {vs : List (BitVec w)} (h : Ahead g vs)
    (hf : ∀ v ∈ vs, li.atCached (u.getStep g.uprng v) = some (f v)) {fuel : Nat}
    (hfuel : vs.length < fuel) : g.drain li fuel = some (vs.map fun v => (v, f v)) := by
  induction fuel generalizing g vs with
  | zero => omega
  | succ fuel ih =>
    unfold drain
    cases vs with
    | nil =>
      rw [if_pos (h.end_iff.mpr rfl)]
      rfl
    | cons v vs =>
      obtain ⟨hstep, it, hnext, hahead⟩ := h.next
      have hderef : g.itSteps.deref = some v := hstep
      have hcall : g.call li = some (f v, { g with itSteps := it }) := by
        unfold call getCurrent
        simp only [hderef, Option.bind_eq_bind, Option.bind_some, hf v List.mem_cons_self, hnext]
      have hrest := ih hahead (fun x hx => hf x (List.mem_cons_of_mem _ hx))
        (by simpa using hfuel)
      rw [if_neg h.not_end]
      simp only [hstep, Option.bind_eq_bind, Option.bind_some, hcall, hrest, List.map_cons]

end RandomPromise

/-- The parameter `UPRNG` as `get_step` needs it: `max` is what `init` was
given, and the steps are a permutation of `[0, max)`. -/
structure Uprng.StepPermutes (u : Uprng Seed w) (seed : Seed) (max : BitVec w) : Prop where
  max_init : u.max (u.init seed max) = max
  getStep_perm : ((List.range max.toNat).map fun k =>
    (u.getStep (u.init seed max) (BitVec.ofNat w k)).toNat).Perm (List.range max.toNat)

theorem Uprng.StepPermutes.getStep_lt {u : Uprng Seed w} {seed : Seed} {max k : BitVec w}
    (hu : u.StepPermutes seed max) (hk : k < max) : u.getStep (u.init seed max) k < max := by
  have hmem : (u.getStep (u.init seed max) (BitVec.ofNat w k.toNat)).toNat ∈
      List.range max.toNat :=
    hu.getStep_perm.mem_iff.mp
      (List.mem_map_of_mem (f := fun k => (u.getStep (u.init seed max) (BitVec.ofNat w k)).toNat)
        (List.mem_range.mpr hk))
  rw [BitVec.ofNat_toNat, BitVec.setWidth_eq] at hmem
  exact List.mem_range.mp hmem

/-- `at_cached` is defined below `size()`. -/
def Answers (li : ListIntervals w w) : Prop := ∀ r, r < li.size → ∃ v, li.atCached r = some v

/-- Every list with an up-to-date cache is such a list. -/
theorem answers_of_cache (l₀ : ListIntervals 32 32) {l : ListIntervals 32 32} {c : BitVec 64}
    (hp : AllProper l₀.intervals) (hsum : widthSum l₀.intervals < 2 ^ 32)
    (hc : l₀.createIndexCache c = some l) : Answers l := by
  have hlen := length_le_widthSum hp
  obtain ⟨hints, hcached⟩ := createIndexCache_cached (le_refl 32) (by omega) hsum hc
  intro r hr
  rw [← hints] at hp hsum hlen
  exact ⟨_, by rw [hcached.atCached_eq hp hsum (by omega) hr, at_eq hr]⟩

/-- The restored generator visits the steps below `size` that are not
marked, once each and in ascending order, with the elements the original
maps them to. -/
def Resumes {u : Uprng Seed w} (li : ListIntervals w w) (original : RandomPromise u)
    (marked : BitVec w → Prop) (g : RandomPromise u) : Prop :=
  ∃ visits, g.drain li (li.size.toNat + 1) = some visits ∧
    (visits.map Prod.fst).Pairwise (· < ·) ∧
    (∀ k, k ∈ visits.map Prod.fst ↔ k < li.size ∧ ¬ marked k) ∧
    ∀ p ∈ visits, li.atCached (u.getStep original.uprng p.1) = some p.2

theorem length_le_of_ascending {vs : List (BitVec w)} {n : BitVec w}
    (hasc : vs.Pairwise (· < ·)) (hlt : ∀ v ∈ vs, v < n) : vs.length ≤ n.toNat := by
  have hvs : vs.Nodup := hasc.imp ne_of_lt
  have hnodup : (vs.map BitVec.toNat).Nodup := hvs.map fun _ _ h => BitVec.eq_of_toNat_eq h
  have hsub : vs.map BitVec.toNat ⊆ List.range n.toNat := by
    intro x hx
    obtain ⟨v, hv, rfl⟩ := List.mem_map.mp hx
    exact List.mem_range.mpr (hlt v hv)
  have hle := (hnodup.subperm hsub).length_le
  simpa using hle

open RandomPromise in
/-- A generator with the unmarked steps ahead resumes. -/
theorem resumes_of_ahead {u : Uprng Seed w} {seed : Seed} {li : ListIntervals w w}
    (hu : u.StepPermutes seed li.size) (hli : Answers li) {original g : RandomPromise u}
    (horiginal : original.uprng = u.init seed li.size) (hg : g.uprng = u.init seed li.size)
    {marked : BitVec w → Prop} {vs : List (BitVec w)} (hahead : Ahead g vs)
    (hasc : vs.Pairwise (· < ·)) (hvs : ∀ v, v ∈ vs ↔ v < li.size ∧ ¬ marked v) :
    Resumes li original marked g := by
  have hanswer : ∀ v ∈ vs, li.atCached (u.getStep g.uprng v) =
      some ((li.atCached (u.getStep g.uprng v)).getD 0) := by
    intro v hv
    rw [hg]
    obtain ⟨x, hx⟩ := hli _ (hu.getStep_lt ((hvs v).mp hv).1)
    rw [hx]
    rfl
  have hlen := length_le_of_ascending hasc fun v hv => ((hvs v).mp hv).1
  refine ⟨_, drain_ahead hahead hanswer (by omega), ?_, ?_, ?_⟩
  · rw [List.map_map]
    simpa [Function.comp_def] using hasc
  · intro k
    rw [List.map_map]
    simpa [Function.comp_def] using hvs k
  · intro p hp
    obtain ⟨v, hv, rfl⟩ := List.mem_map.mp hp
    rw [horiginal, ← hg]
    exact hanswer v hv

/-- The done steps leave exactly the steps below `n` that are not `isDone`:
they cover the others, or they take everything and there are no others. -/
def Leaves (d : ListIntervals w w) (n : BitVec w) (isDone : BitVec w → Prop) : Prop :=
  (0 < n ∧ ∃ S, DoneCovers d S ∧ ∀ v, v < n → (v ∈ S ↔ isDone v)) ∨
    (Saturated d n ∧ ∀ v, v < n → isDone v)

theorem Leaves.queue {d : ListIntervals w w} {n : BitVec w} {isDone : BitVec w → Prop}
    (h : Leaves d n isDone) : d.removedIntervals = [] := by
  obtain ⟨_, S, hS, _⟩ | ⟨hsat, _⟩ := h
  · exact hS.queue
  · exact hsat.queue

theorem Leaves.aggregate {d : ListIntervals w w} {n : BitVec w} {isDone : BitVec w → Prop}
    (h : Leaves d n isDone) (sorts : Sorts w) : Leaves (d.aggregate sorts) n isDone := by
  obtain ⟨hpos, S, hS, hiff⟩ | ⟨hsat, hall⟩ := h
  · exact Or.inl ⟨hpos, S, hS.aggregate sorts, hiff⟩
  · exact Or.inr ⟨hsat.aggregate sorts, hall⟩

/-- Only the intervals count: the archive keeps nothing else. -/
theorem Leaves.reload {d d' : ListIntervals w w} {n : BitVec w} {isDone : BitVec w → Prop}
    (h : Leaves d n isDone) (hints : d'.intervals = d.intervals)
    (hqueue : d'.removedIntervals = []) : Leaves d' n isDone := by
  obtain ⟨hpos, S, hS, hiff⟩ | ⟨hsat, hall⟩ := h
  · exact Or.inl ⟨hpos, S, ⟨hqueue, by rw [hints]; exact hS.ordered,
      by rw [hints]; exact hS.covered⟩, hiff⟩
  · exact Or.inr ⟨⟨hqueue, by rw [hints]; exact hsat.whole⟩, hall⟩

open RandomPromise in
/-- Handing over done steps that leave exactly the unmarked steps. -/
theorem resumes_of_leaves {u : Uprng Seed w} {seed : Seed} {li : ListIntervals w w}
    (hu : u.StepPermutes seed li.size) (hli : Answers li) {original g : RandomPromise u}
    (horiginal : original.uprng = u.init seed li.size) (hg : g.uprng = u.init seed li.size)
    {isDone : BitVec w → Prop} (sorts sorts' : Sorts w) {d : ListIntervals w w}
    (hd : Leaves d li.size isDone) :
    Resumes li original isDone (g.setDoneSteps sorts sorts' d) := by
  have hmax : u.max g.uprng = li.size := by rw [hg, hu.max_init]
  have hset : (g.setDoneSteps sorts sorts' d).uprng = u.init seed li.size := hg
  obtain ⟨hpos, S, hS, hiff⟩ | ⟨hsat, hall⟩ := hd
  · obtain ⟨vs, hahead, hasc, hvs⟩ :=
      setDoneSteps_ahead sorts sorts' g hS (by rw [hmax]; exact hpos)
    apply resumes_of_ahead hu hli horiginal hset hahead hasc
    intro v
    rw [hvs, hmax]
    constructor
    · intro h
      exact ⟨h.1, fun hm => h.2 ((hiff v h.1).mpr hm)⟩
    · intro h
      exact ⟨h.1, fun hm => h.2 ((hiff v h.1).mp hm)⟩
  · have hahead := setDoneSteps_end sorts sorts' g (d := d) (by rw [hmax]; exact hsat)
    apply resumes_of_ahead hu hli horiginal hset hahead List.Pairwise.nil
    intro v
    constructor
    · intro h
      exact (List.not_mem_nil h).elim
    · intro h
      exact (h.2 (hall v h.1)).elim

open RandomPromise in
/-- **The done steps of a run** leave the steps of the range that were not
marked. -/
theorem run_leaves {u : Uprng Seed w} {seed : Seed} {li : ListIntervals w w}
    (hu : u.StepPermutes seed li.size) {sorts : Sorts w} {todo done : ListIntervals w w}
    {stepStart stepEnd lo hi : BitVec w} (hrange : stepRange li.size stepStart stepEnd = (lo, hi))
    {g : RandomPromise u} {reached marked : List (BitVec w)}
    (hrun : Run li (init u sorts todo done li seed stepStart stepEnd) g reached marked) :
    Leaves g.doneSteps li.size fun k => k ∈ marked ∨ k < lo ∨ hi ≤ k := by
  have hmax := hu.max_init
  obtain ⟨hle, hhi⟩ := stepRange_le li.size stepStart stepEnd
  rw [hrange] at hle hhi
  rw [← hmax] at hrange
  by_cases hlt : lo < hi
  · have hdone := (hrun.progress (init_progress hrange hlt (by rw [hmax]; exact hhi))).done
    refine Or.inl ⟨lt_of_lt_of_le (lt_of_le_of_lt (Word.zero_le _) hlt) hhi, _, hdone, ?_⟩
    intro v hv
    rw [hmax]
    simp only [Set.mem_ofPred_eq]
    grind
  · -- an empty range: the two boundary intervals merged into one
    have heq : lo = hi := le_antisymm hle (not_lt.mp hlt)
    obtain ⟨d, hints, hqueue, hd⟩ :=
      init_doneSteps sorts todo done hrange
    rw [heq, hmax] at hints
    have hinit := saturated_of_touching sorts hints hqueue
    rw [← hd] at hinit
    refine Or.inr ⟨hrun.saturated hinit, ?_⟩
    intro v _
    obtain hv | hv := lt_or_ge v lo
    · exact Or.inr (Or.inl hv)
    · rw [heq] at hv
      exact Or.inr (Or.inr hv)

open RandomPromise in
/-- **Resuming loses and repeats no step.** After any run from any range,
restoring the saved state, or handing the done steps to a generator of the
same seed and list, leaves exactly the steps that are neither outside the
range nor marked done. -/
theorem resume_exact (u : Uprng Seed 32) (seed : Seed) (li : ListIntervals 32 32)
    (hu : u.StepPermutes seed li.size) (hli : Answers li) (sorts : Sorts 32)
    (todo done : ListIntervals 32 32) (stepStart stepEnd : BitVec 32) (g : RandomPromise u)
    (reached marked : List (BitVec 32))
    (hrun : Run li (init u sorts todo done li seed stepStart stepEnd) g reached marked) :
    let lo := min (min stepStart li.size) (min stepEnd li.size)
    let hi := max (min stepStart li.size) (min stepEnd li.size)
    let isDone := fun k => k ∈ marked ∨ k < lo ∨ hi ≤ k
    (∀ (sorts₁ sorts₂ sorts₃ : Sorts 32) (other : RandomPromise u),
      Resumes li g isDone (other.restoreState sorts₂ sorts₃ (g.saveState sorts₁).1 li)) ∧
    (∀ (sorts₁ sorts₂ sorts₃ : Sorts 32) (todo' done' : ListIntervals 32 32)
        (stepStart' stepEnd' : BitVec 32),
      Resumes li g isDone ((init u sorts₁ todo' done' li seed stepStart' stepEnd').setDoneSteps
        sorts₂ sorts₃ g.doneSteps)) := by
  intro lo hi isDone
  have hleaves : Leaves g.doneSteps li.size fun k => k ∈ marked ∨ k < lo ∨ hi ≤ k :=
    run_leaves hu (stepRange_eq _ _ _) hrun
  obtain ⟨huprng, hseed⟩ := hrun.params
  have horiginal : g.uprng = u.init seed li.size := huprng
  constructor
  · intro sorts₁ sorts₂ sorts₃ other
    have hsaved : (g.saveState sorts₁).1.seed = seed := hseed
    apply resumes_of_leaves hu hli horiginal
    · show u.init (g.saveState sorts₁).1.seed li.size = u.init seed li.size
      rw [hsaved]
    · exact (hleaves.aggregate sorts₁).reload rfl rfl
  · intro sorts₁ sorts₂ sorts₃ todo' done' stepStart' stepEnd'
    exact resumes_of_leaves hu hli horiginal rfl sorts₂ sorts₃ hleaves

/-! ## `uni` as the generator -/

theorem uniUprng_getStep (rand : UniEngine) (max step : BitVec 32) :
    uniUprng.getStep (uniUprng.init rand max) step =
      ((Uni.init max (rand.draw max).1 (rand.draw max).2 rand.shuffle).getStep step).getD 0 := rfl

/-- `get_step` of `uni` permutes the steps when neither its offset sums nor
its positions wrap. -/
theorem uniUprng_stepPermutes {rand : UniEngine} {max : BitVec 32}
    (hoff : (rand.draw max).1 < max) (hpos : (rand.draw max).2 < max)
    (hsum : (rand.draw max).1.toNat + max.toNat ≤ 2 ^ 32)
    (hwrap : (rand.draw max).2.toNat + max.toNat ≤ 2 ^ 32) :
    uniUprng.StepPermutes rand max where
  max_init := rfl
  getStep_perm := by
    have hvalid := Uni.init_valid hoff hpos rand.shuffle
    have hmax := max.isLt
    have hmap : ((List.range max.toNat).map fun k =>
        (uniUprng.getStep (uniUprng.init rand max) (BitVec.ofNat 32 k)).toNat) =
        (List.range max.toNat).map fun k =>
          Uni.outputMap (Uni.init max (rand.draw max).1 (rand.draw max).2 rand.shuffle)
            (RangePerm.rotate max.toNat (rand.draw max).2.toNat k) := by
      apply List.map_congr_left
      intro k hk
      have hk := List.mem_range.mp hk
      have hkn : (BitVec.ofNat 32 k).toNat = k := by
        rw [BitVec.toNat_ofNat, Nat.mod_eq_of_lt (by omega)]
      have hstep := Uni.getStep_eq hvalid (BitVec.ofNat 32 k) (by
        rw [hkn]
        show (rand.draw max).2.toNat + k < 2 ^ 32
        omega)
      have hlt := Uni.outputMap_lt hvalid
        (RangePerm.rotate max.toNat (rand.draw max).2.toNat k)
      have hlt' : Uni.outputMap (Uni.init max (rand.draw max).1 (rand.draw max).2 rand.shuffle)
          (RangePerm.rotate max.toNat (rand.draw max).2.toNat k) < max.toNat := hlt
      rw [hkn] at hstep
      rw [uniUprng_getStep, hstep, Option.getD_some, BitVec.toNat_ofNat]
      exact Nat.mod_eq_of_lt (lt_trans hlt' hmax)
    rw [hmap]
    exact (Uni.outputs_perm_iff hvalid).mpr hsum

/-- An engine that draws the offset 2 and the start position 1. -/
def sampleEngine : UniEngine := ⟨fun _ => (2, 1), Shuffle.id _⟩

/-- The steps 1 to 3 of the five of the sample list. -/
def samplePromise : RandomPromise uniUprng :=
  RandomPromise.init uniUprng (Sorts.insertion 32) {} {} cachedSample sampleEngine 4 1

open RandomPromise in
/-- Step 1 is passed and marked done before the state is saved. -/
theorem resume_exact_uni :
    ∃ g₁ g₂ : RandomPromise uniUprng, samplePromise.next = some g₁ ∧
      g₁.stepDone (Sorts.insertion 32) 1 = some g₂ ∧
      Resumes cachedSample g₂ (fun k => k ∈ [1] ∨ k < 1 ∨ 4 ≤ k)
        (samplePromise.restoreState (Sorts.insertion 32) (Sorts.insertion 32)
          (g₂.saveState (Sorts.insertion 32)).1 cachedSample) := by
  let g₁ : RandomPromise uniUprng := { samplePromise with itSteps := ⟨[⟨1, 4⟩], 1⟩ }
  let g₂ : RandomPromise uniUprng := { g₁ with doneSteps := g₁.doneSteps.add ⟨1, 2⟩ }
  have hnext : samplePromise.next = some g₁ := rfl
  have hdone : g₁.stepDone (Sorts.insertion 32) 1 = some g₂ := rfl
  have hreached : (1 : BitVec 32) ∈ samplePromise.currentSteps := by decide
  have hrun : Run cachedSample samplePromise g₂
      (samplePromise.currentSteps ++ g₁.currentSteps) [1] :=
    (Run.start.next hnext).stepDone (List.mem_append_left _ hreached) hdone
  exact ⟨g₁, g₂, hnext, hdone, (resume_exact uniUprng sampleEngine cachedSample
    (uniUprng_stepPermutes (by decide) (by decide) (by decide) (by decide))
    (answers_of_cache { intervals := [⟨3, 5⟩, ⟨10, 13⟩] } (c := 1) (by decide) (by decide)
      (by decide))
    (Sorts.insertion 32) {} {} 4 1 _ _ _ hrun).1 _ _ _ samplePromise⟩

end Leeloo
