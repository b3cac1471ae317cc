/-
Leeloo.RandomPromise — `list_intervals_random_promise` of
`list_intervals_random.h`: the steps of a random enumeration, with the
steps already done.

Seeding the engine and initialising the generator with it is
`Uprng.init seed`. `init` and `restore_state` may be called on an object
that was used before, so they take the two step lists it held. A failed
`assert`, or a use of the step iterator at its end, is `none`.

`init` stores the range of steps as one interval. Its value iterator
walks a non-empty range exactly, but an empty one is never seen as
finished (`walksRange_iff`).
-/
import Leeloo.RandomSets
import Leeloo.ValueIterator

namespace Leeloo

open HalfOpen Leeloo.Interval ListIntervals ValueIterator

variable {Seed : Type} {w : Nat}

/-- The data members of `list_intervals_random_promise`. -/
structure RandomPromise (u : Uprng Seed w) where
  uprng : u.State
  stepsTodo : ListIntervals w w
  doneSteps : ListIntervals w w
  itSteps : ValueIterator w
  seed : Seed

/-- What `save_state` writes: the seed and the intervals of the done steps. -/
structure SavedState (Seed : Type) (w : Nat) where
  seed : Seed
  doneSteps : List (Interval w)

namespace RandomPromise

variable {u : Uprng Seed w}

/-- The range of steps of `init`: the bounds clipped to `max`, in order. -/
def stepRange (max stepStart stepEnd : BitVec w) : BitVec w × BitVec w :=
  let stepEnd := min stepEnd max
  let stepStart := min stepStart max
  if stepEnd < stepStart then (stepEnd, stepStart) else (stepStart, stepEnd)

/-- `init` with explicit step bounds. -/
def init (u : Uprng Seed w) (sorts : Sorts w) (stepsTodo doneSteps : ListIntervals w w)
    (li : ListIntervals w w) (seed : Seed) (stepStart stepEnd : BitVec w) : RandomPromise u :=
  let uprng := u.init seed li.size
  let range := stepRange (u.max uprng) stepStart stepEnd
  let stepsTodo := stepsTodo.clear.add ⟨range.1, range.2⟩
  let doneSteps :=
    ((doneSteps.clear.add ⟨0, range.1⟩).add ⟨range.2, u.max uprng⟩).aggregate sorts
  { uprng, stepsTodo, doneSteps, seed, itSteps := valueBegin stepsTodo }

/-- `end`. -/
def end_ (g : RandomPromise u) : Bool := decide (g.itSteps = valueEnd w)

/-- `get_current_step`. -/
def getCurrentStep (g : RandomPromise u) : Option (BitVec w) := g.itSteps.deref

/-- `get_current`. -/
def getCurrent (g : RandomPromise u) (li : ListIntervals w w) : Option (BitVec w) := do
  let step ← g.itSteps.deref
  li.atCached (u.getStep g.uprng step)

/-- `next`, with its `assert(!end())`. -/
def next (g : RandomPromise u) : Option (RandomPromise u) :=
  if g.end_ then none
  else do
    let it ← g.itSteps.incr
    some { g with itSteps := it }

/-- `operator()`. -/
def call (g : RandomPromise u) (li : ListIntervals w w) :
    Option (BitVec w × RandomPromise u) := do
  let ret ← g.getCurrent li
  let g ← g.next
  some (ret, g)

/-- The condition `end() || step <= *_it_steps`. -/
def stepAllowed (g : RandomPromise u) (step : BitVec w) : Option Bool :=
  if g.end_ then some true
  else do
    let cur ← g.itSteps.deref
    some (decide (step ≤ cur))

/-- `step_done`, with its `assert` and the aggregation at 100 intervals. -/
def stepDone (sorts : Sorts w) (g : RandomPromise u) (step : BitVec w) :
    Option (RandomPromise u) := do
  let allowed ← g.stepAllowed step
  if allowed then
    let doneSteps := g.doneSteps.add ⟨step, step + 1⟩
    some { g with
      doneSteps := if 100 ≤ doneSteps.intervals.length then doneSteps.aggregate sorts
        else doneSteps }
  else none

/-- `set_done_steps`; `sorts` and `sorts'` are those of its two calls of
`aggregate`. -/
def setDoneSteps (sorts sorts' : Sorts w) (g : RandomPromise u) (doneSteps : ListIntervals w w) :
    RandomPromise u :=
  let stepsTodo := g.stepsTodo.clear.add ⟨0, u.max g.uprng⟩
  let doneSteps := doneSteps.aggregate sorts
  let stepsTodo := (doneSteps.intervals.foldl ListIntervals.remove stepsTodo).aggregate sorts'
  { g with stepsTodo, doneSteps, itSteps := valueBegin stepsTodo }

/-- `save_state`: what it writes, and the generator it leaves. -/
def saveState (sorts : Sorts w) (g : RandomPromise u) : SavedState Seed w × RandomPromise u :=
  let g := { g with doneSteps := g.doneSteps.aggregate sorts }
  (⟨g.seed, g.doneSteps.intervals⟩, g)

/-- `restore_state`. -/
def restoreState (sorts sorts' : Sorts w) (g : RandomPromise u) (saved : SavedState Seed w)
    (li : ListIntervals w w) : RandomPromise u :=
  let doneSteps := { g.doneSteps.clear with intervals := saved.doneSteps }
  let g := { g with seed := saved.seed, doneSteps, uprng := u.init saved.seed li.size }
  g.setDoneSteps sorts sorts' doneSteps

/-- `n` calls of `next`. -/
def nexts : Nat → RandomPromise u → Option (RandomPromise u)
  | 0, g => some g
  | n + 1, g => do
    let g ← g.next
    nexts n g

/-- Calls of `operator()` until `end`, with the step and the element of
each. -/
def drain (li : ListIntervals w w) : Nat → RandomPromise u → Option (List (BitVec w × BitVec w))
  | 0, _ => none
  | fuel + 1, g =>
    if g.end_ then some []
    else do
      let step ← g.getCurrentStep
      let (ret, g) ← g.call li
      let rest ← drain li fuel g
      some ((step, ret) :: rest)

/-! ## The iterator under `next` -/

/-- The generator has the steps `vs` ahead. -/
def Ahead (g : RandomPromise u) (vs : List (BitVec w)) : Prop := Walks g.itSteps vs

theorem Ahead.end_iff {g : RandomPromise u} {vs : List (BitVec w)} (h : Ahead g vs) :
    g.end_ = true ↔ vs = [] := by
  unfold end_
  rw [decide_eq_true_iff]
  exact Walks.eq_end_iff h

theorem Ahead.not_end {g : RandomPromise u} {v : BitVec w} {vs : List (BitVec w)}
    (h : Ahead g (v :: vs)) : ¬ g.end_ = true := by
  rw [h.end_iff]
  exact List.cons_ne_nil v vs

theorem Ahead.next {g : RandomPromise u} {v : BitVec w} {vs : List (BitVec w)}
    (h : Ahead g (v :: vs)) :
    g.getCurrentStep = some v ∧
      ∃ it, g.next = some { g with itSteps := it } ∧ Ahead { g with itSteps := it } vs := by
  have hend := h.not_end
  obtain ⟨hderef, it, hincr, hwalks⟩ := Walks.step h
  refine ⟨hderef, it, ?_, hwalks⟩
  unfold RandomPromise.next
  rw [if_neg hend]
  simp only [hincr, Option.bind_eq_bind, Option.bind_some]

/-- `n` calls of `next` pass the first `n` steps ahead. -/
theorem Ahead.nexts {g : RandomPromise u} {vs : List (BitVec w)} (h : Ahead g vs) {n : Nat}
    (hn : n ≤ vs.length) :
    ∃ it, g.nexts n = some { g with itSteps := it } ∧
      Ahead { g with itSteps := it } (vs.drop n) := by
  induction n generalizing g vs with
  | zero => exact ⟨g.itSteps, rfl, h⟩
  | succ n ih =>
    cases vs with
    | nil => simp at hn
    | cons v vs =>
      obtain ⟨_, it, hnext, hahead⟩ := h.next
      obtain ⟨it', hnexts, hahead'⟩ := ih hahead (by simpa using hn)
      refine ⟨it', ?_, hahead'⟩
      unfold RandomPromise.nexts
      simp only [hnext, Option.bind_eq_bind, Option.bind_some, hnexts]

/-! ## The range of `init` -/

theorem stepRange_le (max stepStart stepEnd : BitVec w) :
    (stepRange max stepStart stepEnd).1 ≤ (stepRange max stepStart stepEnd).2 ∧
      (stepRange max stepStart stepEnd).2 ≤ max := by
  unfold stepRange
  by_cases h : min stepEnd max < min stepStart max
  · simp only [if_pos h]
    exact ⟨le_of_lt h, min_le_right _ _⟩
  · simp only [if_neg h]
    exact ⟨not_lt.mp h, min_le_right _ _⟩

/-- The clipped bounds in order are the smaller and the larger of the two. -/
theorem stepRange_eq (max stepStart stepEnd : BitVec w) :
    stepRange max stepStart stepEnd =
      (min (min stepStart max) (min stepEnd max),
        Max.max (min stepStart max) (min stepEnd max)) := by
  unfold stepRange
  by_cases h : min stepEnd max < min stepStart max
  · simp only [if_pos h]
    rw [min_eq_right (le_of_lt h), max_eq_left (le_of_lt h)]
  · simp only [if_neg h]
    rw [min_eq_left (not_lt.mp h), max_eq_right (not_lt.mp h)]

/-- The walk of the steps `lo, …, hi - 1`: `end()` is false before each of
them and true after `hi - lo` calls of `next()`. -/
def WalksRange (g : RandomPromise u) (lo hi : BitVec w) : Prop :=
  ∀ n, n ≤ hi.toNat - lo.toNat → ∃ g', g.nexts n = some g' ∧
    (n < hi.toNat - lo.toNat → g'.end_ = false ∧
      g'.getCurrentStep = some (BitVec.ofNat w (lo.toNat + n))) ∧
    (n = hi.toNat - lo.toNat → g'.end_ = true)

theorem init_ahead (sorts : Sorts w) (todo done : ListIntervals w w) {li : ListIntervals w w}
    {seed : Seed} {stepStart stepEnd lo hi : BitVec w}
    (hrange : stepRange (u.max (u.init seed li.size)) stepStart stepEnd = (lo, hi)) (h : lo < hi) :
    Ahead (init u sorts todo done li seed stepStart stepEnd) (intervalValues ⟨lo, hi⟩) := by
  have hp : AllProper [(⟨lo, hi⟩ : Interval w)] := by
    intro i hi
    rw [List.mem_singleton.mp hi]
    exact h
  have hwalks := walks_valueBegin (l := { intervals := [⟨lo, hi⟩] }) hp
  simp only [values_cons, values_nil, List.append_nil] at hwalks
  unfold Ahead init
  simp only [hrange]
  exact hwalks

theorem init_not_end {sorts : Sorts w} {todo done li : ListIntervals w w} {seed : Seed}
    {stepStart stepEnd : BitVec w} :
    (init u sorts todo done li seed stepStart stepEnd).end_ = false := by
  simp [end_, init, valueBegin, valueEnd, ListIntervals.add, ListIntervals.clear]

theorem walksRange_of_ahead {g : RandomPromise u} {lo hi : BitVec w} (h : lo < hi)
    (hg : Ahead g (intervalValues ⟨lo, hi⟩)) : WalksRange g lo hi := by
  have hp : (⟨lo, hi⟩ : Interval w).Proper := h
  have hlen : (intervalValues ⟨lo, hi⟩).length = hi.toNat - lo.toNat := by
    rw [length_intervalValues, toNat_width hp]
  intro n hn
  obtain ⟨it, hnexts, hahead⟩ := hg.nexts (n := n) (by omega)
  refine ⟨_, hnexts, ?_, ?_⟩
  · intro hlt
    have hin : n < (intervalValues ⟨lo, hi⟩).length := by omega
    rw [List.drop_eq_getElem_cons hin] at hahead
    have hstep := hahead.next.1
    refine ⟨?_, ?_⟩
    · rw [← Bool.not_eq_true, hahead.end_iff]
      exact List.cons_ne_nil _ _
    · rw [hstep]
      simp only [intervalValues, List.getElem_map, List.getElem_range, Option.some.injEq]
      apply BitVec.eq_of_toNat_eq
      have hwidth : n < (width (⟨lo, hi⟩ : Interval w)).toNat := by
        rw [toNat_width hp]
        exact hlt
      have hadd := toNat_lower_add hp hwidth
      have hhi := hi.isLt
      rw [hadd, BitVec.toNat_ofNat, Nat.mod_eq_of_lt (by omega)]
  · intro heq
    rw [hahead.end_iff]
    apply List.drop_eq_nil_of_le
    omega

end RandomPromise

open RandomPromise in
/-- **Which ranges are walked.** With the bounds clipped and in order, the
generator walks `lo, …, hi - 1` and then ends, exactly when the range is
not empty. -/
theorem walksRange_iff (u : Uprng Seed 32) (hmax : ∀ seed max, u.max (u.init seed max) = max)
    (sorts : Sorts 32) (todo done li : ListIntervals 32 32) (seed : Seed)
    (stepStart stepEnd : BitVec 32) :
    let lo := min (min stepStart li.size) (min stepEnd li.size)
    let hi := max (min stepStart li.size) (min stepEnd li.size)
    WalksRange (init u sorts todo done li seed stepStart stepEnd) lo hi ↔ lo ≠ hi := by
  intro lo hi
  have hrange : stepRange (u.max (u.init seed li.size)) stepStart stepEnd = (lo, hi) := by
    rw [hmax, stepRange_eq]
  constructor
  · intro h heq
    -- nothing to walk, and yet the generator is not at its end
    obtain ⟨g', hnexts, _, hend⟩ := h 0 (by omega)
    cases hnexts
    have htrue := hend (by rw [heq]; omega)
    rw [init_not_end] at htrue
    cases htrue
  · intro hne
    have hle := (stepRange_le (u.max (u.init seed li.size)) stepStart stepEnd).1
    rw [hrange] at hle
    have hlt : lo < hi := lt_of_le_of_ne hle hne
    exact walksRange_of_ahead hlt (init_ahead _ _ _ hrange hlt)

/-- `uni` reports the `max` it was initialised with. -/
theorem uniUprng_max (rand : UniEngine) (max : BitVec 32) :
    uniUprng.max (uniUprng.init rand max) = max := rfl

open RandomPromise in
theorem walksRange_iff_uni :
    WalksRange (init uniUprng (Sorts.insertion 32) {} {} cachedSample ⟨fun _ => (2, 1),
      Shuffle.id _⟩ 4 1) 1 4 :=
  (walksRange_iff uniUprng uniUprng_max (Sorts.insertion 32) {} {} cachedSample
    ⟨fun _ => (2, 1), Shuffle.id _⟩ 4 1).mpr (by decide)

open RandomPromise in
/-- On an empty list the whole range is `[0, 0)`, and the generator is not
at its end. -/
theorem walksRange_empty_list :
    let g := init uniUprng (Sorts.insertion 32) {} {} {} ⟨fun _ => (2, 1), Shuffle.id _⟩ 0 0
    g.end_ = false ∧ ¬ WalksRange g 0 0 := by
  intro g
  refine ⟨init_not_end, fun h => ?_⟩
  obtain ⟨g', hnexts, _, hend⟩ := h 0 (by decide)
  cases hnexts
  have htrue : g.end_ = true := hend rfl
  rw [init_not_end] at htrue
  cases htrue

end Leeloo
