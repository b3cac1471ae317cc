/-
Leeloo.PromiseSessions — a `list_intervals_random_promise` over any number
of sessions: steps are handed out and marked done, the state is saved and
restored, and done steps are handed to other generators.

The generator is a queue with acknowledgements: each call on it is a step
of `Leeloo.Lib.AckQueue`, or changes nothing that the queue has
(`Refines.step`). So what the queue keeps holds along every sequence of
sessions (`promise_sessions`). A session that breaks off costs what was
handed out and not marked before the last save, which is the only one that
is kept: that is handed out again, and nothing is lost.
-/
import Leeloo.Enumeration
import Leeloo.ListIntervalsRandom
import Leeloo.Lib.AckQueue
import Mathlib.Logic.Relation

namespace Leeloo

open HalfOpen Leeloo.Interval ListIntervals ValueIterator RandomPromise

variable {Seed : Type} {w : Nat} {u : Uprng Seed w}

/-- `size_done`. -/
def RandomPromise.sizeDone (g : RandomPromise u) : BitVec w := g.doneSteps.size

/-- A generator at work and the file with its state, as last saved. The other fields record
what happened: the steps and elements of the session and of those before it,
and the steps marked done: now, when the file was written, and when the
session began. -/
structure Work (u : Uprng Seed w) where
  g : RandomPromise u
  file : Option (SavedState Seed w)
  given : List (BitVec w × BitVec w)
  earlier : List (BitVec w × BitVec w)
  marked : Set (BitVec w)
  saved : Set (BitVec w)
  base : Set (BitVec w)

namespace Work

def start (g : RandomPromise u) : Work u := ⟨g, none, [], [], ∅, ∅, ∅⟩

/-- The calls on a generator at work. A step is marked when it was handed
out, in this session or before; a session ends with another generator that
is restored from the file, or is given the done steps. -/
inductive Step (li : ListIntervals w w) : Work u → Work u → Prop
  | call {W : Work u} {k v : BitVec w} {g' : RandomPromise u}
      (hcur : W.g.getCurrentStep = some k) (hcall : W.g.call li = some (v, g')) :
      Step li W { W with g := g', given := W.given ++ [(k, v)] }
  | stepDone {W : Work u} {k : BitVec w} {sorts : Sorts w} {g' : RandomPromise u}
      (hk : k ∈ (W.earlier ++ W.given).map Prod.fst) (hdone : W.g.stepDone sorts k = some g') :
      Step li W { W with g := g', marked := insert k W.marked }
  | aggregateDone {W : Work u} {sorts : Sorts w} :
      Step li W { W with g := W.g.aggregateDoneSteps sorts }
  | save {W : Work u} {sorts : Sorts w} :
      Step li W { W with
        g := (W.g.saveState sorts).2, file := some (W.g.saveState sorts).1, saved := W.marked }
  | restore {W : Work u} {sorts sorts' : Sorts w} {file : SavedState Seed w}
      (other : RandomPromise u) (hfile : W.file = some file) :
      Step li W { W with
        g := other.restoreState sorts sorts' file li, given := []
        earlier := W.earlier ++ W.given, marked := W.saved, base := W.saved }
  | handOver {W : Work u} {sorts sorts' : Sorts w} (other : RandomPromise u)
      (huprng : other.uprng = W.g.uprng) (hseed : other.seed = W.g.seed) :
      Step li W { W with
        g := other.setDoneSteps sorts sorts' W.g.doneSteps, given := []
        earlier := W.earlier ++ W.given, base := W.marked }

end Work

/-! ## The queue of a generator -/

/-- The element that step `k` gives. -/
def element (u : Uprng Seed w) (li : ListIntervals w w) (seed : Seed) (k : BitVec w) : BitVec w :=
  valueAt li (u.getStep (u.init seed li.size) k)

/-- The steps that are done from the start, and those marked. -/
def doneSet (lo hi max : BitVec w) (marked : Set (BitVec w)) : Set (BitVec w) :=
  {k | k < lo ∨ (hi ≤ k ∧ k < max) ∨ k ∈ marked}

/-- The generator has the queue's steps ahead, and its done steps and those
of the file are the queue's acknowledgements. -/
structure Refines (li : ListIntervals w w) (seed : Seed) (lo hi : BitVec w) (W : Work u)
    (q : AckQueue.State (BitVec w)) : Prop where
  uprng : W.g.uprng = u.init seed li.size
  sameSeed : W.g.seed = seed
  ahead : Ahead W.g q.ahead
  done : DoneCovers W.g.doneSteps (doneSet lo hi li.size q.acked)
  file : ∀ file, W.file = some file → file.seed = seed ∧
    DoneCovers ({ intervals := file.doneSteps } : ListIntervals w w)
      (doneSet lo hi li.size q.saved)
  given : W.given.map Prod.fst = q.given
  earlier : W.earlier.map Prod.fst = q.earlier
  marked : W.marked = q.acked
  saved : W.saved = q.saved
  base : W.base = q.base
  elements : ∀ p ∈ W.earlier ++ W.given, p.2 = element u li seed p.1

section Steps

variable {li : ListIntervals w w} {seed : Seed} {lo hi : BitVec w}

theorem doneSet_insert (marked : Set (BitVec w)) (k : BitVec w) :
    doneSet lo hi li.size (insert k marked) = doneSet lo hi li.size marked ∪ {k} := by
  apply Set.ext
  intro x
  simp only [doneSet, Set.mem_insert_iff, Set.mem_union, Set.mem_ofPred_eq, Set.mem_singleton_iff]
  grind

/-- What is left behind the done steps is what the queue has left. -/
theorem not_mem_doneSet (hmax : hi ≤ li.size) (marked : Set (BitVec w)) (k : BitVec w) :
    (k < li.size ∧ k ∉ doneSet lo hi li.size marked) ↔ k ∈ Set.Ico lo hi ∧ k ∉ marked := by
  simp only [doneSet, Set.mem_ofPred_eq, Set.mem_Ico]
  grind

/-- Done steps are kept by their intervals alone. -/
theorem DoneCovers.reload {d d' : ListIntervals w w} {S : Set (BitVec w)} (h : DoneCovers d S)
    (hints : d'.intervals = d.intervals) (hqueue : d'.removedIntervals = []) : DoneCovers d' S :=
  ⟨hqueue, fun i hi => h.ordered i (hints ▸ hi), by rw [hints]; exact h.covered⟩

/-- A call moves as `next` does, and returns the element of the step. -/
theorem call_eq (hli : Served li) (hu : u.StepPermutes seed li.size) {g g' : RandomPromise u}
    (huprng : g.uprng = u.init seed li.size) {k : BitVec w} (hk : k < li.size)
    (hcur : g.getCurrentStep = some k) (hnext : g.next = some g') :
    g.call li = some (element u li seed k, g') := by
  have hstep := hu.getStep_lt hk
  have hat : li.atCached (u.getStep (u.init seed li.size) k) = some (element u li seed k) :=
    hli.atCached (by rw [← hli.toNat_size]; exact hstep)
  have hget : g.getCurrent li = some (element u li seed k) := by
    unfold RandomPromise.getCurrent
    unfold RandomPromise.getCurrentStep at hcur
    rw [hcur, huprng]
    exact hat
  simp only [RandomPromise.call, hget, hnext, Option.bind_eq_bind, Option.bind_some]

section Calls

variable {W : Work u} {q : AckQueue.State (BitVec w)}

/-- `operator()` hands out the first step ahead. -/
theorem Refines.call (hli : Served li) (hu : u.StepPermutes seed li.size) (hmax : hi ≤ li.size)
    (h : Refines li seed lo hi W q) (hq : AckQueue.Inv (Set.Ico lo hi) q) {k v : BitVec w}
    {g' : RandomPromise u} (hcur : W.g.getCurrentStep = some k)
    (hcall : W.g.call li = some (v, g')) :
    ∃ q', AckQueue.Step (Set.Ico lo hi) q q' ∧
      Refines li seed lo hi { W with g := g', given := W.given ++ [(k, v)] } q' := by
  have hnext := next_of_call hcall
  cases hahead : q.ahead with
  | nil =>
    have hend := h.ahead.end_iff.mpr hahead
    rw [RandomPromise.next, if_pos hend] at hnext
    cases hnext
  | cons k' rest =>
    have hwalk := h.ahead
    rw [hahead] at hwalk
    obtain ⟨hcur', it, hnext', hwalk'⟩ := hwalk.next
    cases hcur.symm.trans hcur'
    cases hnext.symm.trans hnext'
    have hitem := ((hq.mem_ahead_iff k).mp (by rw [hahead]; exact List.mem_cons_self)).1
    refine ⟨_, .give hahead, ?_⟩
    refine ⟨h.uprng, h.sameSeed, hwalk', h.done, h.file, ?_, h.earlier, h.marked, h.saved,
      h.base, ?_⟩
    · simp [h.given]
    · intro p hp
      simp only [← List.append_assoc] at hp
      cases List.mem_append.mp hp with
      | inl hp => exact h.elements p hp
      | inr hp =>
        rw [List.mem_singleton.mp hp]
        have hsame := call_eq hli hu h.uprng (lt_of_lt_of_le hitem.2 hmax) hcur hnext
        exact (Prod.mk.inj (Option.some.inj (hcall.symm.trans hsame))).1

/-- `step_done` acknowledges a step, whether it aggregates or not. -/
theorem Refines.stepDone (h : Refines li seed lo hi W q) (hq : AckQueue.Inv (Set.Ico lo hi) q)
    {k : BitVec w} {sorts : Sorts w} {g' : RandomPromise u}
    (hk : k ∈ (W.earlier ++ W.given).map Prod.fst) (hdone : W.g.stepDone sorts k = some g') :
    ∃ q', AckQueue.Step (Set.Ico lo hi) q q' ∧
      Refines li seed lo hi { W with g := g', marked := insert k W.marked } q' := by
  rw [List.map_append, h.earlier, h.given] at hk
  have hitem := hq.mem_items hk
  have hbound : k.toNat < hi.toNat := hitem.2
  have hhi := hi.isLt
  have hadd := h.done.add k (by omega)
  rw [← doneSet_insert] at hadd
  refine ⟨_, .ack hk, ?_⟩
  have hcases : g' = { W.g with doneSteps := W.g.doneSteps.add ⟨k, k + 1⟩ } ∨
      g' = { W.g with doneSteps := (W.g.doneSteps.add ⟨k, k + 1⟩).aggregate sorts } :=
    stepDone_cases hdone
  cases hcases with
  | inl heq =>
    subst heq
    exact ⟨h.uprng, h.sameSeed, h.ahead, hadd, h.file, h.given, h.earlier,
      by simp only [h.marked], h.saved, h.base, h.elements⟩
  | inr heq =>
    subst heq
    exact ⟨h.uprng, h.sameSeed, h.ahead, hadd.aggregate sorts, h.file, h.given, h.earlier,
      by simp only [h.marked], h.saved, h.base, h.elements⟩

theorem Refines.aggregateDone (h : Refines li seed lo hi W q) (sorts : Sorts w) :
    Refines li seed lo hi { W with g := W.g.aggregateDoneSteps sorts } q :=
  ⟨h.uprng, h.sameSeed, h.ahead, h.done.aggregate _, h.file, h.given, h.earlier, h.marked, h.saved,
    h.base, h.elements⟩

/-- `save_state` is the checkpoint. -/
theorem Refines.save (h : Refines li seed lo hi W q) (sorts : Sorts w) :
    ∃ q', AckQueue.Step (Set.Ico lo hi) q q' ∧ Refines li seed lo hi { W with
      g := (W.g.saveState sorts).2, file := some (W.g.saveState sorts).1,
      saved := W.marked } q' := by
  have hagg := h.done.aggregate sorts
  refine ⟨_, .save, h.uprng, h.sameSeed, h.ahead, hagg, ?_, h.given, h.earlier, h.marked,
    h.marked, h.base, h.elements⟩
  intro file hfile
  cases hfile
  exact ⟨h.sameSeed, hagg.reload rfl rfl⟩

/-- `set_done_steps` begins a session, with the done steps of now or of the
checkpoint. -/
theorem Refines.restart (hu : u.StepPermutes seed li.size) (hlt : lo < hi) (hmax : hi ≤ li.size)
    (h : Refines li seed lo hi W q) {g : RandomPromise u} (huprng : g.uprng = u.init seed li.size)
    (hseed : g.seed = seed) {acked : Set (BitVec w)} (hacked : acked = q.acked ∨ acked = q.saved)
    {d : ListIntervals w w} (hd : DoneCovers d (doneSet lo hi li.size acked))
    (sorts sorts' : Sorts w) :
    ∃ q', AckQueue.Step (Set.Ico lo hi) q q' ∧ Refines li seed lo hi { W with
      g := g.setDoneSteps sorts sorts' d, given := []
      earlier := W.earlier ++ W.given, marked := acked, base := acked } q' := by
  have hpos : u.max g.uprng = li.size := by rw [huprng, hu.max_init]
  have hsize : 0 < li.size := lt_of_le_of_lt (Word.zero_le lo) (lt_of_lt_of_le hlt hmax)
  obtain ⟨vs, hwalk, hasc, hmem⟩ := setDoneSteps_ahead sorts sorts' g hd (by rwa [hpos])
  refine ⟨_, .restart hacked hasc ?_, huprng, hseed, hwalk, hd.aggregate sorts, h.file, rfl, ?_,
    rfl, h.saved, rfl, ?_⟩
  · intro k
    rw [hmem, hpos, not_mem_doneSet hmax]
  · simp only [List.map_append, h.earlier, h.given]
  · rw [List.append_nil]
    exact h.elements

theorem Refines.restore (hu : u.StepPermutes seed li.size) (hlt : lo < hi) (hmax : hi ≤ li.size)
    (h : Refines li seed lo hi W q) (other : RandomPromise u) (sorts sorts' : Sorts w)
    {file : SavedState Seed w} (hfile : W.file = some file) :
    ∃ q', AckQueue.Step (Set.Ico lo hi) q q' ∧ Refines li seed lo hi { W with
      g := other.restoreState sorts sorts' file li, given := []
      earlier := W.earlier ++ W.given, marked := W.saved, base := W.saved } q' := by
  obtain ⟨hseed, hcovers⟩ := h.file file hfile
  let d : ListIntervals w w := { other.doneSteps.clear with intervals := file.doneSteps }
  let g : RandomPromise u := { other with
    seed := file.seed, uprng := u.init file.seed li.size, doneSteps := d }
  have huprng : g.uprng = u.init seed li.size := by rw [← hseed]
  have hd : DoneCovers d (doneSet lo hi li.size W.saved) := by
    rw [h.saved]
    exact hcovers.reload rfl rfl
  exact h.restart hu hlt hmax huprng hseed (Or.inr h.saved) hd _ _

theorem Refines.handOver (hu : u.StepPermutes seed li.size) (hlt : lo < hi) (hmax : hi ≤ li.size)
    (h : Refines li seed lo hi W q) (other : RandomPromise u) (sorts sorts' : Sorts w)
    (huprng : other.uprng = W.g.uprng) (hseed : other.seed = W.g.seed) :
    ∃ q', AckQueue.Step (Set.Ico lo hi) q q' ∧ Refines li seed lo hi { W with
      g := other.setDoneSteps sorts sorts' W.g.doneSteps, given := []
      earlier := W.earlier ++ W.given, base := W.marked } q' := by
  have hcovers := h.done
  rw [← h.marked] at hcovers
  exact h.restart hu hlt hmax (huprng.trans h.uprng) (hseed.trans h.sameSeed) (Or.inl h.marked)
    hcovers _ _

end Calls

/-- **Each call is a step of the queue**, or none. -/
theorem Refines.step (hli : Served li) (hu : u.StepPermutes seed li.size) (hlt : lo < hi)
    (hmax : hi ≤ li.size) {W W' : Work u} {q : AckQueue.State (BitVec w)}
    (h : Refines li seed lo hi W q) (hq : AckQueue.Inv (Set.Ico lo hi) q) (hstep : W.Step li W') :
    ∃ q', (q' = q ∨ AckQueue.Step (Set.Ico lo hi) q q') ∧ Refines li seed lo hi W' q' := by
  have moves : (∃ q', AckQueue.Step (Set.Ico lo hi) q q' ∧ Refines li seed lo hi W' q') →
      ∃ q', (q' = q ∨ AckQueue.Step (Set.Ico lo hi) q q') ∧ Refines li seed lo hi W' q' :=
    fun ⟨q', hmove, hq'⟩ => ⟨q', Or.inr hmove, hq'⟩
  cases hstep with
  | call hcur hcall => exact moves (h.call hli hu hmax hq hcur hcall)
  | stepDone hk hdone => exact moves (h.stepDone hq hk hdone)
  | aggregateDone => exact ⟨q, Or.inl rfl, h.aggregateDone _⟩
  | save => exact moves (h.save _)
  | restore other hfile => exact moves (h.restore hu hlt hmax other _ _ hfile)
  | handOver other huprng hseed => exact moves (h.handOver hu hlt hmax other _ _ huprng hseed)

/-! ## When `step_done` returns -/

/-- **`step_done` returns** on every step the session handed out, and on no
other step that is ahead of the current one: a step of an earlier session may
be there, and then the assertion fails. -/
theorem Refines.stepDone_isSome_iff {W : Work u} {q : AckQueue.State (BitVec w)}
    (h : Refines li seed lo hi W q) (hq : AckQueue.Inv (Set.Ico lo hi) q) (sorts : Sorts w)
    (k : BitVec w) :
    (W.g.stepDone sorts k).isSome ↔
      k ∈ W.given.map Prod.fst ∨ ∀ cur ∈ W.g.currentSteps, k ≤ cur := by
  rw [h.ahead.stepDone_isSome_iff]
  constructor
  · exact Or.inr
  · rintro (hgiven | hle)
    · intro cur hcur
      rw [h.given] at hgiven
      have hahead := h.ahead.currentSteps_subset cur hcur
      exact le_of_lt ((List.pairwise_append.mp hq.ascending).2.2 k hgiven cur hahead)
    · exact hle

end Steps

/-! ## Sessions -/

section Sessions

variable {li : ListIntervals w w} {seed : Seed} {lo hi : BitVec w}

/-- A fresh generator has the whole range ahead. -/
theorem refines_start (hu : u.StepPermutes seed li.size) {sorts : Sorts w}
    {todo done : ListIntervals w w} {stepStart stepEnd : BitVec w}
    (hrange : stepRange li.size stepStart stepEnd = (lo, hi)) (hlt : lo < hi)
    (hmax : hi ≤ li.size) :
    Refines li seed lo hi (.start (init u sorts todo done li seed stepStart stepEnd))
      ⟨intervalValues ⟨lo, hi⟩, [], [], ∅, ∅, ∅⟩ := by
  have hrange' : stepRange (u.max (u.init seed li.size)) stepStart stepEnd = (lo, hi) := by
    rw [hu.max_init]
    exact hrange
  have hprogress : Progress lo hi (u.max (u.init seed li.size))
      (init u sorts todo done li seed stepStart stepEnd)
      (init u sorts todo done li seed stepStart stepEnd).currentSteps [] :=
    init_progress hrange' hlt (by rwa [hu.max_init])
  have hset : ({k | k < lo ∨ (hi ≤ k ∧ k < u.max (u.init seed li.size)) ∨ k ∈ []} :
      Set (BitVec w)) = doneSet lo hi li.size ∅ := by
    apply Set.ext
    intro k
    simp [doneSet, hu.max_init]
  have hdone := hprogress.done
  rw [hset] at hdone
  exact ⟨rfl, rfl, init_ahead sorts todo done hrange' hlt, hdone, (fun _ h => nomatch h), rfl, rfl,
    rfl, rfl, rfl, fun _ hp => (List.not_mem_nil hp).elim⟩

/-- **A run**, over any number of sessions. -/
theorem exists_refines (hli : Served li) (hu : u.StepPermutes seed li.size) {sorts : Sorts w}
    {todo done : ListIntervals w w} {stepStart stepEnd : BitVec w}
    (hrange : stepRange li.size stepStart stepEnd = (lo, hi)) (hlt : lo < hi)
    (hmax : hi ≤ li.size) {W : Work u}
    (hrun : Relation.ReflTransGen (Work.Step li)
      (.start (init u sorts todo done li seed stepStart stepEnd)) W) :
    ∃ q, Refines li seed lo hi W q ∧ AckQueue.Inv (Set.Ico lo hi) q := by
  induction hrun with
  | refl =>
    have hp : (⟨lo, hi⟩ : Interval w).Proper := hlt
    exact ⟨_, refines_start hu hrange hlt hmax,
      AckQueue.inv_start (intervalValues_ascending hp) fun k => mem_intervalValues hp⟩
  | tail _ hstep ih =>
    obtain ⟨q, hq, hinv⟩ := ih
    obtain ⟨q', hcases, hq'⟩ := hq.step hli hu hlt hmax hinv hstep
    cases hcases with
    | inl heq => exact ⟨q', hq', heq ▸ hinv⟩
    | inr hstep => exact ⟨q', hq', hinv.step hstep⟩

/-- The elements of all steps are the values of the list. -/
theorem exists_element_iff (hli : Served li) (hu : u.StepPermutes seed li.size) (v : BitVec w) :
    (∃ k, k < li.size ∧ element u li seed k = v) ↔ v ∈ covers li.intervals := by
  rw [← mem_values_iff hli.proper, ← (ListIntervalsRandom.outputs_perm hli hu).mem_iff,
    List.mem_map]
  constructor
  · rintro ⟨k, hk, rfl⟩
    exact ⟨k.toNat, List.mem_range.mpr hk, by simp [ListIntervalsRandom.output, element]⟩
  · rintro ⟨n, hn, rfl⟩
    have hlt := List.mem_range.mp hn
    have hsize := li.size.isLt
    refine ⟨BitVec.ofNat w n, ?_, rfl⟩
    rw [BitVec.lt_def, BitVec.toNat_ofNat, Nat.mod_eq_of_lt (by omega)]
    exact hlt

end Sessions

/-! ## The number of done steps -/

section Size

variable {ints : List (Interval w)}

/-- Empty intervals add nothing to the widths. -/
theorem widthSum_filter (h : ∀ i ∈ ints, i.lower ≤ i.upper) :
    widthSum (ints.filter fun i => decide (i.lower < i.upper)) = widthSum ints := by
  induction ints with
  | nil => rfl
  | cons i ints ih =>
    obtain ⟨hi, hints⟩ := List.forall_mem_cons.mp h
    by_cases hp : i.lower < i.upper
    · rw [List.filter_cons, if_pos (decide_eq_true hp), widthSum_cons, widthSum_cons, ih hints]
    · have heq : i.lower = i.upper := le_antisymm hi (not_lt.mp hp)
      have hwidth : i.width = 0 := by
        rw [Interval.width, heq]
        exact BitVec.sub_self _
      rw [List.filter_cons, if_neg (by simpa using hp), widthSum_cons, ih hints, hwidth]
      simp

/-- Empty intervals cover nothing. -/
theorem covers_filter (ints : List (Interval w)) :
    covers (ints.filter fun i => decide (i.lower < i.upper)) = covers ints := by
  ext v
  simp only [mem_covers, List.mem_filter, decide_eq_true_eq]
  constructor
  · rintro ⟨i, ⟨hi, -⟩, hv⟩
    exact ⟨i, hi, hv⟩
  · rintro ⟨i, hi, hv⟩
    exact ⟨i, ⟨hi, lt_of_le_of_lt hv.1 hv.2⟩, hv⟩

/-- **`size_done()` counts**, behind `aggregate_done_steps`. -/
theorem DoneCovers.toNat_size {d : ListIntervals w w} {S : Set (BitVec w)} (h : DoneCovers d S)
    (sorts : Sorts w) : (d.aggregate sorts).size.toNat = S.ncard := by
  have hagg := h.aggregate sorts
  have hseparated : Separated (· < ·) (d.aggregate sorts).intervals := by
    rw [aggregate_intervals_of_or sorts (Or.inl h.queue)]
    exact separated_aggregateContainer sorts.stored d.intervals
  let ns := (d.aggregate sorts).intervals.filter fun i => decide (i.lower < i.upper)
  have hproper : AllProper ns := fun i hi => of_decide_eq_true (List.mem_filter.mp hi).2
  have hns : Separated (· ≤ ·) ns := (hseparated.filter _).imp le_of_lt
  have hsum : widthSum ns = widthSum (d.aggregate sorts).intervals := widthSum_filter hagg.ordered
  have hmem : ∀ v, v ∈ values ns ↔ v ∈ S := by
    intro v
    rw [mem_values_iff hproper, covers_filter, hagg.covered]
  rw [Leeloo.toNat_size (by rw [← hsum]; exact widthSum_lt hproper hns), ← hsum, ← length_values]
  exact (ncard_of_nodup (values_nodup hproper hns) hmem).symm

end Size

/-! ## What every run keeps -/

/-- What is left of the session, when the generator runs to its end. -/
theorem Refines.drain {li : ListIntervals w w} {seed : Seed} {lo hi : BitVec w} {W : Work u}
    {q : AckQueue.State (BitVec w)} (h : Refines li seed lo hi W q) (hli : Served li)
    (hu : u.StepPermutes seed li.size) (hmax : hi ≤ li.size)
    (hq : AckQueue.Inv (Set.Ico lo hi) q) :
    W.g.drain li (li.size.toNat + 1) = some (q.ahead.map fun k => (k, element u li seed k)) := by
  have hlt : ∀ k ∈ q.ahead, k < li.size := fun k hk =>
    lt_of_lt_of_le ((hq.mem_ahead_iff k).mp hk).1.2 hmax
  refine drain_ahead h.ahead ?_ ?_
  · intro k hk
    have hstep := hu.getStep_lt (hlt k hk)
    rw [h.uprng]
    exact hli.atCached (by rw [← hli.toNat_size]; exact hstep)
  · have hasc : q.ahead.Pairwise (· < ·) := (List.pairwise_append.mp hq.ascending).2.1
    exact Nat.lt_succ_of_le (length_le_of_ascending hasc hlt)

/-- **Any number of sessions.** However a generator for the steps from `lo`
to `hi` is used (steps handed out and marked done, now or in a later
session, the state saved, restored from an older save, or the done steps
given to another generator):

* each step handed out lies in the range and comes with its element, which
  is the same in every session;
* a session hands out no step twice, and none that was marked done when it
  began; run to its end it hands out all the others;
* at the end of a session every step of the range was handed out, in it or
  before it, and so was every value of the list if the range is the whole
  one; a session that marks what it hands out leaves nothing to do;
* `size_done()` counts the done steps, once they are aggregated. -/
theorem promise_sessions {Seed : Type} (u : Uprng Seed 32) (seed : Seed)
    (l₀ li : ListIntervals 32 32) (c : BitVec 64) (hn : Normal l₀.intervals)
    (hc : l₀.createIndexCache c = some li) (hu : u.StepPermutes seed li.size) (sorts : Sorts 32)
    (todo done : ListIntervals 32 32) {stepStart stepEnd lo hi : BitVec 32}
    (hrange : stepRange li.size stepStart stepEnd = (lo, hi)) (hlt : lo < hi) {W : Work u}
    (hrun : Relation.ReflTransGen (Work.Step li)
      (.start (init u sorts todo done li seed stepStart stepEnd)) W) :
    (∀ p ∈ W.earlier ++ W.given, p.1 ∈ Set.Ico lo hi ∧ p.2 = element u li seed p.1) ∧
      ((W.given.map Prod.fst).Pairwise (· < ·) ∧ ∀ p ∈ W.given, p.1 ∉ W.base) ∧
      (∃ rest, W.g.drain li (li.size.toNat + 1) = some rest ∧ ∀ k v, (k, v) ∈ rest ↔
        (k ∈ Set.Ico lo hi ∧ k ∉ W.base ∧ k ∉ W.given.map Prod.fst) ∧
          v = element u li seed k) ∧
      (W.g.end_ = true →
        (∀ k ∈ Set.Ico lo hi, (k, element u li seed k) ∈ W.earlier ++ W.given) ∧
        ((∀ p ∈ W.given, p.1 ∈ W.marked) → ∀ k ∈ Set.Ico lo hi, k ∈ W.marked) ∧
        (lo = 0 → hi = li.size →
          ∀ v, v ∈ covers li.intervals ↔ v ∈ (W.earlier ++ W.given).map Prod.snd)) ∧
      ∀ sorts', (W.g.aggregateDoneSteps sorts').sizeDone.toNat =
        (doneSet lo hi li.size W.marked).ncard := by
  have hli := served_of_cache hn hc
  have hmax : hi ≤ li.size := by
    have hle := (stepRange_le li.size stepStart stepEnd).2
    rwa [hrange] at hle
  obtain ⟨q, hq, hinv⟩ := exists_refines hli hu hrange hlt hmax hrun
  have hsteps : (W.earlier ++ W.given).map Prod.fst = q.earlier ++ q.given := by
    rw [List.map_append, hq.earlier, hq.given]
  have hin : ∀ p ∈ W.earlier ++ W.given, p.1 ∈ Set.Ico lo hi ∧ p.2 = element u li seed p.1 := by
    intro p hp
    exact ⟨hinv.mem_items (hsteps ▸ List.mem_map_of_mem hp), hq.elements p hp⟩
  have hall : W.g.end_ = true → ∀ k ∈ Set.Ico lo hi,
      (k, element u li seed k) ∈ W.earlier ++ W.given := by
    intro hend k hk
    have hmem := hinv.all_given (hq.ahead.end_iff.mp hend) hk
    rw [← hsteps] at hmem
    obtain ⟨p, hp, rfl⟩ := List.mem_map.mp hmem
    rwa [← (hin p hp).2]
  refine ⟨hin, ⟨?_, ?_⟩, ⟨_, hq.drain hli hu hmax hinv, ?_⟩, fun hend => ⟨hall hend, ?_, ?_⟩, ?_⟩
  · rw [hq.given]
    exact (List.pairwise_append.mp hinv.ascending).1
  · intro p hp hbase
    have hgiven : p.1 ∈ q.given := hq.given ▸ List.mem_map_of_mem hp
    exact ((hinv.session p.1).mp (List.mem_append_left _ hgiven)).2 (hq.base ▸ hbase)
  · intro k v
    rw [hq.given, hq.base, ← hinv.mem_ahead_iff, List.mem_map]
    constructor
    · rintro ⟨x, hx, heq⟩
      obtain ⟨rfl, rfl⟩ := Prod.mk.inj heq
      exact ⟨hx, rfl⟩
    · rintro ⟨hk, rfl⟩
      exact ⟨k, hk, rfl⟩
  · intro hmarked k hk
    rw [hq.marked]
    refine hinv.all_acked (hq.ahead.end_iff.mp hend) ?_ hk
    intro x hx
    rw [← hq.given] at hx
    obtain ⟨p, hp, rfl⟩ := List.mem_map.mp hx
    exact hq.marked ▸ hmarked p hp
  · rintro rfl rfl v
    rw [← exists_element_iff hli hu, List.mem_map]
    constructor
    · rintro ⟨k, hk, rfl⟩
      exact ⟨_, hall hend k ⟨Word.zero_le k, hk⟩, rfl⟩
    · rintro ⟨p, hp, rfl⟩
      exact ⟨p.1, (hin p hp).1.2, (hin p hp).2.symm⟩
  · intro sorts'
    rw [hq.marked]
    exact hq.done.toNat_size sorts'

/-- Step 0 is marked and the state saved; step 1 is handed out and lost with
the generator. The next session begins with it. -/
theorem promise_sessions_uni :
    ∃ W : Work uniUprng, Relation.ReflTransGen (Work.Step cachedSample)
        (.start (init uniUprng (Sorts.insertion 32) {} {} cachedSample sampleEngine 0 5)) W ∧
      W.base = insert 0 ∅ ∧ W.earlier.map Prod.fst = [0, 1] ∧
      ∃ rest, W.g.drain cachedSample 6 = some rest ∧ ∀ k v, (k, v) ∈ rest ↔
        (k ∈ Set.Ico 0 5 ∧ k ∉ W.base ∧ k ∉ W.given.map Prod.fst) ∧
          v = element uniUprng cachedSample sampleEngine k := by
  have hn : Normal [(⟨3, 5⟩ : Interval 32), ⟨10, 13⟩] :=
    ⟨by decide, List.pairwise_pair.mpr (by decide)⟩
  have hc : ListIntervals.createIndexCache { intervals := [⟨3, 5⟩, ⟨10, 13⟩] } 1 =
      some cachedSample := by decide
  have hu : uniUprng.StepPermutes sampleEngine cachedSample.size :=
    uniUprng_stepPermutes (by decide) (by decide) (by decide) (by decide)
  have hli := served_of_cache hn hc
  let sorts := Sorts.insertion 32
  let elt := element uniUprng cachedSample sampleEngine
  let g₀ : RandomPromise uniUprng := init uniUprng sorts {} {} cachedSample sampleEngine 0 5
  let g₁ : RandomPromise uniUprng := { g₀ with itSteps := ⟨[⟨0, 5⟩], 1⟩ }
  let g₂ : RandomPromise uniUprng := { g₁ with doneSteps := g₁.doneSteps.add ⟨0, 1⟩ }
  let saved := g₂.saveState sorts
  let g₃ : RandomPromise uniUprng := { saved.2 with itSteps := ⟨[⟨0, 5⟩], 2⟩ }
  let W₁ : Work uniUprng := { Work.start g₀ with g := g₁, given := [(0, elt 0)] }
  let W₂ : Work uniUprng := { W₁ with g := g₂, marked := insert 0 ∅ }
  let W₃ : Work uniUprng := { W₂ with g := saved.2, file := some saved.1, saved := insert 0 ∅ }
  let W₄ : Work uniUprng := { W₃ with g := g₃, given := [(0, elt 0), (1, elt 1)] }
  let W₅ : Work uniUprng := { W₄ with
    g := g₀.restoreState sorts sorts saved.1 cachedSample, given := []
    earlier := [(0, elt 0), (1, elt 1)], base := insert 0 ∅ }
  have hcall₁ : g₀.call cachedSample = some (elt 0, g₁) :=
    call_eq hli hu rfl (by decide) rfl rfl
  have hcall₂ : saved.2.call cachedSample = some (elt 1, g₃) :=
    call_eq hli hu rfl (by decide) rfl rfl
  have hdone : g₁.stepDone sorts 0 = some g₂ := rfl
  have h₁ : Work.Step cachedSample (Work.start g₀) W₁ := .call rfl hcall₁
  have h₂ : Work.Step cachedSample W₁ W₂ := .stepDone List.mem_cons_self hdone
  have h₃ : Work.Step cachedSample W₂ W₃ := .save
  have h₄ : Work.Step cachedSample W₃ W₄ := .call rfl hcall₂
  have h₅ : Work.Step cachedSample W₄ W₅ := .restore g₀ rfl
  have hrun := ((((Relation.ReflTransGen.refl.tail h₁).tail h₂).tail h₃).tail h₄).tail h₅
  exact ⟨W₅, hrun, rfl, rfl, (promise_sessions uniUprng sampleEngine
    { intervals := [⟨3, 5⟩, ⟨10, 13⟩] } cachedSample 1 hn hc hu sorts {} {} (by decide) (by decide)
    hrun).2.2.1⟩

end Leeloo
