/-
Leeloo.AggregateRuns — runs of `add`, `remove` and `aggregate`, and the
removals that survive an `aggregate`.

`Pending` is what the class is for: a set of values and a set of values
queued for removal, with `aggregate` taking the difference and emptying
the queue. `step_refines` shows that every call of the class does this to
the sets its two vectors cover, one exit apart: `aggregate` returns early
when nothing is stored and leaves the queue as it was. `DropsRemovals`
names that state, and `aggregate_leaves_nothing_pending_iff` shows that it
is the only one from which a removal outlives its `aggregate`.
-/
import Leeloo.AggregateTheorems

namespace Leeloo

open HalfOpen

variable {w s : Nat}

/-! ## Runs -/

/-- A call of the public interface that changes the pending intervals. -/
inductive Call (w s : Nat) where
  | add (i : Interval w)
  | remove (i : Interval w)
  | addList (o : ListIntervals w s)
  | removeList (o : ListIntervals w s)
  | aggregate

namespace Call

/-- The intervals a call adds. -/
def added : Call w s → List (Interval w)
  | add i => [i]
  | addList o => o.intervals
  | _ => []

/-- The intervals a call queues for removal. -/
def removed : Call w s → List (Interval w)
  | remove i => [i]
  | removeList o => o.intervals
  | _ => []

/-- The call passes non-empty intervals only. -/
def Proper (c : Call w s) : Prop := AllProper c.added ∧ AllProper c.removed

/-- The effect of a call; `ties` are the sorts it makes if it is an
`aggregate`. -/
def step (ties : Sorts w) (l : ListIntervals w s) : Call w s → ListIntervals w s
  | add i => l.add i
  | remove i => l.remove i
  | addList o => l.addList o
  | removeList o => l.removeList o
  | aggregate => l.aggregate ties

end Call

/-- A run; call number `n` makes its sorts with `ties n`. -/
def run (ties : Nat → Sorts w) (l : ListIntervals w s) : List (Call w s) → ListIntervals w s
  | [] => l
  | c :: calls => run (fun n => ties (n + 1)) (c.step (ties 0) l) calls

/-- Every pending interval is non-empty. -/
structure PendingProper (l : ListIntervals w s) : Prop where
  intervals : AllProper l.intervals
  removed : AllProper l.removedIntervals

theorem allProper_append {a b : List (Interval w)} (ha : AllProper a) (hb : AllProper b) :
    AllProper (a ++ b) := by
  intro i hi
  obtain hi | hi := List.mem_append.mp hi
  · exact ha i hi
  · exact hb i hi

theorem step_pendingProper (ties : Sorts w) {l : ListIntervals w s} (h : PendingProper l)
    {c : Call w s} (hc : c.Proper) : PendingProper (c.step ties l) := by
  cases c with
  | add i => exact ⟨allProper_append h.intervals hc.1, h.removed⟩
  | remove i => exact ⟨h.intervals, allProper_append h.removed hc.2⟩
  | addList o => exact ⟨allProper_append h.intervals hc.1, h.removed⟩
  | removeList o => exact ⟨h.intervals, allProper_append h.removed hc.2⟩
  | aggregate =>
    refine ⟨(ListIntervals.aggregate_normal ties h.intervals h.removed).proper, ?_⟩
    simp only [Call.step, ListIntervals.aggregate_removedIntervals]
    split
    · exact h.removed
    · exact fun i hi => (List.not_mem_nil hi).elim

theorem run_pendingProper (ties : Nat → Sorts w) {l : ListIntervals w s} (h : PendingProper l)
    {calls : List (Call w s)} (hc : ∀ c ∈ calls, c.Proper) : PendingProper (run ties l calls) := by
  induction calls generalizing ties l with
  | nil => exact h
  | cons c calls ih =>
    exact ih _ (step_pendingProper _ h (hc c List.mem_cons_self))
      (fun d hd => hc d (List.mem_cons_of_mem _ hd))

/-! ## The abstract queue -/

/-- A set of values with a queue of removals. -/
structure Pending (α : Type) where
  stored : Set α
  removed : Set α

namespace Pending

/-- What each call means: adding and queueing are unions, and `aggregate`
takes the difference and empties the queue. -/
def step (p : Pending (BitVec w)) : Call w s → Pending (BitVec w)
  | .aggregate => ⟨p.stored \ p.removed, ∅⟩
  | c => ⟨p.stored ∪ covers c.added, p.removed ∪ covers c.removed⟩

end Pending

/-- The sets the two vectors cover. -/
def toPending (l : ListIntervals w s) : Pending (BitVec w) :=
  ⟨covers l.intervals, covers l.removedIntervals⟩

/-- `aggregate` would return early here and keep the removals. -/
def DropsRemovals (l : ListIntervals w s) : Prop := l.intervals = [] ∧ l.removedIntervals ≠ []

instance (l : ListIntervals w s) : Decidable (DropsRemovals l) :=
  inferInstanceAs (Decidable (_ ∧ _))

/-- Outside the early exit, `aggregate` empties the queue. -/
theorem aggregate_empties_queue {ties : Sorts w} {l : ListIntervals w s}
    (h : ¬ DropsRemovals l) : (l.aggregate ties).removedIntervals = [] := by
  rw [ListIntervals.aggregate_removedIntervals]
  split
  · rename_i hi
    exact not_not.mp fun hr => h ⟨hi, hr⟩
  · rfl

/-- Every call refines its abstract counterpart, early exit apart. -/
theorem step_refines (ties : Sorts w) {l : ListIntervals w s} (hl : PendingProper l)
    {c : Call w s} (hc : c = .aggregate → ¬ DropsRemovals l) :
    toPending (c.step ties l) = (toPending l).step c := by
  cases c with
  | add i => simp [toPending, Call.step, Pending.step, ListIntervals.add, Call.added,
      Call.removed, covers_append]
  | remove i => simp [toPending, Call.step, Pending.step, ListIntervals.remove, Call.added,
      Call.removed, covers_append]
  | addList o => simp [toPending, Call.step, Pending.step, ListIntervals.addList, Call.added,
      Call.removed, covers_append]
  | removeList o => simp [toPending, Call.step, Pending.step, ListIntervals.removeList, Call.added,
      Call.removed, covers_append]
  | aggregate =>
    simp only [toPending, Call.step, Pending.step, aggregate_empties_queue (hc rfl),
      ListIntervals.covers_aggregate ties hl.intervals hl.removed, covers_nil]

/-- No `aggregate` of the run takes the early exit with a queue. -/
def RunConsumes (ties : Nat → Sorts w) (l : ListIntervals w s) : List (Call w s) → Prop
  | [] => True
  | c :: calls => (c = .aggregate → ¬ DropsRemovals l) ∧
      RunConsumes (fun n => ties (n + 1)) (c.step (ties 0) l) calls

/-- A run none of whose `aggregate`s drops out early refines the abstract
run. -/
theorem run_refines {ties : Nat → Sorts w} {l : ListIntervals w s} (hl : PendingProper l)
    {calls : List (Call w s)} (hc : ∀ c ∈ calls, c.Proper) (hrun : RunConsumes ties l calls) :
    toPending (run ties l calls) = calls.foldl Pending.step (toPending l) := by
  induction calls generalizing ties l with
  | nil => rfl
  | cons c calls ih =>
    have hl' := step_pendingProper (ties 0) hl (hc c List.mem_cons_self)
    rw [run, List.foldl_cons, ← step_refines (ties 0) hl hrun.1]
    exact ih hl' (fun d hd => hc d (List.mem_cons_of_mem _ hd)) hrun.2

/-! ## Two runs from the same pending intervals -/

/-- Two lists with the same two vectors. -/
structure SamePending (a b : ListIntervals w s) : Prop where
  intervals : a.intervals = b.intervals
  removed : a.removedIntervals = b.removedIntervals

/-- One call keeps two lists equal, however each sorts. -/
theorem step_samePending {ties ties' : Sorts w} {a b : ListIntervals w s} (h : SamePending a b)
    (ha : PendingProper a) (hb : PendingProper b) (c : Call w s) :
    SamePending (c.step ties a) (c.step ties' b) := by
  obtain ⟨hi, hr⟩ := h
  cases c with
  | add i => exact ⟨by simp [Call.step, ListIntervals.add, hi], hr⟩
  | remove i => exact ⟨hi, by simp [Call.step, ListIntervals.remove, hr]⟩
  | addList o => exact ⟨by simp [Call.step, ListIntervals.addList, hi], hr⟩
  | removeList o => exact ⟨hi, by simp [Call.step, ListIntervals.removeList, hr]⟩
  | aggregate =>
    constructor
    · apply (ListIntervals.aggregate_normal ties ha.intervals ha.removed).ext
        (ListIntervals.aggregate_normal ties' hb.intervals hb.removed)
      rw [ListIntervals.covers_aggregate ties ha.intervals ha.removed,
        ListIntervals.covers_aggregate ties' hb.intervals hb.removed, hi, hr]
    · simp only [Call.step, ListIntervals.aggregate_removedIntervals, hi, hr]

theorem run_samePending {ties ties' : Nat → Sorts w} {a b : ListIntervals w s}
    (h : SamePending a b) (ha : PendingProper a) (hb : PendingProper b)
    {calls : List (Call w s)} (hc : ∀ c ∈ calls, c.Proper) :
    SamePending (run ties a calls) (run ties' b calls) := by
  induction calls generalizing ties ties' a b with
  | nil => exact h
  | cons c calls ih =>
    have hcp := hc c List.mem_cons_self
    exact ih (step_samePending h ha hb c) (step_pendingProper _ ha hcp)
      (step_pendingProper _ hb hcp) (fun d hd => hc d (List.mem_cons_of_mem _ hd))

/-! ## Nothing is left pending -/

/-- A fresh list into which the stored intervals of `l` were added. -/
def freshCopy (l : ListIntervals w s) : ListIntervals w s :=
  l.intervals.foldl ListIntervals.add {}

theorem foldl_add (ints : List (Interval w)) (l : ListIntervals w s) :
    ints.foldl ListIntervals.add l = { l with intervals := l.intervals ++ ints } := by
  induction ints generalizing l with
  | nil => simp
  | cons i ints ih => rw [List.foldl_cons, ih]; simp [ListIntervals.add]

theorem freshCopy_eq (l : ListIntervals w s) :
    freshCopy l = { intervals := l.intervals } := by
  rw [freshCopy, foldl_add]
  simp

/-- Every later sequence of calls stores what it would store on a fresh
copy, whatever the sorts of the two runs do with ties. -/
def LikeFresh (l : ListIntervals w s) : Prop :=
  ∀ (calls : List (Call w s)) (ties ties' : Nat → Sorts w), (∀ c ∈ calls, c.Proper) →
    (run ties l calls).intervals = (run ties' (freshCopy l) calls).intervals

/-- A value added later and not removed later is stored from then on. -/
def KeepsLaterValues (l : ListIntervals w s) : Prop :=
  ∀ (calls : List (Call w s)) (ties : Nat → Sorts w) (v : BitVec w), (∀ c ∈ calls, c.Proper) →
    (∃ c ∈ calls, v ∈ covers c.added) → (∀ c ∈ calls, v ∉ covers c.removed) →
    v ∈ covers (run ties l calls).intervals

/-- The list has no hidden pending state. -/
structure NothingPending (l : ListIntervals w s) : Prop where
  likeFresh : LikeFresh l
  keepsLaterValues : KeepsLaterValues l

/-- A value that no call removes is never queued. -/
theorem step_not_mem_removed {ties : Sorts w} {l : ListIntervals w s} {c : Call w s} {v : BitVec w}
    (hv : v ∉ covers l.removedIntervals) (hc : v ∉ covers c.removed) :
    v ∉ covers (c.step ties l).removedIntervals := by
  cases c with
  | add i => exact hv
  | remove i =>
    simp only [Call.step, ListIntervals.remove, covers_append, Set.mem_union, not_or]
    exact ⟨hv, hc⟩
  | addList o => exact hv
  | removeList o =>
    simp only [Call.step, ListIntervals.removeList, covers_append, Set.mem_union, not_or]
    exact ⟨hv, hc⟩
  | aggregate =>
    simp only [Call.step, ListIntervals.aggregate_removedIntervals]
    split
    · exact hv
    · simp

/-- A value stored or added, and not queued, is stored after the call. -/
theorem step_mem_intervals {ties : Sorts w} {l : ListIntervals w s} (hl : PendingProper l)
    {c : Call w s} {v : BitVec w} (hv : v ∉ covers l.removedIntervals)
    (h : v ∈ covers l.intervals ∨ v ∈ covers c.added) :
    v ∈ covers (c.step ties l).intervals := by
  cases c with
  | add i =>
    simp only [Call.step, ListIntervals.add, covers_append]
    exact h
  | remove i => exact h.resolve_right (by simp [Call.added])
  | addList o =>
    simp only [Call.step, ListIntervals.addList, covers_append]
    exact h
  | removeList o => exact h.resolve_right (by simp [Call.added])
  | aggregate =>
    simp only [Call.step, ListIntervals.covers_aggregate ties hl.intervals hl.removed]
    exact ⟨h.resolve_right (by simp [Call.added]), hv⟩

theorem run_mem_intervals {ties : Nat → Sorts w} {l : ListIntervals w s} (hl : PendingProper l)
    {calls : List (Call w s)} {v : BitVec w} (hc : ∀ c ∈ calls, c.Proper)
    (hv : v ∉ covers l.removedIntervals) (hrem : ∀ c ∈ calls, v ∉ covers c.removed)
    (h : v ∈ covers l.intervals ∨ ∃ c ∈ calls, v ∈ covers c.added) :
    v ∈ covers (run ties l calls).intervals := by
  induction calls generalizing ties l with
  | nil =>
    obtain h | ⟨c, hmem, _⟩ := h
    · exact h
    · exact (List.not_mem_nil hmem).elim
  | cons c calls ih =>
    have hcp := hc c List.mem_cons_self
    have hcr := hrem c List.mem_cons_self
    apply ih (step_pendingProper _ hl hcp) (fun d hd => hc d (List.mem_cons_of_mem _ hd))
      (step_not_mem_removed hv hcr) (fun d hd => hrem d (List.mem_cons_of_mem _ hd))
    obtain h | ⟨d, hd, hdv⟩ := h
    · exact Or.inl (step_mem_intervals hl hv (Or.inl h))
    · cases hd with
      | head => exact Or.inl (step_mem_intervals hl hv (Or.inr hdv))
      | tail _ hd => exact Or.inr ⟨d, hd, hdv⟩

/-- With an empty queue nothing is hidden. -/
theorem nothingPending_of_queue_empty {l : ListIntervals w s} (hl : PendingProper l)
    (h : l.removedIntervals = []) : NothingPending l where
  likeFresh := by
    intro calls ties ties' hc
    have hsame : SamePending l (freshCopy l) := ⟨by rw [freshCopy_eq], by rw [freshCopy_eq, h]⟩
    have hfresh : PendingProper (freshCopy l) := by
      rw [freshCopy_eq]
      exact ⟨hl.intervals, fun i hi => (List.not_mem_nil hi).elim⟩
    exact (run_samePending hsame hl hfresh hc).intervals
  keepsLaterValues := by
    intro calls ties v hc hadd hrem
    exact run_mem_intervals hl hc (by rw [h]; simp) hrem (Or.inr hadd)

/-- A queued removal deletes the very interval when it is added next. -/
theorem not_nothingPending_of_dropsRemovals {l : ListIntervals w s} (hl : PendingProper l)
    (h : DropsRemovals l) : ¬ NothingPending l := by
  intro hn
  obtain ⟨hi, hr⟩ := h
  obtain ⟨r, rest, hrem⟩ := List.exists_cons_of_ne_nil hr
  have hrmem : r ∈ l.removedIntervals := by rw [hrem]; exact List.mem_cons_self
  have hrp : r.Proper := hl.removed r hrmem
  let ties : Nat → Sorts w := fun _ => Sorts.insertion w
  have hcalls : ∀ c ∈ [Call.add r, .aggregate], (c : Call w s).Proper := by
    intro c hc
    simp only [List.mem_cons, List.not_mem_nil, or_false] at hc
    obtain rfl | rfl := hc
    · exact ⟨by intro i hi; rw [List.mem_singleton.mp hi]; exact hrp,
        fun i hi => (List.not_mem_nil hi).elim⟩
    · exact ⟨fun i hi => (List.not_mem_nil hi).elim, fun i hi => (List.not_mem_nil hi).elim⟩
  have hkeep := hn.keepsLaterValues [.add r, .aggregate] ties r.lower hcalls
    ⟨.add r, List.mem_cons_self, r, List.mem_cons_self, hrp.lower_mem⟩ (by
      intro c hc
      simp only [List.mem_cons, List.not_mem_nil, or_false] at hc
      obtain rfl | rfl := hc <;> simp [Call.removed])
  have hadd : PendingProper (l.add r) :=
    step_pendingProper (ties 0) hl (hcalls (.add r) List.mem_cons_self)
  have hcov := ListIntervals.covers_aggregate (ties 1) hadd.intervals hadd.removed
  simp only [run, Call.step] at hkeep
  rw [hcov] at hkeep
  exact hkeep.2 ⟨r, hrmem, hrp.lower_mem⟩

/-- **When `aggregate` leaves nothing pending.** After any run from an
empty list, an `aggregate` leaves no hidden state exactly when it does not
find the list empty with removals queued. -/
theorem aggregate_leaves_nothing_pending_iff (calls : List (Call w s)) (ties : Nat → Sorts w)
    (sorts : Sorts w) (hc : ∀ c ∈ calls, c.Proper) :
    NothingPending ((run ties {} calls).aggregate sorts) ↔
      ((run ties ({} : ListIntervals w s) calls).intervals = [] →
        (run ties ({} : ListIntervals w s) calls).removedIntervals = []) := by
  have hempty : PendingProper ({} : ListIntervals w s) :=
    ⟨fun i hi => (List.not_mem_nil hi).elim, fun i hi => (List.not_mem_nil hi).elim⟩
  have hl := run_pendingProper ties hempty hc
  generalize run ties ({} : ListIntervals w s) calls = l at hl
  have hagg : PendingProper (l.aggregate sorts) :=
    step_pendingProper sorts (c := .aggregate) hl
      ⟨fun i hi => (List.not_mem_nil hi).elim, fun i hi => (List.not_mem_nil hi).elim⟩
  constructor
  · intro hn hi
    by_contra hr
    refine not_nothingPending_of_dropsRemovals hagg ?_ hn
    have hrem := ListIntervals.aggregate_removedIntervals sorts l
    rw [if_pos hi] at hrem
    refine ⟨?_, by rw [hrem]; exact hr⟩
    apply (ListIntervals.aggregate_normal sorts hl.intervals hl.removed).eq_nil_of_covers
    rw [ListIntervals.covers_aggregate sorts hl.intervals hl.removed, hi]
    simp
  · intro h
    exact nothingPending_of_queue_empty hagg
      (aggregate_empties_queue fun hd => hd.2 (h hd.1))

theorem aggregate_leaves_nothing_pending_stored :
    NothingPending ((run (fun _ => Sorts.insertion 32) {}
      [Call.add ⟨0, 10⟩, .remove ⟨5, 6⟩] : ListIntervals 32 32).aggregate (Sorts.insertion 32)) :=
  (aggregate_leaves_nothing_pending_iff _ _ _ (by
    intro c hc
    simp only [List.mem_cons, List.not_mem_nil, or_false] at hc
    obtain rfl | rfl := hc <;>
      exact ⟨by decide, by decide⟩)).mpr (by decide)

/-- `[5, 6)` is removed and aggregated while nothing is stored; added and
aggregated afterwards, it is gone. -/
theorem aggregate_removal_outlives_aggregate :
    let l : ListIntervals 32 32 := (ListIntervals.remove {} ⟨5, 6⟩).aggregate (Sorts.insertion 32)
    ((l.add ⟨5, 6⟩).aggregate (Sorts.insertion 32)).intervals = [] ∧
      (((freshCopy l).add ⟨5, 6⟩).aggregate (Sorts.insertion 32)).intervals = [⟨5, 6⟩] ∧
      ¬ NothingPending l := by
  refine ⟨by decide, by decide, fun hn => ?_⟩
  have h := hn.likeFresh [.add ⟨5, 6⟩, .aggregate] (fun _ => Sorts.insertion 32)
    (fun _ => Sorts.insertion 32) (by
      intro c hc
      simp only [List.mem_cons, List.not_mem_nil, or_false] at hc
      obtain rfl | rfl := hc <;> exact ⟨by decide, by decide⟩)
  revert h
  decide

end Leeloo
