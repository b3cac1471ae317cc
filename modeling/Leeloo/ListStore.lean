/-
Leeloo.ListStore — runs of calls over several lists, and what the lookups
answer along them.

`Meaning` is what a list stands for: a set of values, a set of values
queued for removal, and two facts a caller has to keep in mind. The lookups
want a list that was aggregated since the last addition (`settled`), and
`at_cached` also wants an index cache made since the values last changed
(`cached`). An `aggregate` that takes no value away keeps the cache.

`listStore_run` says that these are all: in every run every list covers its
sets, every settled list answers from its set, and every cached one through
its cache.
-/
import Leeloo.AggregateRuns
import Leeloo.Contains
import Leeloo.Enumeration

namespace Leeloo

open HalfOpen ListIntervals

variable {ι : Type} {w : Nat}

/-- A call on lists by variable. -/
inductive ListCall (ι : Type) (w : Nat) where
  | add (v : ι) (i : Interval w)
  | remove (v : ι) (i : Interval w)
  | addList (v o : ι)
  | removeList (v o : ι)
  | aggregate (v : ι) (ties : Sorts w)
  | clear (v : ι)
  | createIndexCache (v : ι) (cacheEntrySize : BitVec 64)
  /-- The implicit `operator=`, a copy of every member. -/
  | assign (v o : ι)

/-- What a list stands for. -/
structure Meaning (α : Type) where
  stored : Set α := ∅
  removed : Set α := ∅
  settled : Prop := True
  cached : Prop := False

namespace Meaning

variable {α : Type}

/-- Values are added. -/
def add (m : Meaning α) (s : Set α) : Meaning α :=
  { m with stored := m.stored ∪ s, settled := False, cached := False }

/-- Values are queued for removal. -/
def remove (m : Meaning α) (s : Set α) : Meaning α := { m with removed := m.removed ∪ s }

open Classical in
/-- The queue is worked off, unless nothing is stored. -/
noncomputable def aggregate (m : Meaning α) : Meaning α where
  stored := m.stored \ m.removed
  removed := if m.stored = ∅ then m.removed else ∅
  settled := True
  cached := m.cached ∧ m.stored \ m.removed = m.stored

end Meaning

namespace ListCall

variable [DecidableEq ι]

/-- The calls a program may make: with non-empty intervals, with a positive
size of the cache entries, and without a list that is added to itself. -/
def Legal : ListCall ι w → Prop
  | add _ i | remove _ i => i.Proper
  | addList v o => v ≠ o
  | createIndexCache _ c => 0 < c.toNat
  | _ => True

def step (lists : ι → ListIntervals w 32) : ListCall ι w → Option (ι → ListIntervals w 32)
  | add v i => some (Function.update lists v ((lists v).add i))
  | remove v i => some (Function.update lists v ((lists v).remove i))
  | addList v o => some (Function.update lists v ((lists v).addList (lists o)))
  | removeList v o => some (Function.update lists v ((lists v).removeList (lists o)))
  | aggregate v ties => some (Function.update lists v ((lists v).aggregate ties))
  | clear v => some (Function.update lists v (lists v).clear)
  | createIndexCache v c => do
    let l ← (lists v).createIndexCache c
    some (Function.update lists v l)
  | assign v o => some (Function.update lists v (lists o))

/-- What the lists stand for after a call. -/
noncomputable def meaning (m : ι → Meaning (BitVec w)) : ListCall ι w → ι → Meaning (BitVec w)
  | add v i => Function.update m v ((m v).add i.toSet)
  | remove v i => Function.update m v ((m v).remove i.toSet)
  | addList v o => Function.update m v ((m v).add (m o).stored)
  | removeList v o => Function.update m v ((m v).remove (m o).stored)
  | aggregate v _ => Function.update m v (m v).aggregate
  | clear v => Function.update m v {}
  | createIndexCache v _ => Function.update m v { m v with cached := (m v).settled }
  | assign v o => Function.update m v (m o)

end ListCall

/-! ## One list -/

theorem Cached.of_eq {s : Nat} {l l' : ListIntervals w s} (h : Cached l)
    (hints : l'.intervals = l.intervals) (hcache : l'.indexCache = l.indexCache)
    (hsize : l'.cacheEntrySize = l.cacheEntrySize) : Cached l' := by
  refine ⟨by rw [hsize]; exact h.pos, fun j => ?_⟩
  rw [hints, hcache, hsize]
  exact h.getElem? j

/-- `aggregate` does not touch the index cache. -/
theorem aggregate_cache {s : Nat} (l : ListIntervals w s) (ties : Sorts w) :
    (l.aggregate ties).indexCache = l.indexCache ∧
      (l.aggregate ties).cacheEntrySize = l.cacheEntrySize := by
  obtain ⟨_, heq⟩ | ⟨_, _, heq⟩ | ⟨_, _, _, heq⟩ := aggregate_cases ties l
  all_goals
    rw [heq]
    exact ⟨rfl, rfl⟩

/-- The list stands for `m`. -/
structure StandsFor (l : ListIntervals w 32) (m : Meaning (BitVec w)) : Prop where
  proper : PendingProper l
  stored : covers l.intervals = m.stored
  removed : covers l.removedIntervals = m.removed
  settled : m.settled → Normal l.intervals
  cached : m.cached → m.settled ∧ Cached l

namespace StandsFor

variable {l o : ListIntervals w 32} {m n : Meaning (BitVec w)}

theorem empty : StandsFor ({} : ListIntervals w 32) {} where
  proper := ⟨by nofun, by nofun⟩
  stored := covers_nil
  removed := covers_nil
  settled := fun _ => Normal.nil
  cached := by nofun

theorem addList (h : StandsFor l m) (ho : AllProper o.intervals) :
    StandsFor (l.addList o) (m.add (covers o.intervals)) where
  proper := ⟨allProper_append h.proper.intervals ho, h.proper.removed⟩
  stored := by
    show covers (l.intervals ++ o.intervals) = _
    rw [covers_append, h.stored]
    rfl
  removed := h.removed
  settled := by nofun
  cached := by nofun

theorem removeList (h : StandsFor l m) (ho : AllProper o.intervals) :
    StandsFor (l.removeList o) (m.remove (covers o.intervals)) where
  proper := ⟨h.proper.intervals, allProper_append h.proper.removed ho⟩
  stored := h.stored
  removed := by
    show covers (l.removedIntervals ++ o.intervals) = _
    rw [covers_append, h.removed]
    rfl
  settled := h.settled
  cached := fun hc => ⟨(h.cached hc).1, (h.cached hc).2.pos, (h.cached hc).2.getElem?⟩

theorem allProper_singleton {i : Interval w} (hi : i.Proper) : AllProper [i] := by
  intro j hj
  rwa [List.mem_singleton.mp hj]

theorem add (h : StandsFor l m) {i : Interval w} (hi : i.Proper) :
    StandsFor (l.add i) (m.add i.toSet) := by
  rw [← covers_singleton i]
  exact h.addList (o := { intervals := [i] }) (allProper_singleton hi)

theorem remove (h : StandsFor l m) {i : Interval w} (hi : i.Proper) :
    StandsFor (l.remove i) (m.remove i.toSet) := by
  rw [← covers_singleton i]
  exact h.removeList (o := { intervals := [i] }) (allProper_singleton hi)

theorem stored_eq_empty (h : StandsFor l m) : m.stored = ∅ ↔ l.intervals = [] := by
  rw [← h.stored]
  constructor
  · intro hempty
    cases hl : l.intervals with
    | nil => rfl
    | cons i rest =>
      have hmem : i.lower ∈ covers l.intervals :=
        ⟨i, by rw [hl]; exact List.mem_cons_self,
          (h.proper.intervals i (by rw [hl]; exact List.mem_cons_self)).lower_mem⟩
      rw [hempty] at hmem
      exact hmem.elim
  · intro hnil
    rw [hnil, covers_nil]

/-- An `aggregate` that takes nothing away leaves a settled list as it is. -/
theorem aggregate_intervals (h : StandsFor l m) (hm : m.settled) (ties : Sorts w)
    (hkeep : m.stored \ m.removed = m.stored) : (l.aggregate ties).intervals = l.intervals := by
  refine (aggregate_normal ties h.proper.intervals h.proper.removed).ext (h.settled hm) ?_
  rw [covers_aggregate ties h.proper.intervals h.proper.removed, h.stored, h.removed, hkeep]

theorem aggregate (h : StandsFor l m) (ties : Sorts w) :
    StandsFor (l.aggregate ties) m.aggregate where
  proper := step_pendingProper ties h.proper (c := .aggregate) ⟨by nofun, by nofun⟩
  stored := by
    rw [covers_aggregate ties h.proper.intervals h.proper.removed, h.stored, h.removed]
    rfl
  removed := by
    rw [aggregate_removedIntervals]
    unfold Meaning.aggregate
    by_cases hnil : l.intervals = []
    · rw [if_pos hnil, if_pos (h.stored_eq_empty.mpr hnil), h.removed]
    · rw [if_neg hnil, if_neg fun hempty => hnil (h.stored_eq_empty.mp hempty), covers_nil]
  settled := fun _ => aggregate_normal ties h.proper.intervals h.proper.removed
  cached := by
    rintro ⟨hc, hkeep⟩
    obtain ⟨hm, hcached⟩ := h.cached hc
    have hsame := h.aggregate_intervals hm ties hkeep
    have hindex := aggregate_cache l ties
    exact ⟨trivial, hcached.of_eq hsame hindex.1 hindex.2⟩

theorem clear (l : ListIntervals w 32) : StandsFor l.clear {} where
  proper := ⟨by nofun, by nofun⟩
  stored := covers_nil
  removed := covers_nil
  settled := fun _ => Normal.nil
  cached := by nofun

/-- An aggregated list is short and its values can be counted. -/
theorem length_le (hw : w ≤ 32) (hn : Normal l.intervals) :
    widthSum l.intervals < 2 ^ w ∧ l.intervals.length ≤ 2 ^ 63 := by
  have hsum := widthSum_lt hn.proper (hn.separated.imp le_of_lt)
  have hlen := length_le_widthSum hn.proper
  have hpow : 2 ^ w ≤ 2 ^ 32 := Nat.pow_le_pow_right (by omega) hw
  exact ⟨hsum, by omega⟩

theorem createIndexCache (hw : w ≤ 32) (h : StandsFor l m) {c : BitVec 64} (hc : 0 < c.toNat) :
    ∃ l', l.createIndexCache c = some l' ∧ StandsFor l' { m with cached := m.settled } := by
  have hl' : l.createIndexCache c = some { l with
      cacheEntrySize := c.toNat
      indexCache := createIndexCacheLoop l.intervals c.toNat l.intervals.length 0 0 [] } :=
    if_pos hc
  refine ⟨_, hl', ⟨h.proper.intervals, h.proper.removed⟩, h.stored, h.removed, h.settled,
    fun hm => ⟨hm, ?_⟩⟩
  obtain ⟨hsum, hlen⟩ := length_le hw (h.settled hm)
  have hpow : 2 ^ w ≤ 2 ^ 32 := Nat.pow_le_pow_right (by omega) hw
  exact (createIndexCache_cached hw hlen (by omega) hl').2

end StandsFor

/-- The lookups of a list answer from the set `S`: `contains` is membership,
and `size`, `at` and a loop over the value iterator go through the values in
ascending order. -/
structure AnswersFrom (l : ListIntervals w 32) (S : Set (BitVec w)) : Prop where
  contains : ∀ v, ∃ r, l.contains v = some r ∧ (r = true ↔ v ∈ S)
  size : l.size.toNat = S.ncard
  enumerates : ∃ vs : List (BitVec w), vs.Pairwise (· < ·) ∧ (∀ v, v ∈ vs ↔ v ∈ S) ∧
    (∀ k < l.size.toNat, l.at_ (BitVec.ofNat 32 k) = vs[k]?) ∧
    (SizedIterator.valueBegin l).visit (l.size.toNat + 1) = some vs

theorem answersFrom_of_normal (hw : w ≤ 32) {l : ListIntervals w 32} (hn : Normal l.intervals) :
    AnswersFrom l (covers l.intervals) := by
  have hsep : Separated (· ≤ ·) l.intervals := hn.separated.imp le_of_lt
  have hsum := widthSum_lt hn.proper hsep
  have hsize : l.size.toNat = (values l.intervals).length := by
    rw [toNat_size hsum, length_values]
  have hpow : 2 ^ w ≤ 2 ^ 32 := Nat.pow_le_pow_right (by omega) hw
  refine ⟨contains_spec hw hn, ?_, values l.intervals, values_ascending hn.proper hsep,
    fun v => mem_values_iff hn.proper, fun k hk => ?_, ?_⟩
  · rw [hsize, ncard_of_nodup (values_nodup hn.proper hsep) fun v => mem_values_iff hn.proper]
  · have hlt := l.size.isLt
    have hk32 : (BitVec.ofNat 32 k).toNat = k := by
      rw [BitVec.toNat_ofNat, Nat.mod_eq_of_lt (by omega)]
    rw [at_values hw hn.proper hsum (by rw [hk32, ← hsize]; exact hk), hk32]
  · have hwalks := ValueIterator.walks_valueBegin (l := { intervals := l.intervals }) hn.proper
    have hvisit := hwalks.sized_visit hw
    rw [hsize]
    simpa [ValueIterator.sized, ValueIterator.valueBegin, SizedIterator.valueBegin] using hvisit

/-! ## Runs -/

variable [DecidableEq ι]

/-- **One call** does to every list what it means. -/
theorem ListCall.step_standsFor (hw : w ≤ 32) (c : ListCall ι w) (hc : c.Legal)
    {lists : ι → ListIntervals w 32} {m : ι → Meaning (BitVec w)}
    (h : ∀ v, StandsFor (lists v) (m v)) :
    ∃ lists', c.step lists = some lists' ∧ ∀ v, StandsFor (lists' v) (c.meaning m v) := by
  have hupdate : ∀ {v : ι} {l : ListIntervals w 32} {n : Meaning (BitVec w)}, StandsFor l n →
      ∀ u, StandsFor (Function.update lists v l u) (Function.update m v n u) := by
    intro v l n hl u
    by_cases hu : u = v
    · rw [hu, Function.update_self, Function.update_self]
      exact hl
    · rw [Function.update_of_ne hu, Function.update_of_ne hu]
      exact h u
  cases c with
  | add v i => exact ⟨_, rfl, hupdate ((h v).add hc)⟩
  | remove v i => exact ⟨_, rfl, hupdate ((h v).remove hc)⟩
  | addList v o =>
    refine ⟨_, rfl, hupdate ?_⟩
    rw [← (h o).stored]
    exact (h v).addList (h o).proper.intervals
  | removeList v o =>
    refine ⟨_, rfl, hupdate ?_⟩
    rw [← (h o).stored]
    exact (h v).removeList (h o).proper.intervals
  | aggregate v ties => exact ⟨_, rfl, hupdate ((h v).aggregate ties)⟩
  | clear v => exact ⟨_, rfl, hupdate (.clear (lists v))⟩
  | createIndexCache v c =>
    obtain ⟨l', hl', hcached⟩ := (h v).createIndexCache hw hc
    refine ⟨Function.update lists v l', ?_, hupdate hcached⟩
    simp only [step, hl', Option.bind_eq_bind, Option.bind_some]
  | assign v o => exact ⟨_, rfl, hupdate (h o)⟩

theorem run_standsFor (hw : w ≤ 32) {calls : List (ListCall ι w)} (hc : ∀ c ∈ calls, c.Legal)
    {lists : ι → ListIntervals w 32} {m : ι → Meaning (BitVec w)}
    (h : ∀ v, StandsFor (lists v) (m v)) :
    ∃ lists', calls.foldlM ListCall.step lists = some lists' ∧
      ∀ v, StandsFor (lists' v) (calls.foldl ListCall.meaning m v) := by
  induction calls generalizing lists m with
  | nil => exact ⟨lists, rfl, h⟩
  | cons c calls ih =>
    obtain ⟨lists₁, hstep, h₁⟩ := c.step_standsFor hw (hc c List.mem_cons_self) h
    obtain ⟨lists₂, hrun, h₂⟩ := ih (fun d hd => hc d (List.mem_cons_of_mem _ hd)) h₁
    exact ⟨lists₂, by rw [List.foldlM_cons, hstep]; exact hrun, h₂⟩

/-- **The lists of a program.** In every run of legal calls, every list
covers the values it stands for and those queued for removal; every settled
list answers from its values, and compares equal to another one exactly when
they stand for the same values; every cached list finds by its cache what
`at` finds. -/
theorem listStore_run (hw : w ≤ 32) (calls : List (ListCall ι w)) (hc : ∀ c ∈ calls, c.Legal) :
    ∃ lists, calls.foldlM ListCall.step (fun _ => {}) = some lists ∧
      let m := calls.foldl ListCall.meaning fun _ => {}
      (∀ v, covers (lists v).intervals = (m v).stored ∧
        covers (lists v).removedIntervals = (m v).removed) ∧
      (∀ v, (m v).settled → AnswersFrom (lists v) (m v).stored) ∧
      (∀ v o, (m v).settled → (m o).settled →
        ((lists v).opEq (lists o) = true ↔ (m v).stored = (m o).stored)) ∧
      ∀ v, (m v).cached → ∀ r, r < (lists v).size →
        (lists v).atCached r = (lists v).at_ (r.setWidth 32) := by
  obtain ⟨lists, hrun, h⟩ := run_standsFor hw hc fun _ => StandsFor.empty
  refine ⟨lists, hrun, fun v => ⟨(h v).stored, (h v).removed⟩, fun v hv => ?_, fun v o hv ho => ?_,
    fun v hv r hr => ?_⟩
  · rw [← (h v).stored]
    exact answersFrom_of_normal hw ((h v).settled hv)
  · rw [opEq_iff, ← (h v).stored, ← (h o).stored]
    exact ⟨fun heq => by rw [heq], ((h v).settled hv).ext ((h o).settled ho)⟩
  · obtain ⟨hsettled, hcached⟩ := (h v).cached hv
    have hn := (h v).settled hsettled
    obtain ⟨hsum, hlen⟩ := StandsFor.length_le hw hn
    exact hcached.atCached_at hw hn.proper hsum hlen hr

/-- Two byte lists: the first loses the values of the second, and then keeps
its cache over an `aggregate` that takes nothing away. -/
theorem listStore_run_sample :
    let calls : List (ListCall Bool 8) :=
      [.add false ⟨10, 20⟩, .add true ⟨15, 30⟩, .aggregate true (.insertion 8),
        .removeList false true, .aggregate false (.insertion 8), .createIndexCache false 2,
        .remove false ⟨40, 50⟩, .aggregate false (.insertion 8)]
    ∃ lists, calls.foldlM ListCall.step (fun _ => {}) = some lists ∧
      AnswersFrom (lists false) (Set.Ico 10 15) ∧
      ∀ r, r < (lists false).size →
        (lists false).atCached r = (lists false).at_ (r.setWidth 32) := by
  intro calls
  obtain ⟨lists, hrun, _, hanswers, _, hcached⟩ := listStore_run (by decide) calls
    (by simp [calls, ListCall.Legal, Proper])
  have hstored : (calls.foldl ListCall.meaning (fun _ => {}) false).stored = Set.Ico 10 15 := by
    ext v
    simp [calls, ListCall.meaning, Meaning.add, Meaning.remove, Meaning.aggregate, toSet,
      BitVec.le_def, BitVec.lt_def]
    omega
  refine ⟨lists, hrun, ?_, hcached false ?_⟩
  · rw [← hstored]
    exact hanswers false trivial
  · refine ⟨trivial, ?_⟩
    ext v
    simp [ListCall.meaning, Meaning.add, Meaning.remove, Meaning.aggregate, toSet,
      BitVec.le_def, BitVec.lt_def]
    omega

end Leeloo
