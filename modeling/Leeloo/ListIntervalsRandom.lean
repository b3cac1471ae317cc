/-
Leeloo.ListIntervalsRandom — `list_intervals_random` of
`list_intervals_random.h`: the values of a list in a random order, one a
call.

Seeding the engine and initialising the generator with it is
`Uprng.init seed`. The state that counts is the seed and the step: a
generator initialised again with both, or restored from both, goes on
where the other stopped. So the outputs of a run (`Run`), whatever its
stops, are the first outputs of one uninterrupted run.
-/
import Leeloo.RandomPromiseResume

namespace Leeloo

open HalfOpen Leeloo.Interval ListIntervals

variable {Seed : Type} {w : Nat}

/-- The data members of `list_intervals_random`. -/
structure ListIntervalsRandom (u : Uprng Seed w) where
  uprng : u.State
  curStep : BitVec w
  seed : Seed

namespace ListIntervalsRandom

/-- `init` with an explicit seed and step. -/
def init (u : Uprng Seed w) (li : ListIntervals w w) (seed : Seed) (step : BitVec w) :
    ListIntervalsRandom u :=
  { seed, uprng := u.init seed li.size, curStep := step }

variable {u : Uprng Seed w}

/-- `operator()`. -/
def call (g : ListIntervalsRandom u) (li : ListIntervals w w) :
    Option (BitVec w × ListIntervalsRandom u) := do
  let n := u.getStep g.uprng g.curStep
  let g := { g with curStep := g.curStep + 1 }
  let v ← li.atCached n
  some (v, g)

/-- `size_todo`, and `size_original`. -/
def sizeTodo (g : ListIntervalsRandom u) : BitVec w := u.max g.uprng

/-- `end`. -/
def end_ (g : ListIntervalsRandom u) : Bool := decide (g.curStep = g.sizeTodo)

/-- `save_state`: the seed and the step, in the order written. -/
def saveState (g : ListIntervalsRandom u) : Seed × BitVec w := (g.seed, g.curStep)

/-- `restore_state` into any generator. -/
def restoreState (_g : ListIntervalsRandom u) (saved : Seed × BitVec w) (li : ListIntervals w w) :
    ListIntervalsRandom u :=
  { seed := saved.1, curStep := saved.2, uprng := u.init saved.1 li.size }

/-- The loop `while (!end()) { operator()(li) }`, `fuel` tests at most. -/
def drain (li : ListIntervals w w) : Nat → ListIntervalsRandom u → Option (List (BitVec w))
  | 0, _ => none
  | fuel + 1, g =>
    if g.end_ then some []
    else do
      let (v, g) ← g.call li
      let vs ← drain li fuel g
      some (v :: vs)

/-- The runs from a fresh generator, with the outputs so far: calls before
the end, and stops of both kinds at any place. -/
inductive Run (u : Uprng Seed w) (li : ListIntervals w w) (seed : Seed) :
    ListIntervalsRandom u → List (BitVec w) → Prop
  | start : Run u li seed (init u li seed 0) []
  | call {g g' : ListIntervalsRandom u} {out : List (BitVec w)} {v : BitVec w} :
      Run u li seed g out → g.end_ = false → g.call li = some (v, g') →
      Run u li seed g' (out ++ [v])
  | reinit {g : ListIntervalsRandom u} {out : List (BitVec w)} :
      Run u li seed g out → Run u li seed (init u li g.seed g.curStep) out
  | restore {g : ListIntervalsRandom u} {out : List (BitVec w)} (other : ListIntervalsRandom u) :
      Run u li seed g out → Run u li seed (other.restoreState g.saveState li) out

/-! ## The output of a step -/

/-- The value that step `k` gives. -/
def output (u : Uprng Seed w) (li : ListIntervals w w) (seed : Seed) (k : Nat) : BitVec w :=
  valueAt li (u.getStep (u.init seed li.size) (BitVec.ofNat w k))

/-- The generator at step `k`, which depends on the seed, the list and the
step alone. -/
theorem init_end_iff {li : ListIntervals w w} {seed : Seed} (hu : u.StepPermutes seed li.size)
    {k : Nat} (hk : k ≤ li.size.toNat) :
    (init u li seed (BitVec.ofNat w k)).end_ = true ↔ k = li.size.toNat := by
  have hsize := li.size.isLt
  unfold end_ sizeTodo
  rw [decide_eq_true_eq]
  show BitVec.ofNat w k = u.max (u.init seed li.size) ↔ _
  rw [hu.max_init, BitVec.toNat_eq, BitVec.toNat_ofNat, Nat.mod_eq_of_lt (by omega)]

/-- **One call**, before the end: the output of the step, and the generator
at the next step. -/
theorem init_call {li : ListIntervals w w} {seed : Seed} (h : Served li)
    (hu : u.StepPermutes seed li.size) {k : Nat} (hk : k < li.size.toNat) :
    (init u li seed (BitVec.ofNat w k)).call li =
      some (output u li seed k, init u li seed (BitVec.ofNat w (k + 1))) := by
  have hsize := li.size.isLt
  have hkn : (BitVec.ofNat w k).toNat = k := by
    rw [BitVec.toNat_ofNat, Nat.mod_eq_of_lt (by omega)]
  have hstep : u.getStep (u.init seed li.size) (BitVec.ofNat w k) < li.size :=
    hu.getStep_lt (by rw [BitVec.lt_def, hkn]; exact hk)
  have hat := h.atCached (r := u.getStep (u.init seed li.size) (BitVec.ofNat w k))
    (by rw [← h.toNat_size]; exact hstep)
  have hsucc : BitVec.ofNat w k + 1 = BitVec.ofNat w (k + 1) := by
    rw [BitVec.ofNat_add]
    rfl
  unfold call init output
  simp only [hat, Option.bind_eq_bind, Option.bind_some, hsucc]

/-- From step `k` on, the loop gives the outputs of the steps left. -/
theorem init_drain {li : ListIntervals w w} {seed : Seed} (h : Served li)
    (hu : u.StepPermutes seed li.size) {k fuel : Nat} (hk : k ≤ li.size.toNat)
    (hfuel : li.size.toNat - k < fuel) :
    (init u li seed (BitVec.ofNat w k)).drain li fuel =
      some ((List.range' k (li.size.toNat - k)).map (output u li seed)) := by
  induction fuel generalizing k with
  | zero => omega
  | succ fuel ih =>
    unfold drain
    by_cases hend : k = li.size.toNat
    · rw [if_pos ((init_end_iff hu hk).mpr hend), hend]
      simp
    · have hrest := ih (k := k + 1) (by omega) (by omega)
      rw [if_neg (mt (init_end_iff hu hk).mp hend)]
      simp only [init_call h hu (show k < li.size.toNat by omega), Option.bind_eq_bind,
        Option.bind_some, hrest]
      rw [show li.size.toNat - k = li.size.toNat - (k + 1) + 1 by omega, List.range'_succ,
        List.map_cons]

/-- All the outputs together are the values of the list. -/
theorem outputs_perm {li : ListIntervals w w} {seed : Seed} (h : Served li)
    (hu : u.StepPermutes seed li.size) :
    ((List.range li.size.toNat).map (output u li seed)).Perm (values li.intervals) := by
  have hall : (List.range li.size.toNat).map (output u li seed) =
      ((List.range li.size.toNat).map fun k =>
        (u.getStep (u.init seed li.size) (BitVec.ofNat w k)).toNat).map
          fun r => (values li.intervals)[r]?.getD 0 := by
    rw [List.map_map]
    rfl
  rw [hall]
  exact (hu.getStep_perm.map _).trans (by rw [map_range_values h])

/-! ## Runs with stops -/

/-- **What a run keeps.** The generator is the one of a step, and the
outputs so far are those of the steps before it. -/
theorem Run.at_step {li : ListIntervals w w} {seed : Seed} (h : Served li)
    (hu : u.StepPermutes seed li.size) {g : ListIntervalsRandom u} {out : List (BitVec w)}
    (hrun : Run u li seed g out) :
    ∃ k ≤ li.size.toNat, g = init u li seed (BitVec.ofNat w k) ∧
      out = (List.range k).map (output u li seed) := by
  induction hrun with
  | start => exact ⟨0, Nat.zero_le _, rfl, rfl⟩
  | call _ hend hcall ih =>
    obtain ⟨k, hk, rfl, rfl⟩ := ih
    have hne : k ≠ li.size.toNat := by
      intro heq
      rw [(init_end_iff hu hk).mpr heq] at hend
      cases hend
    rw [init_call h hu (by omega)] at hcall
    cases hcall
    refine ⟨k + 1, by omega, rfl, ?_⟩
    rw [List.range_succ, List.map_append, List.map_singleton]
  | reinit _ ih =>
    obtain ⟨k, hk, rfl, hout⟩ := ih
    exact ⟨k, hk, rfl, hout⟩
  | restore other _ ih =>
    obtain ⟨k, hk, rfl, hout⟩ := ih
    exact ⟨k, hk, rfl, hout⟩

end ListIntervalsRandom

open ListIntervalsRandom in
/-- **One run, in any number of pieces.** The outputs until `end()` of an
uninterrupted run hold every value of the list once. Whatever stops a run
has made, by initialising again at the current step or by saving and
restoring, what it has returned and what it returns until `end()` are
together the outputs of the uninterrupted run. -/
theorem random_split_exact (u : Uprng Seed 32) (seed : Seed) (l₀ li : ListIntervals 32 32)
    (c : BitVec 64) (hn : Normal l₀.intervals) (hc : l₀.createIndexCache c = some li)
    (hu : u.StepPermutes seed li.size) :
    ∃ ref, (init u li seed 0).drain li (li.size.toNat + 1) = some ref ∧
      ref.Nodup ∧ (∀ v, v ∈ ref ↔ v ∈ covers li.intervals) ∧
      ∀ g out, Run u li seed g out →
        ∃ rest, g.drain li (li.size.toNat + 1) = some rest ∧ out ++ rest = ref := by
  have h := served_of_cache hn hc
  have hperm := outputs_perm h hu
  refine ⟨(List.range li.size.toNat).map (output u li seed), ?_, ?_, ?_, ?_⟩
  · have hdrain : (init u li seed 0).drain li (li.size.toNat + 1) = _ :=
      init_drain h hu (k := 0) (Nat.zero_le _) (by omega)
    rwa [Nat.sub_zero, ← List.range_eq_range'] at hdrain
  · exact hperm.nodup_iff.mpr (values_nodup h.proper h.separated)
  · intro v
    rw [hperm.mem_iff, mem_values_iff h.proper]
  · intro g out hrun
    obtain ⟨k, hk, rfl, rfl⟩ := hrun.at_step h hu
    refine ⟨_, init_drain h hu hk (by omega), ?_⟩
    rw [← List.map_append]
    congr 1
    rw [List.range_eq_range', List.range_eq_range']
    have happ := List.range'_append_1 (s := 0) (m := k) (n := li.size.toNat - k)
    rwa [Nat.zero_add, show k + (li.size.toNat - k) = li.size.toNat by omega] at happ

open ListIntervalsRandom in
theorem random_split_exact_uni :
    ∃ ref, (init uniUprng cachedSample sampleEngine 0).drain cachedSample 6 = some ref ∧
      ref.Nodup ∧ (∀ v, v ∈ ref ↔ v ∈ covers cachedSample.intervals) ∧
      ∀ g out, Run uniUprng cachedSample sampleEngine g out →
        ∃ rest, g.drain cachedSample 6 = some rest ∧ out ++ rest = ref :=
  random_split_exact uniUprng sampleEngine { intervals := [⟨3, 5⟩, ⟨10, 13⟩] } cachedSample 1
    ⟨by decide, List.pairwise_pair.mpr (by decide)⟩ (by decide)
    (uniUprng_stepPermutes (by decide) (by decide) (by decide) (by decide))

end Leeloo
