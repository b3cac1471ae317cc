/-
Leeloo.PropertyExact — what `property_of` answers after one sweep.

The segments of a batch follow each other, cover every interval of the
batch and carry the value of the properties of the intervals that contain
them, so the lookup on them answers for the intervals (`returns_cases`).

All of this needs `2n - 1` segments to be few enough for the 32-bit
arithmetic of `size_type`, which is `n ≤ 2^30 + 1` calls. With more, the
lookup of the largest end never returns (`not_returns_above`), and from
`2^31` calls on `size_elts()` itself wraps and the sweep leaves out the
last end points (`not_returns_below_top`).
-/
import Leeloo.PropertySweep
import Leeloo.PropertyOf
import Mathlib.Data.List.MinMax

namespace Leeloo

open HalfOpen Sweep Leeloo.Interval ListIntervalsProperties

variable {w s : Nat} {P : Type}

/-- Some call gives a property to `v`. -/
def Covered (calls : List (Member w P)) (v : BitVec w) : Prop :=
  ∃ c ∈ calls, c.1.contains v = true

/-- The properties of the calls whose interval contains `v`. -/
def propertiesAt (calls : List (Member w P)) (v : BitVec w) : List P :=
  (calls.filter fun c => c.1.contains v).map (·.2)

/-! ## Few enough calls -/

theorem segments_consecutive {sort : EltSort w s} {calls : List (Member w P)}
    (val : Multiset (BitVec s) → P) :
    Consecutive ((segments val (sortedEvents sort calls)).map (·.1)) := by
  rw [segments_fst]
  exact consecutive_gapsOf (List.pairwise_map.mpr (sortedEvents_sorted sort calls))

theorem length_segments (val : Multiset (BitVec s) → P) (sort : EltSort w s)
    (calls : List (Member w P)) :
    (segments val (sortedEvents sort calls)).length = 2 * calls.length - 1 := by
  have h := congrArg List.length (segments_fst val (sortedEvents sort calls))
  rw [List.length_map, length_gapsOf, List.length_map, length_sortedEvents] at h
  exact h

/-- The tags of the spans that contain `v`. -/
def tagsAt (s : Nat) (calls : List (Member w P)) (v : BitVec w) : Multiset (BitVec s) :=
  ↑(((spans s 0 calls).filter fun t =>
    decide (t.1.lower ≤ v) && decide (v < t.1.upper)).map (·.2))

/-- **The lookup on the segments of a batch**: the value of the tags at `v`
where some segment contains `v`, and null elsewhere. -/
theorem returns_cases {sort : EltSort w s} {calls : List (Member w P)}
    {val : Multiset (BitVec s) → P} {l : ListIntervalsProperties w s P}
    (hl : l.properties = segments val (sortedEvents sort calls))
    (hproper : ∀ c ∈ calls, c.1.Proper) (hn : 4 * calls.length ≤ 2 ^ s + 6)
    (hlt : 2 * calls.length < 2 ^ s) (v : BitVec w) :
    ((∃ g ∈ gapsOf ((sortedEvents sort calls).map (·.key)), v ∈ g.toSet) ∧
        l.Returns v (some (val (tagsAt s calls v)))) ∨
      ((¬ ∃ g ∈ gapsOf ((sortedEvents sort calls).map (·.key)), v ∈ g.toSet) ∧
        l.Returns v none) := by
  have hlen := length_segments val sort calls
  rw [← hl] at hlen
  have hfst := segments_fst val (sortedEvents sort calls)
  rw [← hl] at hfst
  obtain ⟨r, hr, hnone⟩ := exists_returns (l := l) (hl ▸ segments_consecutive val)
    (by omega) (by omega) v
  cases r with
  | none =>
    refine Or.inr ⟨?_, hr⟩
    intro h
    obtain ⟨g, hg, hv⟩ := h
    rw [← hfst] at hg
    obtain ⟨m, hm, heq⟩ := List.mem_map.mp hg
    exact hnone.mp rfl m hm (contains_iff.mpr (heq ▸ hv))
  | some p =>
    obtain ⟨m, hm, hmv, hmp⟩ := member_of_returns hr
    have hv := contains_iff.mp hmv
    have hvalue := segments_value (sortedEvents_perm sort calls) (sortedEvents_sorted sort calls)
      (spans_proper hproper) (hl ▸ hm) (show v ∈ m.1.toSet from hv)
    refine Or.inl ⟨⟨m.1, ?_, hv⟩, ?_⟩
    · rw [← hfst]
      exact List.mem_map_of_mem hm
    · rw [← hmp, hvalue] at hr
      exact hr

/-- The segments cover every value of an interval. -/
theorem exists_gap_of_covered (sort : EltSort w s) {calls : List (Member w P)} {v : BitVec w}
    (h : Covered calls v) :
    ∃ g ∈ gapsOf ((sortedEvents sort calls).map (·.key)), v ∈ g.toSet := by
  obtain ⟨c, hc, hcv⟩ := h
  obtain ⟨t, ht, htc⟩ := exists_span (s := s) (n := 0) hc
  obtain ⟨g, hg, hv⟩ := exists_segment (fun _ => ()) (sortedEvents_perm sort calls)
    (sortedEvents_sorted sort calls) ⟨t, ht, htc ▸ contains_iff.mp hcv⟩
  refine ⟨g.1, ?_, hv⟩
  rw [← segments_fst (fun _ => ())]
  exact List.mem_map_of_mem hg

theorem tagsAt_eq_zero {calls : List (Member w P)} {v : BitVec w} (h : ¬ Covered calls v) :
    tagsAt s calls v = 0 := by
  unfold tagsAt
  have hnil : (spans s 0 calls).filter
      (fun t => decide (t.1.lower ≤ v) && decide (v < t.1.upper)) = [] := by
    apply List.filter_eq_nil_iff.mpr
    intro t ht htv
    obtain ⟨c, hc, heq⟩ := exists_call ht
    exact h ⟨c, hc, by rw [heq]; exact htv⟩
  rw [hnil]
  rfl

/-- The sum of the tags at `v` is that of the properties at `v`. -/
theorem propertySum_tagsAt {α : Type} {calls : List (Member w (Multiset α))}
    (hn : calls.length ≤ 2 ^ s) (v : BitVec w) :
    propertySum (calls.map (·.2)) (tagsAt s calls v) = (propertiesAt calls v).sum := by
  unfold propertySum tagsAt propertiesAt
  rw [Multiset.map_coe, Multiset.sum_coe, List.map_map, ← map_propertyAt_spans v calls hn]
  rfl

/-- The combination of the tags at `v` is that of the properties at `v`. -/
theorem propertyCombination_tagsAt [Inhabited P] {fadd : P → P → P}
    (hcomm : ∀ a b, fadd a b = fadd b a)
    (hassoc : ∀ a b c, fadd (fadd a b) c = fadd a (fadd b c)) {calls : List (Member w P)}
    (hn : calls.length ≤ 2 ^ s) (v : BitVec w) :
    propertyCombination fadd (calls.map (·.2)) (tagsAt s calls v) =
      (combine fadd (propertiesAt calls v)).getD default := by
  unfold propertyCombination propertiesAt
  rw [← map_propertyAt_spans v calls hn]
  have hperm : (tagsAt s calls v).toList.Perm (((spans s 0 calls).filter fun t =>
      decide (t.1.lower ≤ v) && decide (v < t.1.upper)).map (·.2)) := by
    rw [← Multiset.coe_eq_coe, Multiset.coe_toList]
    rfl
  rw [combine_perm hcomm hassoc (hperm.map _), List.map_map]
  rfl

/-! ## Too many calls for `size_type` -/

/-- One of the intervals ends last. -/
theorem exists_largest_end {calls : List (Member w P)} (hne : calls ≠ []) :
    ∃ c ∈ calls, ∀ d ∈ calls, d.1.upper ≤ c.1.upper := by
  let upper := fun c : Member w P => c.1.upper
  cases h : List.argmax upper calls with
  | none => exact absurd (List.argmax_eq_none.mp h) hne
  | some c =>
    exact ⟨c, List.argmax_mem h, fun d hd => List.le_of_mem_argmax (f := upper) hd h⟩

/-- With more than `2^31 + 1` segments, the lower end of the search moves
on a cycle of the wrapped midpoint that stays five below the upper end. -/
theorem midpoint_cycles {n : Nat} (hlow : 2 ^ 31 + 3 ≤ n) (hodd : n % 2 = 1)
    (hhigh : n < 2 ^ 32) :
    ∃ I : Nat → Prop, I 0 ∧ ∀ a, I a → a + 4 < n ∧ I ((n + a) % 2 ^ 32 / 2) := by
  by_cases hn : n = 2 ^ 31 + 3
  · -- the distances to `n` are `n`, `2^30 + 2`, then `2^k + 1` down to 5, which wraps to 0
    refine ⟨fun a => a = 0 ∨ a = 2 ^ 30 + 1 ∨ ∃ k, 2 ≤ k ∧ k ≤ 29 ∧ a + 2 ^ k + 1 = n,
      Or.inl rfl, ?_⟩
    intro a ha
    rcases ha with hzero | hhalf | hpow
    · exact ⟨by omega, Or.inr (Or.inl (by omega))⟩
    · exact ⟨by omega, Or.inr (Or.inr ⟨29, by omega, by omega, by omega⟩)⟩
    · obtain ⟨k, hk2, hk29, hk⟩ := hpow
      have hle : 2 ^ 2 ≤ 2 ^ k := Nat.pow_le_pow_right (by omega) hk2
      refine ⟨by omega, ?_⟩
      by_cases htwo : k = 2
      · subst htwo
        exact Or.inl (by omega)
      · have hthree : 2 ^ 3 ≤ 2 ^ k := Nat.pow_le_pow_right (by omega) (by omega)
        have hsplit : 2 ^ k = 2 * 2 ^ (k - 1) := by
          rw [← Nat.pow_succ']
          congr 1
          omega
        exact Or.inr (Or.inr ⟨k - 1, by omega, by omega, by omega⟩)
  · refine ⟨fun a => a + 5 ≤ n, by omega, ?_⟩
    intro a ha
    exact ⟨by omega, by omega⟩

/-- No end point lies above the largest end. -/
theorem key_le_of_mem {sort : EltSort w s} {calls : List (Member w P)} {k : BitVec w}
    (hproper : ∀ c ∈ calls, c.1.Proper) (hk : ∀ d ∈ calls, d.1.upper ≤ k) :
    ∀ x ∈ (sortedEvents sort calls).map (·.key), x ≤ k := by
  intro x hx
  obtain ⟨e, he, hex⟩ := List.mem_map.mp hx
  obtain ⟨t, ht, htag⟩ := mem_events.mp ((sortedEvents_perm sort calls).mem_iff.mp he)
  obtain ⟨d, hd, heq⟩ := exists_call ht
  have hup : t.1.upper ≤ k := heq ▸ hk d hd
  have hlow : t.1.lower < t.1.upper := spans_proper hproper t ht
  rcases htag with h | h
  · rw [← hex, h]
    exact le_trans (le_of_lt hlow) hup
  · rw [← hex, h]
    exact hup

/-- Few enough calls: the sweep looks at every end point. -/
theorem sweptKeys_of_lt (sort : EltSort w s) {calls : List (Member w P)}
    (h : 2 * calls.length < 2 ^ s) :
    sweptKeys sort calls = (sortedEvents sort calls).map (·.key) := by
  unfold sweptKeys
  rw [Nat.mod_eq_of_lt h, List.take_of_length_le (length_sortedEvents sort calls).le]

theorem length_of_swept {sort : EltSort w s} {calls : List (Member w P)}
    {l : ListIntervalsProperties w s P}
    (hl : l.properties.map (·.1) = gapsOf (sweptKeys sort calls))
    (h : 2 * calls.length < 2 ^ s) : l.properties.length = 2 * calls.length - 1 := by
  rw [sweptKeys_of_lt sort h] at hl
  have hlen := congrArg List.length hl
  rw [List.length_map, length_gapsOf, List.length_map, length_sortedEvents] at hlen
  exact hlen

/-- From `2^30 + 2` calls on, the lookup of the largest end never
returns. -/
theorem not_returns_above {sort : EltSort w 32} {calls : List (Member w P)}
    {l : ListIntervalsProperties w 32 P}
    (hl : l.properties.map (·.1) = gapsOf (sweptKeys sort calls))
    (hproper : ∀ c ∈ calls, c.1.Proper) (hlow : 2 ^ 30 + 2 ≤ calls.length)
    (hhigh : calls.length < 2 ^ 31) {k : BitVec w} (hk : ∀ d ∈ calls, d.1.upper ≤ k)
    (r : Option P) : ¬ l.Returns k r := by
  have hlen := length_of_swept hl (by omega)
  rw [sweptKeys_of_lt sort (by omega)] at hl
  obtain ⟨I, hzero, hI⟩ := midpoint_cycles (n := l.properties.length) (by omega) (by omega)
    (by omega)
  refine not_returns_of_cycle ?_ I hzero (by omega) (by omega) hI r
  intro m hm
  have hg : m.1 ∈ gapsOf ((sortedEvents sort calls).map (·.key)) :=
    hl ▸ List.mem_map_of_mem hm
  obtain ⟨hlower, hupper⟩ := bounds_of_mem_gapsOf hg
  have hle : ∀ x ∈ (sortedEvents sort calls).map (·.key), x ≤ k := key_le_of_mem hproper hk
  constructor
  · intro hc
    exact absurd (contains_iff.mp hc).2 (not_lt.mpr (hle _ hupper))
  · exact not_lt.mpr (hle _ hlower)

/-- When `size_elts()` wraps below the number of calls, the sweep misses
the last value of the intervals. -/
theorem not_returns_below_top {sort : EltSort w s} {calls : List (Member w P)}
    {l : ListIntervalsProperties w s P}
    (hl : l.properties.map (·.1) = gapsOf (sweptKeys sort calls)) (hne : calls ≠ [])
    (hproper : ∀ c ∈ calls, c.1.Proper) (hn : 2 * calls.length % 2 ^ s ≤ calls.length) :
    ∃ v, Covered calls v ∧ ∀ p, ¬ l.Returns v (some p) := by
  obtain ⟨c, hc, hmax⟩ := exists_largest_end hne
  have hlt : c.1.lower.toNat < c.1.upper.toNat := hproper c hc
  have hup := c.1.upper.isLt
  have hv : (BitVec.ofNat w (c.1.upper.toNat - 1)).toNat = c.1.upper.toNat - 1 := by
    rw [BitVec.toNat_ofNat, Nat.mod_eq_of_lt (by omega)]
  refine ⟨BitVec.ofNat w (c.1.upper.toNat - 1), ⟨c, hc, ?_⟩, ?_⟩
  · rw [contains_iff, BitVec.le_def, BitVec.lt_def, hv]
    omega
  · intro p hp
    obtain ⟨m, hm, hmv, _⟩ := member_of_returns hp
    have hg : m.1 ∈ gapsOf (sweptKeys sort calls) := hl ▸ List.mem_map_of_mem hm
    have hbelow := key_lt_of_mem_take (sortedEvents_perm sort calls)
      (sortedEvents_sorted sort calls) (spans_proper hproper) (k := c.1.upper)
      (m := 2 * calls.length % 2 ^ s)
      (by
        intro t ht
        obtain ⟨d, hd, heq⟩ := exists_call ht
        exact heq ▸ hmax d hd)
      (by rw [length_spans]; exact hn)
    obtain ⟨e, he, heq⟩ := List.mem_map.mp (bounds_of_mem_gapsOf hg).2
    have hkey : m.1.upper.toNat < c.1.upper.toNat := heq ▸ hbelow e he
    have hvm := (contains_iff.mp hmv).2
    rw [BitVec.lt_def, hv] at hvm
    omega

theorem two_mul_mod_le {n : Nat} (h : 2 ^ 31 ≤ n) : 2 * n % 2 ^ 32 ≤ n := by omega

/-! ## `aggregate_properties` -/

/-- What the lookup promises after one `aggregate_properties`: the union of
the properties of the intervals that contain `v`, and nothing elsewhere. -/
def SumsExactly {α : Type} (l : ListIntervalsProperties w s (Multiset α))
    (calls : List (Member w (Multiset α))) : Prop :=
  ∀ v, (Covered calls v → l.Returns v (some (propertiesAt calls v).sum)) ∧
    (¬ Covered calls v → l.Returns v none ∨ l.Returns v (some 0))

/-- Without calls the sweep clears the storage, and every lookup is null. -/
theorem returns_none_of_nil {l : ListIntervalsProperties w s P} (h : l.properties = [])
    (v : BitVec w) : l.Returns v none := by
  refine ⟨1, ?_⟩
  unfold propertyOf
  rw [h]
  simp [propertyOfLoop, propertyOfScan]

/-- The sweep of few enough calls. -/
theorem exists_sweep {α : Type} [DecidableEq α] (sort : EltSort w 32)
    {calls : List (Member w (Multiset α))} (hproper : ∀ c ∈ calls, c.1.Proper) (hne : calls ≠ [])
    (hn : calls.length ≤ 2 ^ 30 + 1) :
    ∃ l : ListIntervalsProperties w 32 (Multiset α),
      (({} : ListIntervalsProperties w 32 (Multiset α)).addProperties
          calls).aggregateProperties sort (· + ·) (· - ·) id = some l ∧
      l.properties = segments (propertySum (calls.map (·.2))) (sortedEvents sort calls) :=
  ⟨_, aggregateProperties_segments {} rfl hne (by omega) hproper sort, rfl⟩

theorem aggregateProperties_sumsExactly {α : Type} [DecidableEq α] (sort : EltSort w 32)
    {calls : List (Member w (Multiset α))} (hproper : ∀ c ∈ calls, c.1.Proper)
    (hn : calls.length ≤ 2 ^ 30 + 1) :
    ∃ l, (({} : ListIntervalsProperties w 32 (Multiset α)).addProperties
        calls).aggregateProperties sort (· + ·) (· - ·) id = some l ∧ SumsExactly l calls := by
  by_cases hne : calls = []
  · subst hne
    refine ⟨_, rfl, ?_⟩
    intro v
    exact ⟨fun h => by simp [Covered] at h, fun _ => Or.inl (returns_none_of_nil rfl v)⟩
  · obtain ⟨l, hl, hprops⟩ := exists_sweep sort hproper hne hn
    refine ⟨l, hl, ?_⟩
    intro v
    rcases returns_cases hprops hproper (by omega) (by omega) v with hsome | hnone
    · obtain ⟨_, hret⟩ := hsome
      constructor
      · intro _
        rw [propertySum_tagsAt (by omega)] at hret
        exact hret
      · intro hv
        rw [tagsAt_eq_zero hv] at hret
        exact Or.inr hret
    · obtain ⟨hgap, hret⟩ := hnone
      exact ⟨fun hv => absurd (exists_gap_of_covered sort hv) hgap, fun _ => Or.inl hret⟩

/-- Past the bound some lookup goes wrong. -/
theorem not_sumsExactly {α : Type} {sort : EltSort w 32} {calls : List (Member w (Multiset α))}
    {l : ListIntervalsProperties w 32 (Multiset α)}
    (hl : l.properties.map (·.1) = gapsOf (sweptKeys sort calls))
    (hproper : ∀ c ∈ calls, c.1.Proper) (hn : 2 ^ 30 + 1 < calls.length) :
    ¬ SumsExactly l calls := by
  intro h
  have hne : calls ≠ [] := by
    intro hnil
    rw [hnil, List.length_nil] at hn
    omega
  rcases Nat.lt_or_ge calls.length (2 ^ 31) with hlt | hge
  · obtain ⟨c, _, hmax⟩ := exists_largest_end hne
    have hnot := not_returns_above hl hproper hn hlt hmax
    by_cases hcov : Covered calls c.1.upper
    · exact hnot _ ((h _).1 hcov)
    · rcases (h _).2 hcov with hnull | hempty
      · exact hnot _ hnull
      · exact hnot _ hempty
  · obtain ⟨v, hcov, hnot⟩ := not_returns_below_top hl hne hproper (two_mul_mod_le hge)
    exact hnot _ ((h v).1 hcov)

/-- **Sweeping properties is exact up to `2^30 + 1` calls**, for every order
of ties, and not beyond. -/
theorem aggregateProperties_exact_iff {α : Type} [DecidableEq α] (sort : EltSort w 32)
    (calls : List (Member w (Multiset α))) (hproper : ∀ c ∈ calls, c.1.Proper) :
    (∃ l, (({} : ListIntervalsProperties w 32 (Multiset α)).addProperties
        calls).aggregateProperties sort (· + ·) (· - ·) id = some l ∧ SumsExactly l calls) ↔
      calls.length ≤ 2 ^ 30 + 1 := by
  constructor
  · intro h
    obtain ⟨l, hl, hexact⟩ := h
    by_contra hn
    exact not_sumsExactly (aggregateWith_intervals hl) hproper (not_le.mp hn) hexact
  · exact aggregateProperties_sumsExactly sort hproper

/-- Overlapping intervals that share an end point are within the bound. -/
theorem aggregateProperties_exact_iff_sample :
    ∃ l, (({} : ListIntervalsProperties 8 32 (Multiset Nat)).addProperties
        [(⟨5, 11⟩, {1}), (⟨9, 14⟩, {2}), (⟨14, 16⟩, {4})]).aggregateProperties
          (.insertion _) (· + ·) (· - ·) id = some l ∧
      SumsExactly l [(⟨5, 11⟩, {1}), (⟨9, 14⟩, {2}), (⟨14, 16⟩, {4})] :=
  (aggregateProperties_exact_iff (.insertion _)
    [(⟨5, 11⟩, {1}), (⟨9, 14⟩, {2}), (⟨14, 16⟩, {4})] (by decide)).mpr (by decide)

/-- `2^30 + 2` calls with the interval `[0, 1)` are too many. -/
theorem aggregateProperties_not_exact :
    ¬ ∃ l, (({} : ListIntervalsProperties 32 32 (Multiset Nat)).addProperties
        (List.replicate (2 ^ 30 + 2) (⟨0, 1⟩, {0}))).aggregateProperties
          (.insertion _) (· + ·) (· - ·) id = some l ∧
      SumsExactly l (List.replicate (2 ^ 30 + 2) (⟨0, 1⟩, {0})) := by
  intro h
  obtain ⟨l, hl, hexact⟩ := h
  refine not_sumsExactly (aggregateWith_intervals hl) ?_ ?_ hexact
  · intro c hc
    rw [List.eq_of_mem_replicate hc]
    decide
  · rw [List.length_replicate]
    omega

/-! ## `aggregate_properties_no_rem` -/

/-- What the lookup promises after one `aggregate_properties_no_rem`: the
combination of the properties of the intervals that contain `v`. -/
def CombinesExactly (fadd : P → P → P) (l : ListIntervalsProperties w s P)
    (calls : List (Member w P)) : Prop :=
  ∀ v, Covered calls v →
    ∃ p, combine fadd (propertiesAt calls v) = some p ∧ l.Returns v (some p)

/-- On calls with the intervals `its`, the sweep without removal ends
without failing its assertion and combines exactly, for every property
type, commutative and associative `fadd`, properties and order of ties. -/
def NoRemCombines (its : List (Interval w)) : Prop :=
  ∀ (P : Type) [Inhabited P] (fadd : P → P → P), (∀ a b, fadd a b = fadd b a) →
    (∀ a b c, fadd (fadd a b) c = fadd a (fadd b c)) →
    ∀ (calls : List (Member w P)) (sort : EltSort w 32), calls.map (·.1) = its →
      ∃ l, (({} : ListIntervalsProperties w 32 P).addProperties
          calls).aggregatePropertiesNoRem sort fadd id = some l ∧ CombinesExactly fadd l calls

/-- On calls with the intervals `its` and multisets as properties, both
sweeps end and every lookup has the same result after each, whatever the
orders of ties. -/
def NoRemMatches (its : List (Interval w)) : Prop :=
  ∀ (α : Type) [DecidableEq α] (calls : List (Member w (Multiset α)))
    (sort sort' : EltSort w 32), calls.map (·.1) = its →
      ∃ l l', (({} : ListIntervalsProperties w 32 (Multiset α)).addProperties
          calls).aggregatePropertiesNoRem sort (· + ·) id = some l ∧
        (({} : ListIntervalsProperties w 32 (Multiset α)).addProperties
          calls).aggregateProperties sort' (· + ·) (· - ·) id = some l' ∧
        ∀ v, ∃ r, l.Returns v r ∧ l'.Returns v r

theorem propertiesAt_ne_nil {calls : List (Member w P)} {v : BitVec w} (h : Covered calls v) :
    propertiesAt calls v ≠ [] := by
  obtain ⟨c, hc, hcv⟩ := h
  exact List.ne_nil_of_mem (List.mem_map_of_mem (List.mem_filter.mpr ⟨hc, hcv⟩))

theorem length_le_of_map_fst {calls : List (Member w P)} {its : List (Interval w)} {n : Nat}
    (h : calls.map (·.1) = its) (hn : its.length ≤ n) : calls.length ≤ n := by
  rw [← h, List.length_map] at hn
  exact hn

theorem proper_of_map_fst {calls : List (Member w P)} {its : List (Interval w)}
    (h : calls.map (·.1) = its) (hproper : ∀ i ∈ its, i.Proper) : ∀ c ∈ calls, c.1.Proper := by
  intro c hc
  exact hproper _ (h ▸ List.mem_map_of_mem hc)

/-- The sweep without removal of few enough calls. -/
theorem exists_noRem [Inhabited P] {fadd : P → P → P} (hcomm : ∀ a b, fadd a b = fadd b a)
    (hassoc : ∀ a b c, fadd (fadd a b) c = fadd a (fadd b c)) (sort : EltSort w 32)
    {calls : List (Member w P)} (hproper : ∀ c ∈ calls, c.1.Proper) (hne : calls ≠ [])
    (hn : calls.length ≤ 2 ^ 30 + 1) :
    ∃ l : ListIntervalsProperties w 32 P,
      (({} : ListIntervalsProperties w 32 P).addProperties
          calls).aggregatePropertiesNoRem sort fadd id = some l ∧
      l.properties =
        segments (propertyCombination fadd (calls.map (·.2))) (sortedEvents sort calls) :=
  ⟨_, aggregatePropertiesNoRem_segments hcomm hassoc {} rfl hne (by omega) hproper sort, rfl⟩

theorem noRemCombines_of_le {its : List (Interval w)} (hits : ∀ i ∈ its, i.Proper)
    (hlen : its.length ≤ 2 ^ 30 + 1) : NoRemCombines its := by
  intro P _ fadd hcomm hassoc calls sort hmap
  have hproper := proper_of_map_fst hmap hits
  have hn := length_le_of_map_fst hmap hlen
  by_cases hne : calls = []
  · subst hne
    exact ⟨_, rfl, fun v h => by simp [Covered] at h⟩
  · obtain ⟨l, hl, hprops⟩ := exists_noRem hcomm hassoc sort hproper hne hn
    refine ⟨l, hl, ?_⟩
    intro v hv
    obtain ⟨p, ps, hps⟩ := List.exists_cons_of_ne_nil (propertiesAt_ne_nil hv)
    rcases returns_cases hprops hproper (by omega) (by omega) v with hsome | hnone
    · obtain ⟨_, hret⟩ := hsome
      rw [propertyCombination_tagsAt hcomm hassoc (by omega), hps] at hret
      exact ⟨_, by rw [hps]; rfl, hret⟩
    · exact absurd (exists_gap_of_covered sort hv) hnone.1

/-- The keys of a sorted batch do not depend on the order of ties. -/
theorem keys_eq (sort sort' : EltSort w s) (calls : List (Member w P)) :
    (sortedEvents sort calls).map (·.key) = (sortedEvents sort' calls).map (·.key) := by
  have hperm : ((sortedEvents sort calls).map (·.key)).Perm
      ((sortedEvents sort' calls).map (·.key)) :=
    ((sortedEvents_perm sort calls).trans (sortedEvents_perm sort' calls).symm).map _
  exact hperm.eq_of_pairwise' (List.pairwise_map.mpr (sortedEvents_sorted sort calls))
    (List.pairwise_map.mpr (sortedEvents_sorted sort' calls))

theorem noRemMatches_of_le {its : List (Interval w)} (hits : ∀ i ∈ its, i.Proper)
    (hlen : its.length ≤ 2 ^ 30 + 1) : NoRemMatches its := by
  intro α _ calls sort sort' hmap
  have hproper := proper_of_map_fst hmap hits
  have hn := length_le_of_map_fst hmap hlen
  by_cases hne : calls = []
  · subst hne
    exact ⟨_, _, rfl, rfl, fun v =>
      ⟨none, returns_none_of_nil rfl v, returns_none_of_nil rfl v⟩⟩
  · obtain ⟨l, hl, hprops⟩ := exists_noRem (P := Multiset α) add_comm
      add_assoc sort hproper hne hn
    obtain ⟨l', hl', hprops'⟩ := exists_sweep sort' hproper hne hn
    refine ⟨l, l', hl, hl', ?_⟩
    intro v
    have hval : propertyCombination (fun a b : Multiset α => a + b) (calls.map (·.2))
        (tagsAt 32 calls v) = propertySum (calls.map (·.2)) (tagsAt 32 calls v) := by
      rw [propertyCombination_tagsAt add_comm add_assoc (by omega),
        propertySum_tagsAt (by omega)]
      exact combine_add_getD _
    rcases returns_cases hprops hproper (by omega) (by omega) v with hsome | hnone
    · rcases returns_cases hprops' hproper (by omega) (by omega) v with hsome' | hnone'
      · exact ⟨_, hval ▸ hsome.2, hsome'.2⟩
      · exact absurd (keys_eq sort sort' calls ▸ hsome.1) hnone'.1
    · rcases returns_cases hprops' hproper (by omega) (by omega) v with hsome' | hnone'
      · exact absurd (keys_eq sort' sort calls ▸ hsome'.1) hnone.1
      · exact ⟨none, hnone.2, hnone'.2⟩

theorem proper_map {Q : Type} {its : List (Interval w)} (q : Q) (h : ∀ i ∈ its, i.Proper) :
    ∀ c ∈ its.map fun i => (i, q), c.1.Proper := by
  intro c hc
  obtain ⟨i, hi, heq⟩ := List.mem_map.mp hc
  exact heq ▸ h i hi

theorem map_fst_pair {Q : Type} (its : List (Interval w)) (q : Q) :
    (its.map fun i => (i, q)).map (·.1) = its := by
  rw [List.map_map]
  exact List.map_id its

/-- From `2^31` calls on the sweep without removal misses a value. -/
theorem not_noRemCombines {its : List (Interval w)} (hits : ∀ i ∈ its, i.Proper)
    (hn : 2 ^ 31 ≤ its.length) : ¬ NoRemCombines its := by
  intro h
  have hlen : (its.map fun i => (i, ())).length = its.length := List.length_map _
  obtain ⟨l, hl, hexact⟩ := h Unit (fun _ _ => ()) (fun _ _ => rfl) (fun _ _ _ => rfl)
    (its.map fun i => (i, ())) (.insertion _) (map_fst_pair its ())
  have hne : (its.map fun i => (i, ())) ≠ [] := by
    intro hnil
    rw [hnil, List.length_nil] at hlen
    omega
  obtain ⟨v, hcov, hnot⟩ := not_returns_below_top (aggregateWith_intervals hl) hne
    (proper_map () hits) (two_mul_mod_le (by omega))
  obtain ⟨p, _, hret⟩ := hexact v hcov
  exact hnot p hret

/-- From `2^30 + 2` calls on there is a value neither sweep answers for. -/
theorem not_noRemMatches {its : List (Interval w)} (hits : ∀ i ∈ its, i.Proper)
    (hlow : 2 ^ 30 + 2 ≤ its.length) (hhigh : its.length < 2 ^ 31) : ¬ NoRemMatches its := by
  intro h
  have hlen : (its.map fun i => (i, (0 : Multiset Nat))).length = its.length :=
    List.length_map _
  obtain ⟨l, l', hl, hl', hsame⟩ := h Nat (its.map fun i => (i, 0)) (.insertion _)
    (.insertion _) (map_fst_pair its 0)
  have hne : (its.map fun i => (i, (0 : Multiset Nat))) ≠ [] := by
    intro hnil
    rw [hnil, List.length_nil] at hlen
    omega
  obtain ⟨c, _, hmax⟩ := exists_largest_end hne
  obtain ⟨r, hr, _⟩ := hsame c.1.upper
  exact not_returns_above (aggregateWith_intervals hl) (proper_map 0 hits)
    (by omega) (by omega) hmax r hr

/-- **The sweep without removal combines exactly and agrees with the plain
one up to `2^30 + 1` calls**, for every order of ties, and not beyond. -/
theorem noRem_agrees_iff (its : List (Interval w)) (hits : ∀ i ∈ its, i.Proper) :
    (NoRemCombines its ∧ NoRemMatches its) ↔ its.length ≤ 2 ^ 30 + 1 := by
  constructor
  · intro h
    obtain ⟨hcombines, hmatches⟩ := h
    by_contra hn
    rcases Nat.lt_or_ge its.length (2 ^ 31) with hlt | hge
    · exact not_noRemMatches hits (not_le.mp hn) hlt hmatches
    · exact not_noRemCombines hits hge hcombines
  · intro hn
    exact ⟨noRemCombines_of_le hits hn, noRemMatches_of_le hits hn⟩

/-- Intervals with a gap and a shared end point are within the bound. -/
theorem noRem_agrees_iff_sample :
    NoRemCombines [(⟨5, 11⟩ : Interval 8), ⟨11, 14⟩, ⟨20, 22⟩] ∧
      NoRemMatches [(⟨5, 11⟩ : Interval 8), ⟨11, 14⟩, ⟨20, 22⟩] :=
  (noRem_agrees_iff [(⟨5, 11⟩ : Interval 8), ⟨11, 14⟩, ⟨20, 22⟩] (by decide)).mpr (by decide)

/-- With `2^31` calls the number of end points wraps to zero, and the sweep
clears the storage. -/
theorem noRem_not_agrees :
    ¬ (NoRemCombines (List.replicate (2 ^ 31) (⟨0, 1⟩ : Interval 32)) ∧
      NoRemMatches (List.replicate (2 ^ 31) (⟨0, 1⟩ : Interval 32))) := by
  intro h
  refine not_noRemCombines ?_ ?_ h.1
  · intro i hi
    rw [List.eq_of_mem_replicate hi]
    decide
  · rw [List.length_replicate]

end Leeloo
