/-
Leeloo.PropertyNull — where `property_of` returns the null pointer after
one sweep.

Both sweeps store a segment between every two end points that follow each
other, with or without an interval open there. So between two groups of
intervals the lookup returns the property that is current there, and not
null: null is returned exactly outside the intervals when nothing between
the lowest and the highest end point is left out, and when the calls are
few enough for `size_type`.
-/
import Leeloo.PropertyExact
import Leeloo.PropertyRuns

namespace Leeloo

open HalfOpen Sweep Leeloo.Interval ListIntervalsProperties

variable {w s : Nat} {P : Type}

/-- `property_of` returns for every value, and null exactly outside the
intervals of the calls. -/
def NullOutside (l : ListIntervalsProperties w s P) (calls : List (Member w P)) : Prop :=
  ∀ v, ∃ r, l.Returns v r ∧ (r = none ↔ ¬ Covered calls v)

/-- `v` lies between two bounds of the intervals. -/
def Between (calls : List (Member w P)) (v : BitVec w) : Prop :=
  (∃ c ∈ calls, c.1.lower ≤ v) ∧ ∃ c ∈ calls, v < c.1.upper

/-- The intervals leave out no value between two of their bounds. -/
def Gapless (calls : List (Member w P)) : Prop :=
  ∀ v, Between calls v → Covered calls v

theorem Covered.between {calls : List (Member w P)} {v : BitVec w} (h : Covered calls v) :
    Between calls v := by
  obtain ⟨c, hc, hcv⟩ := h
  obtain ⟨hlow, hup⟩ := contains_iff.mp hcv
  exact ⟨⟨c, hc, hlow⟩, ⟨c, hc, hup⟩⟩

section Segments

variable {sort : EltSort w s} {calls : List (Member w P)} {l : ListIntervalsProperties w s P}

/-- The end points of a sweep are the bounds of the intervals. -/
theorem mem_keys_iff {k : BitVec w} :
    k ∈ (sortedEvents sort calls).map (·.key) ↔ ∃ c ∈ calls, k = c.1.lower ∨ k = c.1.upper := by
  rw [List.mem_map]
  constructor
  · rintro ⟨e, he, rfl⟩
    obtain ⟨t, ht, htag⟩ := mem_events.mp ((sortedEvents_perm sort calls).mem_iff.mp he)
    obtain ⟨c, hc, heq⟩ := exists_call ht
    refine ⟨c, hc, ?_⟩
    rw [heq]
    exact htag.imp (congrArg Event.key) (congrArg Event.key)
  · rintro ⟨c, hc, hk⟩
    obtain ⟨t, ht, heq⟩ := exists_span (s := s) (n := 0) hc
    rw [← heq] at hk
    rcases hk with rfl | rfl
    · exact ⟨_, (sortedEvents_perm sort calls).mem_iff.mpr (mem_events.mpr ⟨t, ht, .inl rfl⟩), rfl⟩
    · exact ⟨_, (sortedEvents_perm sort calls).mem_iff.mpr (mem_events.mpr ⟨t, ht, .inr rfl⟩), rfl⟩

/-- The gaps between the end points are what lies between two bounds. -/
theorem mem_gap_iff (hproper : ∀ c ∈ calls, c.1.Proper) (v : BitVec w) :
    (∃ g ∈ gapsOf ((sortedEvents sort calls).map (·.key)), v ∈ g.toSet) ↔ Between calls v := by
  rw [mem_gapsOf_iff (List.pairwise_map.mpr (sortedEvents_sorted sort calls))]
  simp only [mem_keys_iff, Between]
  refine and_congr ⟨?_, ?_⟩ ⟨?_, ?_⟩
  · rintro ⟨k, ⟨c, hc, hk⟩, hkv⟩
    refine ⟨c, hc, ?_⟩
    rcases hk with rfl | rfl
    · exact hkv
    · exact le_trans (le_of_lt (hproper c hc)) hkv
  · rintro ⟨c, hc, hcv⟩
    exact ⟨c.1.lower, ⟨c, hc, .inl rfl⟩, hcv⟩
  · rintro ⟨k, ⟨c, hc, hk⟩, hvk⟩
    refine ⟨c, hc, ?_⟩
    rcases hk with rfl | rfl
    · exact lt_trans hvk (hproper c hc)
    · exact hvk
  · rintro ⟨c, hc, hvc⟩
    exact ⟨c.1.upper, ⟨c, hc, .inr rfl⟩, hvc⟩

/-- The segments of few enough calls contain what lies between two
bounds. -/
theorem mem_segment_iff (hl : l.properties.map (·.1) = gapsOf (sweptKeys sort calls))
    (hproper : ∀ c ∈ calls, c.1.Proper) (hlt : 2 * calls.length < 2 ^ s) (v : BitVec w) :
    (∃ m ∈ l.properties, m.1.contains v = true) ↔ Between calls v := by
  have hgaps : (∃ g ∈ gapsOf ((sortedEvents sort calls).map (·.key)), v ∈ g.toSet) ↔
      Between calls v := mem_gap_iff hproper v
  rw [← hgaps, ← sweptKeys_of_lt sort hlt, ← hl]
  simp only [List.mem_map, exists_exists_and_eq_and, contains_iff, mem_toSet]

end Segments

section Sweep

variable {sort : EltSort w 32} {calls : List (Member w P)} {l : ListIntervalsProperties w 32 P}

/-- Too many calls leave out a value, or a lookup that does not end. -/
theorem length_le_of_nullOutside (hl : l.properties.map (·.1) = gapsOf (sweptKeys sort calls))
    (hproper : ∀ c ∈ calls, c.1.Proper) (h : NullOutside l calls) :
    calls.length ≤ 2 ^ 30 + 1 := by
  by_contra hn
  have hne : calls ≠ [] := by
    rintro rfl
    simp at hn
  rcases Nat.lt_or_ge calls.length (2 ^ 31) with hlt | hge
  · obtain ⟨c, _, hmax⟩ := exists_largest_end hne
    obtain ⟨r, hr, _⟩ := h c.1.upper
    exact not_returns_above hl hproper (by omega) hlt hmax r hr
  · obtain ⟨v, hcov, hnot⟩ := not_returns_below_top hl hne hproper (two_mul_mod_le hge)
    obtain ⟨r, hr, hnull⟩ := h v
    cases r with
    | none => exact hnull.mp rfl hcov
    | some p => exact hnot p hr

/-- On the segments of a sweep, null is returned exactly outside the
intervals when they leave no gap. -/
theorem nullOutside_iff (hl : l.properties.map (·.1) = gapsOf (sweptKeys sort calls))
    (hproper : ∀ c ∈ calls, c.1.Proper) :
    NullOutside l calls ↔ calls.length ≤ 2 ^ 30 + 1 ∧ Gapless calls := by
  have hnull : calls.length ≤ 2 ^ 30 + 1 → ∀ v, ∃ r, l.Returns v r ∧
      (r = none ↔ ¬ Between calls v) := by
    intro hn v
    have hlen := length_of_swept hl (by omega)
    have hc : Consecutive (l.properties.map (·.1)) := by
      rw [hl, sweptKeys_of_lt sort (by omega)]
      exact consecutive_gapsOf (List.pairwise_map.mpr (sortedEvents_sorted sort calls))
    obtain ⟨r, hr, _⟩ := exists_returns hc (by omega) (by omega) v
    refine ⟨r, hr, ?_⟩
    rw [returns_none_iff hc (by omega) (by omega) hr,
      ← mem_segment_iff hl hproper (by omega)]
    simp
  constructor
  · intro h
    have hn := length_le_of_nullOutside hl hproper h
    refine ⟨hn, fun v hv => ?_⟩
    obtain ⟨r, hr, hiff⟩ := hnull hn v
    obtain ⟨r', hr', hiff'⟩ := h v
    rw [returns_unique hr hr'] at hiff
    by_contra hcov
    exact hiff.mp (hiff'.mpr hcov) hv
  · rintro ⟨hn, hgapless⟩ v
    obtain ⟨r, hr, hiff⟩ := hnull hn v
    exact ⟨r, hr, hiff.trans (not_congr ⟨hgapless v, Covered.between⟩)⟩

end Sweep

section Aggregations

variable {calls : List (Member w P)}

theorem holdsBatch_addProperties (hproper : ∀ c ∈ calls, c.1.Proper) :
    HoldsBatch (({} : ListIntervalsProperties w s P).addProperties calls) calls := by
  rw [addProperties_eq]
  exact ⟨rfl, hproper⟩

/-- `aggregate_properties` ends. -/
theorem aggregateProperties_nullOutside (hproper : ∀ c ∈ calls, c.1.Proper) (sort : EltSort w 32)
    (fadd fremove : P → P → P) (fdup : P → P) :
    ∃ l, (({} : ListIntervalsProperties w 32 P).addProperties calls).aggregateProperties
          sort fadd fremove fdup = some l ∧
      (NullOutside l calls ↔ calls.length ≤ 2 ^ 30 + 1 ∧ Gapless calls) := by
  have hb := holdsBatch_addProperties (s := 32) hproper
  obtain ⟨l, hl⟩ := exists_aggregateWith hb sort (fun p _ => p) id fdup
    (proceeds_updateProperty hb.indexed fadd fremove) fun _ _ _ => trivial
  exact ⟨l, hl, nullOutside_iff (aggregateWith_intervals hl) hproper⟩

/-- `aggregate_properties_no_rem` ends. -/
theorem aggregatePropertiesNoRem_nullOutside [Inhabited P] (hproper : ∀ c ∈ calls, c.1.Proper)
    (sort : EltSort w 32) (fadd : P → P → P) (fdup : P → P) :
    ∃ l, (({} : ListIntervalsProperties w 32 P).addProperties calls).aggregatePropertiesNoRem
          sort fadd fdup = some l ∧
      (NullOutside l calls ↔ calls.length ≤ 2 ^ 30 + 1 ∧ Gapless calls) := by
  have hb := holdsBatch_addProperties (s := 32) hproper
  obtain ⟨l, hl⟩ := exists_aggregateWith hb sort (fun p i => ⟨p, [i]⟩) Current.curProperty fdup
    (proceeds_updateCurrent hb.indexed fadd fdup)
    fun p i hi => ⟨rfl, fun j hj => List.mem_singleton.mp hj ▸ hi⟩
  exact ⟨l, hl, nullOutside_iff (aggregateWith_intervals hl) hproper⟩

end Aggregations

/-- **When null means that there is no property**, after either sweep: the
calls are few enough and leave no gap. -/
theorem returns_null_iff [Inhabited P] (calls : List (Member w P))
    (hproper : ∀ c ∈ calls, c.1.Proper) (sort : EltSort w 32) (fadd fremove : P → P → P)
    (fdup : P → P) :
    ((∃ l, (({} : ListIntervalsProperties w 32 P).addProperties calls).aggregateProperties
          sort fadd fremove fdup = some l ∧ NullOutside l calls) ↔
        calls.length ≤ 2 ^ 30 + 1 ∧ Gapless calls) ∧
      ((∃ l, (({} : ListIntervalsProperties w 32 P).addProperties calls).aggregatePropertiesNoRem
          sort fadd fdup = some l ∧ NullOutside l calls) ↔
        calls.length ≤ 2 ^ 30 + 1 ∧ Gapless calls) := by
  obtain ⟨l, hl, hiff⟩ := aggregateProperties_nullOutside hproper sort fadd fremove fdup
  obtain ⟨l', hl', hiff'⟩ := aggregatePropertiesNoRem_nullOutside hproper sort fadd fdup
  constructor
  · rw [← hiff, hl]
    simp
  · rw [← hiff', hl']
    simp

/-- Two intervals that overlap leave no gap. -/
theorem returns_null_iff_overlap :
    ∃ l, (({} : ListIntervalsProperties 32 32 Nat).addProperties
        [(⟨5, 11⟩, 1), (⟨9, 14⟩, 2)]).aggregateProperties (.insertion _) (· + ·) (· - ·) id =
          some l ∧ NullOutside l [(⟨5, 11⟩, 1), (⟨9, 14⟩, 2)] := by
  refine (returns_null_iff [(⟨5, 11⟩, 1), (⟨9, 14⟩, 2)] (by decide) (.insertion _) (· + ·)
    (· - ·) id).1.mpr ⟨by decide, ?_⟩
  intro v hv
  simp only [Between, List.mem_cons, List.not_mem_nil, or_false, exists_eq_or_imp,
    exists_eq_left, Covered, contains_iff] at hv ⊢
  bv_omega

/-- Between two intervals that do not touch, the lookup returns a property
after either sweep. -/
theorem not_returns_null :
    let calls : List (Member 32 Nat) := [(⟨10, 11⟩, 1), (⟨20, 21⟩, 2)]
    let l := ({} : ListIntervalsProperties 32 32 Nat).addProperties calls
    ¬ Covered calls 15 ∧
      (∃ l', l.aggregateProperties (.insertion _) (· + ·) (· - ·) id = some l' ∧
        l'.Returns 15 (some 0)) ∧
      ∃ l', l.aggregatePropertiesNoRem (.insertion _) (· + ·) id = some l' ∧
        l'.Returns 15 (some 0) := by
  refine ⟨?_, ⟨_, rfl, 1, by decide⟩, ⟨_, rfl, 1, by decide⟩⟩
  simp only [Covered]
  decide

end Leeloo
