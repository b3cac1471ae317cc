/-
Leeloo.MaxPrefixKeeps — when `aggregate_max_prefix` and
`aggregate_max_prefix_strict` keep every value.

An interval rounded to the last block of the base type gets the upper
bound 0 and denotes nothing. The second merge repairs this in one case: a
proper interval that reaches the degenerate one absorbs it
(`allProper_of_absorbed`). That is the exact condition,
`TopBlockAbsorbed`, for both calls to keep every value and leave a
well-formed list.
-/
import Leeloo.MaxPrefix

namespace Leeloo

open HalfOpen Leeloo.Interval ListIntervals Block

variable {w s : Nat}

/-! ## One degenerate interval in a merge -/

/-- The merge from a degenerate interval, when the next one starts with
it. -/
theorem allProper_aggregateLoop_degenerate {d p : Interval w} {l : List (Interval w)}
    (hs : LowerSorted (d :: l)) (hl : AllProper l) (hp : p ∈ l) (hpd : p.lower ≤ d.lower) :
    AllProper (aggregateLoop d [] l) := by
  cases l with
  | nil => exact (List.not_mem_nil hp).elim
  | cons c rest =>
    have hdc : d.lower ≤ c.lower := hs.head_le List.mem_cons_self
    have hcp : c.lower ≤ p.lower := by
      cases hp with
      | head => exact le_refl _
      | tail _ hp => exact hs.tail.head_le hp
    have hc : c.Proper := hl c List.mem_cons_self
    have hov : overlap d c = true :=
      overlap_iff.mpr (Or.inr ⟨le_trans hcp hpd, le_trans hdc (le_of_lt hc)⟩)
    rw [aggregateLoop_overlap rest hov]
    apply bounds_aggregateLoop gapRel_lt
    intro i hi
    cases hi with
    | head => exact proper_hull hdc (Or.inr hc)
    | tail _ hi => exact hl i (List.mem_cons_of_mem _ hi)

/-- The merge from a proper interval, with one degenerate interval ahead
that a proper one reaches. -/
theorem allProper_aggregateLoop_absorbed {cur d p : Interval w} {l₁ l₂ : List (Interval w)}
    (hs : LowerSorted (cur :: (l₁ ++ d :: l₂))) (hcur : cur.Proper) (hl₁ : AllProper l₁)
    (hl₂ : AllProper l₂) (hp : p ∈ cur :: (l₁ ++ l₂)) (hpd : p.lower ≤ d.lower)
    (hdp : d.lower ≤ p.upper) : AllProper (aggregateLoop cur [] (l₁ ++ d :: l₂)) := by
  induction l₁ generalizing cur p with
  | nil =>
    have hle : cur.lower ≤ d.lower := hs.head_le List.mem_cons_self
    rw [List.nil_append]
    by_cases hov : overlap cur d = true
    · rw [aggregateLoop_overlap l₂ hov]
      apply bounds_aggregateLoop gapRel_lt
      intro i hi
      cases hi with
      | head => exact proper_hull hle (Or.inl hcur)
      | tail _ hi => exact hl₂ i hi
    · -- `cur` ends below `d`, so the interval that reaches `d` starts with it
      rw [aggregateLoop_disjoint l₂ hov]
      have hlt := lt_of_not_overlap hle hov
      intro i hi
      cases hi with
      | head => exact hcur
      | tail _ hi =>
        cases hp with
        | head => exact absurd hdp (not_le.mpr hlt)
        | tail _ hp => exact allProper_aggregateLoop_degenerate hs.tail hl₂ hp hpd i hi
  | cons c l₁ ih =>
    have hle : cur.lower ≤ c.lower := hs.head_le List.mem_cons_self
    have hc : c.Proper := hl₁ c List.mem_cons_self
    have hl₁' : AllProper l₁ := fun i hi => hl₁ i (List.mem_cons_of_mem _ hi)
    rw [List.cons_append]
    by_cases hov : overlap cur c = true
    · rw [aggregateLoop_overlap _ hov]
      have hsort := lowerSorted_hull hs
      have hhull := proper_hull hle (Or.inl hcur)
      have hd : (hull cur c).lower ≤ d.lower :=
        hsort.head_le (List.mem_append_right _ List.mem_cons_self)
      cases hp with
      | head =>
        exact ih hsort hhull hl₁' List.mem_cons_self hd (le_trans hdp hull_upper_le.1)
      | tail _ hp =>
        cases hp with
        | head =>
          exact ih hsort hhull hl₁' List.mem_cons_self hd (le_trans hdp hull_upper_le.2)
        | tail _ hp =>
          exact ih hsort hhull hl₁' (List.mem_cons_of_mem _ hp) hpd hdp
    · rw [aggregateLoop_disjoint _ hov]
      have hlt := lt_of_not_overlap hle hov
      have hcd : c.lower ≤ d.lower :=
        hs.tail.head_le (List.mem_append_right _ List.mem_cons_self)
      intro i hi
      cases hi with
      | head => exact hcur
      | tail _ hi =>
        cases hp with
        | head => exact absurd hdp (not_le.mpr (lt_of_lt_of_le hlt hcd))
        | tail _ hp => exact ih hs.tail hc hl₁' hp hpd hdp i hi

/-- **A degenerate interval is absorbed** by a merge in which a proper one
reaches it, wherever the sort puts it. -/
theorem allProper_of_absorbed (sort : ParallelSort w) {ints : List (Interval w)}
    (l₁ l₂ : List (Interval w)) {d p : Interval w} (hints : ints = l₁ ++ d :: l₂)
    (hl : AllProper (l₁ ++ l₂)) (hp : p ∈ l₁ ++ l₂) (hpd : p.lower ≤ d.lower)
    (hdp : d.lower ≤ p.upper) :
    AllProper (aggregateContainer sort ints) := by
  obtain ⟨_, hlen⟩ | ⟨front, rest, hrun, h⟩ := aggregateContainer_cases sort ints
  · -- two intervals at least
    have hpos := List.length_pos_of_mem hp
    rw [hints] at hlen
    simp only [List.length_append, List.length_cons] at hlen hpos
    omega
  · rw [h]
    have hsort : LowerSorted (front :: rest) := hrun ▸ lowerSorted_run sort ints
    have hperm : (front :: rest).Perm (d :: (l₁ ++ l₂)) := by
      rw [← hrun]
      exact (sort.perm ints).trans (hints ▸ List.perm_middle)
    have hd : d ∈ front :: rest := hperm.mem_iff.mpr List.mem_cons_self
    obtain ⟨m₁, m₂, hm⟩ := List.append_of_mem hd
    have hothers : (m₁ ++ m₂).Perm (l₁ ++ l₂) := by
      rw [hm] at hperm
      exact (List.perm_middle.symm.trans hperm).cons_inv
    have hproper : AllProper (m₁ ++ m₂) := fun i hi => hl i (hothers.mem_iff.mp hi)
    have hpm : p ∈ m₁ ++ m₂ := hothers.mem_iff.mpr hp
    cases m₁ with
    | nil =>
      obtain ⟨rfl, rfl⟩ : front = d ∧ rest = m₂ := by simpa using hm
      exact allProper_aggregateLoop_degenerate hsort hproper hpm hpd
    | cons c m₁ =>
      obtain ⟨rfl, rfl⟩ : front = c ∧ rest = m₁ ++ d :: m₂ := by simpa using hm
      exact allProper_aggregateLoop_absorbed hsort (hproper _ List.mem_cons_self)
        (fun i hi => hproper i (List.mem_cons_of_mem _ (List.mem_append_left _ hi)))
        (fun i hi => hproper i (List.mem_cons_of_mem _ (List.mem_append_right _ hi)))
        hpm hpd hdp

/-! ## Keeping every value -/

/-- The list is well formed and `contains` finds every value of `S`. -/
structure KeepsAll (S : Set (BitVec w)) (l : ListIntervals w s) : Prop where
  proper : ∀ i ∈ l.intervals, i.lower < i.upper
  separated : l.intervals.IsChain fun i j => i.upper < j.lower
  contains : ∀ v ∈ S, l.contains v = some true

/-- A run that is rounded to the last block ends where that block begins,
and another run is rounded to that point from below. -/
def TopBlockAbsorbed (strict : Bool) (B : Nat) (S : Set (BitVec w)) : Prop :=
  ∀ i : Interval w, IsRun S i.lower i.upper →
    Rounds strict B i.lower.toNat i.upper.toNat → 2 ^ w ≤ i.upper.toNat + B →
    i.upper.toNat + B = 2 ^ w ∧
      ∃ j : Interval w, IsRun S j.lower j.upper ∧
        Rounds strict B j.lower.toNat j.upper.toNat ∧
        2 ^ w ≤ j.upper.toNat + 2 * B ∧ j.upper < i.lower

section Top

variable {runs : List (Interval w)} (hn : Normal runs) {strict : Bool} {p : Nat} (hp : 0 < p)
  (hpw : p ≤ w)
include hn hp hpw

/-- Away from the last block, rounding gives a proper interval. -/
theorem roundInterval_proper {i : Interval w} (hi : i ∈ runs)
    (h : ¬ (Rounds strict (2 ^ (w - p)) i.lower.toNat i.upper.toNat ∧
      2 ^ w ≤ i.upper.toNat + 2 ^ (w - p))) :
    (roundInterval strict (prefix2mask w p) i).Proper := by
  have hip : i.lower.toNat < i.upper.toNat := hn.proper i hi
  obtain ⟨hr, hlow, hup⟩ | ⟨_, heq⟩ := roundInterval_cases strict hp hpw (hn.proper i hi)
  · have hB := Nat.two_pow_pos (w - p)
    have hfl := floor_le (2 ^ (w - p)) i.lower.toNat
    have hfu := floor_le (2 ^ (w - p)) i.upper.toNat
    have hlt := lt_floor_add hB i.upper.toNat
    have hin : i.upper.toNat + 2 ^ (w - p) < 2 ^ w := by
      by_contra hge
      exact h ⟨hr, by omega⟩
    rw [Proper, BitVec.lt_def, hlow, hup, Nat.mod_eq_of_lt (by omega)]
    omega
  · rw [heq]
    exact hn.proper i hi

/-- The interval rounded to the last block is absorbed by the rounded run
below it. -/
theorem absorbed_of_top {i j : Interval w} (hj : j ∈ runs)
    (hend : i.upper.toNat + 2 ^ (w - p) = 2 ^ w)
    (hi : (roundInterval strict (prefix2mask w p) i).lower.toNat =
      floor (2 ^ (w - p)) i.lower.toNat)
    (hil : i.lower < i.upper) (hrj : Rounds strict (2 ^ (w - p)) j.lower.toNat j.upper.toNat)
    (hreach : 2 ^ w ≤ j.upper.toNat + 2 * 2 ^ (w - p)) (hji : j.upper < i.lower) :
    (roundInterval strict (prefix2mask w p) j).lower ≤
      (roundInterval strict (prefix2mask w p) i).lower ∧
    (roundInterval strict (prefix2mask w p) i).lower ≤
      (roundInterval strict (prefix2mask w p) j).upper ∧
    i.upper ≤ (roundInterval strict (prefix2mask w p) j).upper := by
  have hB := Nat.two_pow_pos (w - p)
  have hji' : j.upper.toNat < i.lower.toNat := hji
  have hil' : i.lower.toNat < i.upper.toNat := hil
  have hdvd : 2 ^ w % 2 ^ (w - p) = 0 :=
    Nat.mod_eq_zero_of_dvd (Nat.pow_dvd_pow 2 (Nat.sub_le w p))
  have hialign : i.upper.toNat % 2 ^ (w - p) = 0 := by
    rw [← hend, Nat.add_mod_right] at hdvd
    exact hdvd
  -- `j` ends in the block before the last one
  have hfj : (floor (2 ^ (w - p)) j.upper.toNat + 2 ^ (w - p)) = i.upper.toNat := by
    have h1 := (floor_add_le_iff hB hialign).mpr (show j.upper.toNat < i.upper.toNat by omega)
    have hmod : (i.upper.toNat - 2 ^ (w - p)) % 2 ^ (w - p) = 0 := by
      obtain ⟨k, hk⟩ := Nat.dvd_of_mod_eq_zero hialign
      rw [hk, ← Nat.mul_sub_one, Nat.mul_mod_right]
    have h2 := (le_floor_iff hB hmod).mpr
      (show i.upper.toNat - 2 ^ (w - p) ≤ j.upper.toNat by omega)
    omega
  obtain ⟨_, hlow, hup⟩ | ⟨hr, _⟩ := roundInterval_cases strict hp hpw (hn.proper j hj)
  · rw [hfj, Nat.mod_eq_of_lt i.upper.isLt] at hup
    have hjp : j.lower.toNat < j.upper.toNat := hn.proper j hj
    have hfi := floor_le (2 ^ (w - p)) i.lower.toNat
    have hmono := floor_mono hB (show j.lower.toNat ≤ i.lower.toNat by omega)
    refine ⟨?_, ?_, ?_⟩
    · rw [BitVec.le_def, hlow, hi]
      exact hmono
    · rw [BitVec.le_def, hup, hi]
      omega
    · rw [BitVec.le_def, hup]
  · exact absurd hrj hr

/-- The merge of the rounded runs is in normal form when the degenerate
one, if any, is absorbed. -/
theorem normal_of_topBlockAbsorbed (sort : ParallelSort w)
    (h : TopBlockAbsorbed strict (2 ^ (w - p)) (covers runs)) :
    Normal (aggregateContainer sort (runs.map (roundInterval strict (prefix2mask w p)))) := by
  refine ⟨?_, separated_aggregateContainer sort _⟩
  by_cases htop : ∃ i ∈ runs, Rounds strict (2 ^ (w - p)) i.lower.toNat i.upper.toNat ∧
      2 ^ w ≤ i.upper.toNat + 2 ^ (w - p)
  · obtain ⟨i, hi, hr, hle⟩ := htop
    obtain ⟨hend, j, hjrun, hrj, hreach, hji⟩ := h i (hn.isRun hi) hr hle
    have hj := hn.mem_iff_isRun.mpr hjrun
    obtain ⟨_, hlow, _⟩ | ⟨hr', _⟩ := roundInterval_cases strict hp hpw (hn.proper i hi)
    · obtain ⟨habove, hbelow, _⟩ :=
        absorbed_of_top hn hp hpw hj hend hlow (hn.proper i hi) hrj hreach hji
      obtain ⟨l₁, l₂, rfl⟩ := List.append_of_mem hi
      -- the runs on either side of `i` are not rounded to the last block
      have hsep := List.pairwise_append.mp hn.separated
      have hother : ∀ k ∈ l₁ ++ l₂,
          (roundInterval strict (prefix2mask w p) k).Proper := by
        intro k hk
        have hkmem : k ∈ l₁ ++ i :: l₂ := by
          obtain hk | hk := List.mem_append.mp hk
          · exact List.mem_append_left _ hk
          · exact List.mem_append_right _ (List.mem_cons_of_mem _ hk)
        apply roundInterval_proper hn hp hpw hkmem
        intro hwrap
        have hkend := (h k (hn.isRun hkmem) hwrap.1 hwrap.2).1
        have hki : k.upper.toNat = i.upper.toNat := by omega
        have hkp : k.lower.toNat < k.upper.toNat := hn.proper k hkmem
        have hip : i.lower.toNat < i.upper.toNat := hn.proper i hi
        obtain hk | hk := List.mem_append.mp hk
        · have hlt : k.upper.toNat < i.lower.toNat := hsep.2.2 k hk i List.mem_cons_self
          omega
        · have hlt : i.upper.toNat < k.lower.toNat := (List.pairwise_cons.mp hsep.2.1).1 k hk
          omega
      have hjmem : j ∈ l₁ ++ l₂ := by
        obtain hj | hj := List.mem_append.mp hj
        · exact List.mem_append_left _ hj
        · cases hj with
          | head =>
            exact absurd (hn.proper _ hi) (not_lt.mpr (le_of_lt hji))
          | tail _ hj => exact List.mem_append_right _ hj
      apply allProper_of_absorbed sort (l₁.map (roundInterval strict (prefix2mask w p)))
        (l₂.map (roundInterval strict (prefix2mask w p)))
        (d := roundInterval strict (prefix2mask w p) i)
        (p := roundInterval strict (prefix2mask w p) j) (by simp) _ _ habove hbelow
      · intro o ho
        rw [← List.map_append] at ho
        obtain ⟨k, hk, rfl⟩ := List.mem_map.mp ho
        exact hother k hk
      · rw [← List.map_append]
        exact List.mem_map_of_mem hjmem
    · exact absurd hr hr'
  · apply bounds_aggregateContainer gapRel_lt
    intro o ho
    obtain ⟨i, hi, rfl⟩ := List.mem_map.mp ho
    exact roundInterval_proper hn hp hpw hi fun hwrap => htop ⟨i, hi, hwrap⟩

/-- No value is lost then. -/
theorem covers_subset_of_topBlockAbsorbed
    (h : TopBlockAbsorbed strict (2 ^ (w - p)) (covers runs)) {v : BitVec w}
    (hv : v ∈ covers runs) :
    ∃ i ∈ runs, v ∈ (roundInterval strict (prefix2mask w p) i).toSet := by
  obtain ⟨i, hi, hlow, hup⟩ := hv
  by_cases htop : Rounds strict (2 ^ (w - p)) i.lower.toNat i.upper.toNat ∧
      2 ^ w ≤ i.upper.toNat + 2 ^ (w - p)
  · obtain ⟨hend, j, hjrun, hrj, hreach, hji⟩ := h i (hn.isRun hi) htop.1 htop.2
    have hj := hn.mem_iff_isRun.mpr hjrun
    obtain ⟨_, hlowi, _⟩ | ⟨hr', _⟩ := roundInterval_cases strict hp hpw (hn.proper i hi)
    · obtain ⟨_, _, habove⟩ :=
        absorbed_of_top hn hp hpw hj hend hlowi (hn.proper i hi) hrj hreach hji
      refine ⟨j, hj, ?_, lt_of_lt_of_le hup habove⟩
      -- the rounded `j` starts below `v`
      obtain ⟨_, hlowj, _⟩ | ⟨hr', _⟩ := roundInterval_cases strict hp hpw (hn.proper j hj)
      · have hfl := floor_le (2 ^ (w - p)) j.lower.toNat
        have hjp : j.lower.toNat < j.upper.toNat := hn.proper j hj
        have hji' : j.upper.toNat < i.lower.toNat := hji
        have hlow' : i.lower.toNat ≤ v.toNat := hlow
        rw [BitVec.le_def, hlowj]
        omega
      · exact absurd hrj hr'
    · exact absurd htop.1 hr'
  · refine ⟨i, hi, (mem_roundInterval_iff strict hp hpw (hn.proper i hi)).mpr ?_⟩
    by_cases hr : Rounds strict (2 ^ (w - p)) i.lower.toNat i.upper.toNat
    · have hfl := floor_le (2 ^ (w - p)) i.lower.toNat
      have hfu := floor_le (2 ^ (w - p)) i.upper.toNat
      have hlt := lt_floor_add (Nat.two_pow_pos (w - p)) i.upper.toNat
      have hlow' : i.lower.toNat ≤ v.toNat := hlow
      have hup' : v.toNat < i.upper.toNat := hup
      have hin : i.upper.toNat + 2 ^ (w - p) < 2 ^ w := by
        by_contra hge
        exact htop ⟨hr, by omega⟩
      exact Or.inl ⟨hr, by omega, by omega, by omega⟩
    · exact Or.inr ⟨hr, hlow, hup⟩

omit hp hpw in
/-- When the last value of a run rounded to the last block is kept, another
run was rounded up to it. -/
theorem absorbed_of_kept {i k : Interval w} (hi : i ∈ runs) (hk : k ∈ runs)
    (hr : Rounds strict (2 ^ (w - p)) i.lower.toNat i.upper.toNat)
    (hle : 2 ^ w ≤ i.upper.toNat + 2 ^ (w - p)) {v : BitVec w}
    (hv : v.toNat + 1 = i.upper.toNat)
    (hkv : RoundedTo strict (2 ^ (w - p)) (2 ^ w) k.lower.toNat k.upper.toNat v.toNat) :
    i.upper.toNat + 2 ^ (w - p) = 2 ^ w ∧
      Rounds strict (2 ^ (w - p)) k.lower.toNat k.upper.toNat ∧
      2 ^ w ≤ k.upper.toNat + 2 * 2 ^ (w - p) ∧ k.upper < i.lower := by
  have hB := Nat.two_pow_pos (w - p)
  have hdvd : 2 ^ w % 2 ^ (w - p) = 0 :=
    Nat.mod_eq_zero_of_dvd (Nat.pow_dvd_pow 2 (Nat.sub_le w p))
  have hip : i.lower.toNat < i.upper.toNat := hn.proper i hi
  have hkp : k.lower.toNat < k.upper.toNat := hn.proper k hk
  have hpow : 2 ^ (w - p) ≤ 2 ^ w := Nat.pow_le_pow_right (by omega) (Nat.sub_le w p)
  have htopmod : (2 ^ w - 2 ^ (w - p)) % 2 ^ (w - p) = 0 := by
    obtain ⟨m, hm⟩ := Nat.dvd_of_mod_eq_zero hdvd
    rw [hm, ← Nat.mul_sub_one, Nat.mul_mod_right]
  -- `i` ends in the last block
  have hfi : floor (2 ^ (w - p)) i.upper.toNat + 2 ^ (w - p) = 2 ^ w := by
    have h1 := (le_floor_iff hB htopmod).mpr
      (show 2 ^ w - 2 ^ (w - p) ≤ i.upper.toNat by omega)
    have h2 := floor_add_le_two_pow (p := p) i.upper
    omega
  have hfile := floor_le (2 ^ (w - p)) i.upper.toNat
  have hfkle := floor_le (2 ^ (w - p)) k.upper.toNat
  obtain heq | hlt | hlt := hn.separated.of_mem hi hk
  · subst heq
    obtain ⟨_, _, _, hend⟩ | ⟨hr', _⟩ := hkv
    · omega
    · exact absurd hr hr'
  · have hlt : i.upper.toNat < k.lower.toNat := hlt
    obtain ⟨_, _, _, hend⟩ | ⟨_, hlow, _⟩ := hkv
    · have := floor_mono hB (show i.upper.toNat ≤ k.upper.toNat by omega)
      omega
    · omega
  · have hlt' : k.upper.toNat < i.lower.toNat := hlt
    obtain ⟨hrk, _, hup, hend⟩ | ⟨_, _, hup⟩ := hkv
    · have hmod : (floor (2 ^ (w - p)) i.upper.toNat) % 2 ^ (w - p) = 0 := floor_mod _ _
      have hstep : floor (2 ^ (w - p)) k.upper.toNat + 2 ^ (w - p) ≤
          floor (2 ^ (w - p)) i.upper.toNat := by
        have hff := floor_of_mod_eq_zero (floor_mod (2 ^ (w - p)) k.upper.toNat)
        have := (floor_add_le_iff (n := floor (2 ^ (w - p)) k.upper.toNat) hB hmod).mpr (by omega)
        omega
      exact ⟨by omega, hrk, by omega, hlt⟩
    · omega

/-- The rounded runs hold every value exactly when what is rounded to the
last block is absorbed. -/
theorem covers_subset_rounded_iff :
    covers runs ⊆ covers (runs.map (roundInterval strict (prefix2mask w p))) ↔
      TopBlockAbsorbed strict (2 ^ (w - p)) (covers runs) := by
  constructor
  · intro h i hrun hr hle
    have hi := hn.mem_iff_isRun.mpr hrun
    have hip : i.lower.toNat < i.upper.toNat := hrun.proper
    -- the last value of the run is kept
    obtain ⟨v, hv⟩ := exists_word (w := w) (n := i.upper.toNat - 1) (by
      have := i.upper.isLt
      omega)
    have hmem : v ∈ covers runs :=
      ⟨i, hi, by rw [BitVec.le_def]; omega, by rw [BitVec.lt_def]; omega⟩
    obtain ⟨o, ho, hvo⟩ := h hmem
    obtain ⟨k, hk, rfl⟩ := List.mem_map.mp ho
    rw [mem_roundInterval_iff strict hp hpw (hn.proper k hk)] at hvo
    obtain ⟨hend, hrk, hreach, hki⟩ := absorbed_of_kept hn hi hk hr hle (by omega) hvo
    exact ⟨hend, k, hn.isRun hk, hrk, hreach, hki⟩
  · intro h v hv
    obtain ⟨i, hi, hvi⟩ := covers_subset_of_topBlockAbsorbed hn hp hpw h hv
    exact ⟨_, List.mem_map_of_mem hi, hvi⟩

end Top

/-- For either variant: every value is kept in a well-formed list exactly
when what is rounded to the last block is absorbed. -/
theorem aggregateMaxPrefixImpl_keeps_iff (strict : Bool) (sorts sorts' : Sorts w) {p : Nat}
    (hp : 0 < p) (hpw : p ≤ w) (l : ListIntervals w w) (hA : AllProper l.intervals)
    (hR : AllProper l.removedIntervals) :
    KeepsAll (denoted l) (l.aggregateMaxPrefixImpl strict sorts sorts' p) ↔
      TopBlockAbsorbed strict (2 ^ (w - p)) (denoted l) := by
  have hn := aggregate_normal sorts hA hR
  have hcov : denoted l = covers (l.aggregate sorts).intervals := by
    rw [denoted, ← covers_aggregate sorts hA hR]
  have hres := aggregateMaxPrefixImpl_eq (le_refl w) strict sorts sorts' hp l hA hR
  have hrounded : covers (l.aggregateMaxPrefixImpl strict sorts sorts' p).intervals =
      covers ((l.aggregate sorts).intervals.map (roundInterval strict (prefix2mask w p))) := by
    rw [hres, covers_aggregateContainer]
  rw [hcov]
  constructor
  · intro h
    have hnormal : Normal (l.aggregateMaxPrefixImpl strict sorts sorts' p).intervals :=
      (normal_iff_isChain h.proper).mpr h.separated
    rw [← covers_subset_rounded_iff hn hp hpw, ← hrounded]
    intro v hv
    obtain ⟨r, hfound, hiff⟩ := contains_spec (le_refl w) hnormal v
    rw [h.contains v hv] at hfound
    cases hfound
    exact hiff.mp rfl
  · intro h
    have hnormal := normal_of_topBlockAbsorbed hn hp hpw sorts'.stored h
    rw [← hres] at hnormal
    refine ⟨hnormal.proper, (normal_iff_isChain hnormal.proper).mp hnormal, ?_⟩
    intro v hv
    obtain ⟨r, hfound, hiff⟩ := contains_spec (le_refl w) hnormal v
    have hmem : v ∈ covers (l.aggregateMaxPrefixImpl strict sorts sorts' p).intervals := by
      rw [hrounded]
      exact (covers_subset_rounded_iff hn hp hpw).mpr h hv
    rw [hfound, hiff.mpr hmem]

/-- **When no value is lost.** `aggregate_max_prefix` and its strict
variant keep every value in a well-formed list exactly when each run that
they round to the last block is absorbed by a run rounded to it. -/
theorem aggregateMaxPrefix_keeps_iff (sorts sorts' : Sorts 32) (p : Nat) (hp : 1 ≤ p)
    (hp32 : p ≤ 32) (l : ListIntervals 32 32) (hA : ∀ i ∈ l.intervals, i.lower < i.upper)
    (hR : ∀ r ∈ l.removedIntervals, r.lower < r.upper) :
    (KeepsAll (denoted l) (l.aggregateMaxPrefix sorts sorts' p) ↔
      TopBlockAbsorbed false (2 ^ (32 - p)) (denoted l)) ∧
    (KeepsAll (denoted l) (l.aggregateMaxPrefixStrict sorts sorts' p) ↔
      TopBlockAbsorbed true (2 ^ (32 - p)) (denoted l)) :=
  ⟨aggregateMaxPrefixImpl_keeps_iff false sorts sorts' hp hp32 l hA hR,
    aggregateMaxPrefixImpl_keeps_iff true sorts sorts' hp hp32 l hA hR⟩

/-- The list of the witness: a run that two intervals make, and one that a
removal shortens and that ends where the last block begins. -/
def topSample : ListIntervals 32 32 where
  intervals := [⟨0xfffffe20, 0xfffffe40⟩, ⟨0xfffffe10, 0xfffffe30⟩, ⟨0xfffffe70, 0xffffff00⟩]
  removedIntervals := [⟨0xfffffe70, 0xfffffe80⟩]

theorem topBlockAbsorbed_topSample (strict : Bool) :
    TopBlockAbsorbed strict (2 ^ (32 - 24)) (denoted topSample) := by
  have hn : Normal (topSample.aggregate (Sorts.insertion 32)).intervals :=
    aggregate_normal _ (by decide) (by decide)
  have hden : denoted topSample = covers (topSample.aggregate (Sorts.insertion 32)).intervals :=
    (covers_aggregate _ (by decide) (by decide)).symm
  have hruns : (topSample.aggregate (Sorts.insertion 32)).intervals =
      [⟨0xfffffe10, 0xfffffe40⟩, ⟨0xfffffe80, 0xffffff00⟩] := by decide
  rw [hruns] at hn hden
  rw [hden]
  intro i hrun _ htop
  have hi := hn.mem_iff_isRun.mpr hrun
  simp only [List.mem_cons, List.not_mem_nil, or_false] at hi
  obtain rfl | rfl := hi
  · exact absurd htop (by decide)
  · exact ⟨by decide, ⟨0xfffffe10, 0xfffffe40⟩, hn.isRun List.mem_cons_self, Or.inl (by decide),
      by decide, by decide⟩

/-- The run rounded to the last block is absorbed. -/
theorem aggregateMaxPrefix_keeps_sample :
    (topSample.aggregateMaxPrefix (Sorts.insertion 32) (Sorts.insertion 32) 24).intervals =
      [⟨0xfffffe00, 0xffffff00⟩] ∧
    KeepsAll (denoted topSample)
      (topSample.aggregateMaxPrefix (Sorts.insertion 32) (Sorts.insertion 32) 24) ∧
    KeepsAll (denoted topSample)
      (topSample.aggregateMaxPrefixStrict (Sorts.insertion 32) (Sorts.insertion 32) 24) := by
  obtain ⟨hkeeps, hkeepsStrict⟩ := aggregateMaxPrefix_keeps_iff (Sorts.insertion 32)
    (Sorts.insertion 32) 24 (by decide) (by decide) topSample (by decide) (by decide)
  exact ⟨by decide, hkeeps.mpr (topBlockAbsorbed_topSample false),
    hkeepsStrict.mpr (topBlockAbsorbed_topSample true)⟩

/-- 255.255.255.0 to 255.255.255.253 is rounded to `[0xffffff00, 0)` by
both calls: the interval is inverted and its addresses are not found. -/
theorem aggregateMaxPrefix_loses_top :
    let l : ListIntervals 32 32 := { intervals := [⟨0xffffff00, 0xfffffffe⟩] }
    let r := l.aggregateMaxPrefix (Sorts.insertion 32) (Sorts.insertion 32) 24
    let r' := l.aggregateMaxPrefixStrict (Sorts.insertion 32) (Sorts.insertion 32) 24
    r.intervals = [⟨0xffffff00, 0⟩] ∧ r.contains 0xffffff00 = some false ∧
      r'.intervals = [⟨0xffffff00, 0⟩] ∧ r'.contains 0xffffff00 = some false ∧
      ¬ KeepsAll (denoted l) r ∧ ¬ KeepsAll (denoted l) r' := by
  refine ⟨by decide, by decide, by decide, by decide, fun h => ?_, fun h => ?_⟩
  · exact absurd (h.proper ⟨0xffffff00, 0⟩ (by decide)) (by decide)
  · exact absurd (h.proper ⟨0xffffff00, 0⟩ (by decide)) (by decide)

end Leeloo
