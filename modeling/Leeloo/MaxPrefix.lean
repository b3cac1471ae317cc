/-
Leeloo.MaxPrefix — `aggregate_max_prefix` and its strict variant.

With `B = 2^(w - min_prefix)`, both calls aggregate, replace each interval
that they round (`Rounds`) by the blocks of `B` values from the one of its
lower bound to the one of its upper bound, and aggregate again. The upper
bound is exclusive but is rounded as if it were a value of the interval,
and the end of the last block wraps to 0.

`mem_covers_aggregateMaxPrefixImpl` says which values the result holds, in
terms of the maximal runs of the set. From it follow the exact conditions
under which the result is a union of whole blocks of the set
(`aggregateMaxPrefix_exact_iff`) and under which no value is lost
(`aggregateMaxPrefix_keeps_iff`).
-/
import Leeloo.Contains
import Leeloo.Lib.Block

namespace Leeloo

open HalfOpen Leeloo.Interval ListIntervals Block

variable {w s : Nat}

/-! ## Rounding one interval -/

/-- When `aggregate_max_prefix_impl` replaces `[l, u)`. -/
def Rounds (strict : Bool) (B l u : Nat) : Prop := u - l < B ∨ (strict = false ∧ u % B ≠ 0)

instance (strict : Bool) (B l u : Nat) : Decidable (Rounds strict B l u) :=
  inferInstanceAs (Decidable (_ ∨ _))

theorem not_rounds_iff {B l u : Nat} : ¬ Rounds false B l u ↔ B ≤ u - l ∧ u % B = 0 := by
  unfold Rounds
  simp

theorem prefix2mask_eq {p : Nat} (hp : 0 < p) : prefix2mask w p = lowMask w (w - p) := by
  unfold prefix2mask lowMask
  rw [if_neg (by omega)]
  rfl

theorem roundInterval_cases (strict : Bool) {p : Nat} (hp : 0 < p) (hpw : p ≤ w)
    {it : Interval w} (hit : it.Proper) :
    (Rounds strict (2 ^ (w - p)) it.lower.toNat it.upper.toNat ∧
      (roundInterval strict (prefix2mask w p) it).lower.toNat =
        floor (2 ^ (w - p)) it.lower.toNat ∧
      (roundInterval strict (prefix2mask w p) it).upper.toNat =
        (floor (2 ^ (w - p)) it.upper.toNat + 2 ^ (w - p)) % 2 ^ w) ∨
    (¬ Rounds strict (2 ^ (w - p)) it.lower.toNat it.upper.toNat ∧
      roundInterval strict (prefix2mask w p) it = it) := by
  have hk : w - p ≤ w := Nat.sub_le w p
  have hone : (1#w).toNat = 1 := Word.toNat_one (Nat.one_lt_two_pow (by omega))
  have hpos := Nat.two_pow_pos (w - p)
  have hpow : 2 ^ (w - p) < 2 ^ w := Nat.pow_lt_pow_right (by omega) (by omega)
  have hmask := toNat_lowMask hk
  have hmax : (lowMask w (w - p) + 1).toNat = 2 ^ (w - p) := by
    show (lowMask w (w - p) + 1#w).toNat = 2 ^ (w - p)
    rw [BitVec.toNat_add_of_lt (by omega)]
    omega
  -- the test of the source is `Rounds`
  have htest : (it.width < lowMask w (w - p) + 1 ∨
      (¬ strict ∧ it.upper &&& lowMask w (w - p) ≠ 0)) ↔
      Rounds strict (2 ^ (w - p)) it.lower.toNat it.upper.toNat := by
    unfold Rounds
    rw [BitVec.lt_def, hmax, toNat_width hit, ne_eq, BitVec.toNat_eq, toNat_and_lowMask hk]
    simp
  rw [prefix2mask_eq hp]
  unfold roundInterval
  by_cases h : Rounds strict (2 ^ (w - p)) it.lower.toNat it.upper.toNat
  · left
    have hif := htest.mpr h
    simp only [if_pos hif]
    exact ⟨h, toNat_and_not_lowMask hk it.lower, toNat_or_lowMask_succ hk it.upper⟩
  · right
    exact ⟨h, if_neg fun hif => h (htest.mp hif)⟩

/-- The values of the rounded interval. Rounding to the end of the last
block leaves none. -/
def RoundedTo (strict : Bool) (B W l u v : Nat) : Prop :=
  (Rounds strict B l u ∧ floor B l ≤ v ∧ v < floor B u + B ∧ floor B u + B < W) ∨
    (¬ Rounds strict B l u ∧ l ≤ v ∧ v < u)

/-- The end of a block is at most `2^w`. -/
theorem floor_add_le_two_pow {p : Nat} (u : BitVec w) :
    floor (2 ^ (w - p)) u.toNat + 2 ^ (w - p) ≤ 2 ^ w := by
  apply (floor_add_le_iff (Nat.two_pow_pos _) _).mpr u.isLt
  exact Nat.mod_eq_zero_of_dvd (Nat.pow_dvd_pow 2 (Nat.sub_le w p))

theorem mem_roundInterval_iff (strict : Bool) {p : Nat} (hp : 0 < p) (hpw : p ≤ w)
    {it : Interval w} (hit : it.Proper) {v : BitVec w} :
    v ∈ (roundInterval strict (prefix2mask w p) it).toSet ↔
      RoundedTo strict (2 ^ (w - p)) (2 ^ w) it.lower.toNat it.upper.toNat v.toNat := by
  have hle := floor_add_le_two_pow (p := p) it.upper
  rw [mem_toSet, BitVec.le_def, BitVec.lt_def]
  unfold RoundedTo
  obtain ⟨h, hlow, hup⟩ | ⟨h, heq⟩ := roundInterval_cases strict hp hpw hit
  · rw [hlow, hup]
    by_cases hend : floor (2 ^ (w - p)) it.upper.toNat + 2 ^ (w - p) < 2 ^ w
    · rw [Nat.mod_eq_of_lt hend]
      simp [h, hend]
    · have hw : floor (2 ^ (w - p)) it.upper.toNat + 2 ^ (w - p) = 2 ^ w := by omega
      rw [hw, Nat.mod_self]
      simp [h]
  · rw [heq]
    simp [h]

/-! ## What the call stores -/

/-- The set a list denotes once its pending removals are made. -/
def denoted (l : ListIntervals w s) : Set (BitVec w) :=
  covers l.intervals \ covers l.removedIntervals

/-- With no removal left to make, the call is a merge of the rounded
intervals of the aggregated list. -/
theorem aggregateMaxPrefixImpl_of_queue (strict : Bool) (sorts sorts' : Sorts w) {p : Nat}
    (hp : 0 < p) {l : ListIntervals w s} (hlen : (l.aggregate sorts).intervals.length < 2 ^ s)
    (hq : (l.aggregate sorts).removedIntervals = [] ∨ (l.aggregate sorts).intervals = []) :
    (aggregateMaxPrefixImpl strict sorts sorts' p l).intervals =
      aggregateContainer sorts'.stored
        ((l.aggregate sorts).intervals.map (roundInterval strict (prefix2mask w p))) := by
  have horg : (BitVec.ofNat s (l.aggregate sorts).intervals.length).toNat =
      (l.aggregate sorts).intervals.length := by
    rw [BitVec.toNat_ofNat, Nat.mod_eq_of_lt hlen]
  unfold aggregateMaxPrefixImpl
  rw [if_neg (by omega)]
  simp only [horg, List.take_length, List.drop_length, List.append_nil]
  exact aggregate_intervals_of_or sorts' (hq.imp id fun hnil => by simp [hnil])

theorem aggregateMaxPrefixImpl_eq (hws : w ≤ s) (strict : Bool) (sorts sorts' : Sorts w) {p : Nat}
    (hp : 0 < p) (l : ListIntervals w s) (hA : AllProper l.intervals)
    (hR : AllProper l.removedIntervals) :
    (aggregateMaxPrefixImpl strict sorts sorts' p l).intervals =
      aggregateContainer sorts'.stored
        ((l.aggregate sorts).intervals.map (roundInterval strict (prefix2mask w p))) := by
  have hn := aggregate_normal sorts hA hR
  have hlen : (l.aggregate sorts).intervals.length < 2 ^ s := by
    have hmul := two_mul_length_le hn
    have hpos := Nat.two_pow_pos w
    have hpow : 2 ^ w ≤ 2 ^ s := Nat.pow_le_pow_right (by omega) hws
    omega
  apply aggregateMaxPrefixImpl_of_queue strict sorts sorts' hp hlen
  have hrem := aggregate_removedIntervals sorts l
  by_cases hi : l.intervals = []
  · -- nothing stored, so nothing to round
    have hnil : (l.aggregate sorts).intervals = [] := by
      apply hn.eq_nil_of_covers
      rw [covers_aggregate sorts hA hR, hi]
      simp
    exact Or.inr hnil
  · rw [if_neg hi] at hrem
    exact Or.inl hrem

/-- **The result of rounding.** A value is stored exactly when an interval
of the aggregated list, a maximal run of the set, is rounded to it. -/
theorem mem_covers_aggregateMaxPrefixImpl (hws : w ≤ s) (strict : Bool) (sorts sorts' : Sorts w)
    {p : Nat} (hp : 0 < p) (hpw : p ≤ w) (l : ListIntervals w s) (hA : AllProper l.intervals)
    (hR : AllProper l.removedIntervals) (v : BitVec w) :
    v ∈ covers (aggregateMaxPrefixImpl strict sorts sorts' p l).intervals ↔
      ∃ i ∈ (l.aggregate sorts).intervals,
        RoundedTo strict (2 ^ (w - p)) (2 ^ w) i.lower.toNat i.upper.toNat v.toNat := by
  have hn := aggregate_normal sorts hA hR
  rw [aggregateMaxPrefixImpl_eq hws strict sorts sorts' hp l hA hR, covers_aggregateContainer]
  constructor
  · intro h
    obtain ⟨o, ho, hv⟩ := h
    obtain ⟨i, hi, rfl⟩ := List.mem_map.mp ho
    exact ⟨i, hi, (mem_roundInterval_iff strict hp hpw (hn.proper i hi)).mp hv⟩
  · intro h
    obtain ⟨i, hi, hv⟩ := h
    exact ⟨_, List.mem_map_of_mem hi,
      (mem_roundInterval_iff strict hp hpw (hn.proper i hi)).mpr hv⟩

/-! ## Exact block rounding -/

/-- Every value of `R` is in a block of `B` values that has one in `S`, and
`R` is a union of whole blocks. -/
structure ExactBlocks (B : Nat) (S R : Set (BitVec w)) : Prop where
  meets : ∀ v ∈ R, ∃ x ∈ S, x.toNat / B = v.toNat / B
  whole : ∀ v ∈ R, ∀ x : BitVec w, x.toNat / B = v.toNat / B → x ∈ R

/-- The maximal runs that end on a block boundary come out right: after a
short one, the block at its end has a value of the set; a long one that
starts inside a block has company below it in that block, or a short run
ends where the block begins. -/
structure AlignedEndsAgree (B : Nat) (S : Set (BitVec w)) : Prop where
  short : ∀ i : Interval w, IsRun S i.lower i.upper → i.upper.toNat % B = 0 →
    i.upper.toNat - i.lower.toNat < B → i.upper.toNat + B < 2 ^ w →
    ∃ x ∈ S, x.toNat / B = i.upper.toNat / B
  long : ∀ i : Interval w, IsRun S i.lower i.upper → i.upper.toNat % B = 0 →
    B ≤ i.upper.toNat - i.lower.toNat → i.lower.toNat % B ≠ 0 →
    (∃ x ∈ S, x < i.lower ∧ x.toNat / B = i.lower.toNat / B) ∨
    (∃ j : Interval w, IsRun S j.lower j.upper ∧ j.upper.toNat = floor B i.lower.toNat ∧
      j.upper.toNat - j.lower.toNat < B)

theorem exists_word {n : Nat} (h : n < 2 ^ w) : ∃ x : BitVec w, x.toNat = n :=
  ⟨BitVec.ofNat w n, by rw [BitVec.toNat_ofNat, Nat.mod_eq_of_lt h]⟩

/-- A run that is rounded up to the block of the lower bound of `i` takes
all of that block, when `i` ends on a later boundary. -/
theorem roundedTo_below {B : Nat} (hB : 0 < B) {i j : Interval w} (hi : i.Proper) {x : BitVec w}
    (hx : floor B x.toNat = floor B i.lower.toNat) (halign : i.upper.toNat % B = 0)
    (hju : floor B j.upper.toNat = floor B i.lower.toNat)
    (hjl : floor B j.lower.toNat ≤ floor B i.lower.toNat)
    (hj : Rounds false B j.lower.toNat j.upper.toNat) :
    RoundedTo false B (2 ^ w) j.lower.toNat j.upper.toNat x.toNat := by
  have hfx := floor_le B x.toNat
  have hxlt := lt_floor_add hB x.toNat
  have hilt : i.lower.toNat < i.upper.toNat := hi
  have hnext : floor B i.lower.toNat + B ≤ i.upper.toNat := (floor_add_le_iff hB halign).mpr hilt
  have hu := i.upper.isLt
  exact Or.inl ⟨hj, by omega, by omega, by omega⟩

section Blocks

variable {runs : List (Interval w)} (hn : Normal runs) {B : Nat} (hB : 0 < B)
include hn hB

/-- A rounded run starts at a block of the set and stays in blocks that
meet it, if a short run that ends on a boundary does. -/
theorem meets_of_alignedEnds (h : AlignedEndsAgree B (covers runs)) {i : Interval w}
    (hi : i ∈ runs) {v : BitVec w}
    (hv : RoundedTo false B (2 ^ w) i.lower.toNat i.upper.toNat v.toNat) :
    ∃ x ∈ covers runs, x.toNat / B = v.toNat / B := by
  have hrun := hn.isRun hi
  obtain ⟨hr, hlow, hup, hend⟩ | ⟨_, hlow, hup⟩ := hv
  · have hfl : floor B i.lower.toNat ≤ floor B v.toNat :=
      (le_floor_iff hB (floor_mod B _)).mpr hlow
    have hfv := floor_le B v.toNat
    by_cases hbelow : floor B v.toNat ≤ i.lower.toNat
    · -- the block of the lower bound
      have heq : floor B v.toNat ≤ floor B i.lower.toNat :=
        (le_floor_iff hB (floor_mod B _)).mpr hbelow
      exact ⟨i.lower, hrun.subset _ (le_refl _) hrun.proper,
        (floor_eq_iff_div_eq hB).mp (by omega)⟩
    · by_cases habove : floor B v.toNat < i.upper.toNat
      · -- a block that starts inside the run
        obtain ⟨x, hx⟩ := exists_word (w := w) (n := floor B v.toNat) (by have := v.isLt; omega)
        refine ⟨x, hrun.subset x ?_ ?_, ?_⟩
        · rw [BitVec.le_def, hx]
          omega
        · rw [BitVec.lt_def, hx]
          exact habove
        · rw [← floor_eq_iff_div_eq hB, hx]
          exact floor_of_mod_eq_zero (floor_mod B _)
      · -- the block after a run that ends on a boundary
        have hle := floor_le_of_lt_floor_add hB hup
        have hfu := floor_le B i.upper.toNat
        have hfu' : floor B i.upper.toNat = i.upper.toNat := by omega
        have halign : i.upper.toNat % B = 0 := by
          rw [← hfu']
          exact floor_mod B _
        have hshort : i.upper.toNat - i.lower.toNat < B :=
          hr.resolve_right fun hr => hr.2 halign
        obtain ⟨x, hx, hxu⟩ := h.short i hrun halign hshort (by omega)
        refine ⟨x, hx, ?_⟩
        rw [hxu, ← floor_eq_iff_div_eq hB]
        omega
  · exact ⟨v, hrun.subset v hlow hup, rfl⟩

theorem whole_of_alignedEnds (h : AlignedEndsAgree B (covers runs)) {i : Interval w}
    (hi : i ∈ runs) {v x : BitVec w}
    (hv : RoundedTo false B (2 ^ w) i.lower.toNat i.upper.toNat v.toNat)
    (hx : floor B x.toNat = floor B v.toNat) :
    ∃ j ∈ runs, RoundedTo false B (2 ^ w) j.lower.toNat j.upper.toNat x.toNat := by
  have hrun := hn.isRun hi
  have hfx := floor_le B x.toNat
  have hxlt := lt_floor_add hB x.toNat
  obtain ⟨hr, hlow, hup, hend⟩ | ⟨hr, hlow, hup⟩ := hv
  · have hfl : floor B i.lower.toNat ≤ floor B v.toNat :=
      (le_floor_iff hB (floor_mod B _)).mpr hlow
    have hle := floor_le_of_lt_floor_add hB hup
    exact ⟨i, hi, Or.inl ⟨hr, by omega, by omega, hend⟩⟩
  · obtain ⟨hwide, halign⟩ := not_rounds_iff.mp hr
    have hlast := (floor_add_le_iff hB halign).mpr hup
    by_cases hxl : i.lower.toNat ≤ x.toNat
    · exact ⟨i, hi, Or.inr ⟨hr, hxl, by omega⟩⟩
    · -- `x` is in the block of the lower bound, below it
      have hfxl : floor B x.toNat = floor B i.lower.toNat := by
        have h1 := floor_mono hB (show x.toNat ≤ i.lower.toNat by omega)
        have h2 := floor_mono hB hlow
        omega
      have hne : i.lower.toNat % B ≠ 0 := by
        intro hmod
        have := floor_of_mod_eq_zero hmod
        omega
      obtain ⟨y, hy, hyl, hyb⟩ | ⟨j, hjrun, hju, hshort⟩ := h.long i hrun halign hwide hne
      · obtain ⟨j, hj, hjl, hju⟩ := hy
        have hyb := (floor_eq_iff_div_eq hB).mpr hyb
        have hju_lt : j.upper < i.lower := by
          obtain heq | hlt | hlt := hn.separated.of_mem hi hj
          · rw [heq] at hyl
            exact absurd hjl (not_le.mpr hyl)
          · exact absurd (lt_trans hrun.proper (lt_of_lt_of_le hlt hjl)) (not_lt.mpr hyl.le)
          · exact hlt
        have h1 := floor_mono hB (show y.toNat ≤ j.upper.toNat from le_of_lt hju)
        have h2 := floor_mono hB (show j.upper.toNat ≤ i.lower.toNat from le_of_lt hju_lt)
        have h3 := floor_mono hB (show j.lower.toNat ≤ y.toNat from hjl)
        have hyu : y.toNat < j.upper.toNat := hju
        have hfy := floor_le B y.toNat
        have hjne : j.upper.toNat % B ≠ 0 := by
          intro hmod
          have := floor_of_mod_eq_zero hmod
          omega
        exact ⟨j, hj, roundedTo_below hB hrun.proper hfxl halign (by omega) (by omega)
          (Or.inr ⟨rfl, hjne⟩)⟩
      · have hj := hn.mem_iff_isRun.mpr hjrun
        have hjp : j.lower.toNat < j.upper.toNat := hjrun.proper
        have hfju : floor B j.upper.toNat = floor B i.lower.toNat := by
          rw [hju]
          exact floor_of_mod_eq_zero (floor_mod B _)
        have hfjl := floor_le B j.lower.toNat
        exact ⟨j, hj, roundedTo_below hB hrun.proper hfxl halign hfju (by omega) (Or.inl hshort)⟩

/-- When only whole blocks are stored, a run that starts inside a block has
company below it there. -/
theorem long_of_whole {i : Interval w} (hi : i ∈ runs) (halign : i.upper.toNat % B = 0)
    (hne : i.lower.toNat % B ≠ 0) {f : BitVec w} (hf : f.toNat = floor B i.lower.toNat)
    {j : Interval w} (hj : j ∈ runs)
    (hfj : RoundedTo false B (2 ^ w) j.lower.toNat j.upper.toNat f.toNat)
    (hwide : B ≤ i.upper.toNat - i.lower.toNat) :
    (∃ x ∈ covers runs, x < i.lower ∧ x.toNat / B = i.lower.toNat / B) ∨
    (∃ j : Interval w, IsRun (covers runs) j.lower j.upper ∧
      j.upper.toNat = floor B i.lower.toNat ∧ j.upper.toNat - j.lower.toNat < B) := by
  have hflt := floor_lt_of_mod_ne_zero hne
  have hip : i.lower.toNat < i.upper.toNat := hn.proper i hi
  have hjp : j.lower.toNat < j.upper.toNat := hn.proper j hj
  rw [hf] at hfj
  obtain heq | hlt | hlt := hn.separated.of_mem hi hj
  · -- the run itself is not rounded
    subst heq
    obtain ⟨hr, _⟩ | ⟨_, hlow, _⟩ := hfj
    · obtain hr | hr := hr
      · omega
      · exact absurd halign hr.2
    · omega
  · have hlt : i.upper.toNat < j.lower.toNat := hlt
    obtain ⟨_, hlow, _⟩ | ⟨_, hlow, _⟩ := hfj
    · have := (le_floor_iff hB halign).mpr (le_of_lt hlt)
      omega
    · omega
  · have hlt : j.upper.toNat < i.lower.toNat := hlt
    by_cases hin : floor B i.lower.toNat < j.upper.toNat
    · -- the last value of the run below is in the block
      obtain ⟨y, hy⟩ := exists_word (w := w) (n := j.upper.toNat - 1) (by
        have := j.upper.isLt
        omega)
      refine Or.inl ⟨y, ⟨j, hj, ?_, ?_⟩, ?_, ?_⟩
      · rw [BitVec.le_def]
        omega
      · rw [BitVec.lt_def]
        omega
      · rw [BitVec.lt_def]
        omega
      · rw [← floor_eq_iff_div_eq hB, hy]
        have h1 := (le_floor_iff hB (floor_mod B i.lower.toNat)).mpr
          (show floor B i.lower.toNat ≤ j.upper.toNat - 1 by omega)
        have h2 := floor_mono hB (show j.upper.toNat - 1 ≤ i.lower.toNat by omega)
        omega
    · obtain ⟨hr, _, hup, _⟩ | ⟨_, _, hup⟩ := hfj
      · have hle := floor_le_of_lt_floor_add hB hup
        have hff := floor_of_mod_eq_zero (floor_mod B i.lower.toNat)
        have hfu := floor_le B j.upper.toNat
        have hju : j.upper.toNat = floor B i.lower.toNat := by omega
        have hmodj : j.upper.toNat % B = 0 := by
          rw [hju]
          exact floor_mod B _
        exact Or.inr ⟨j, hn.isRun hj, hju, hr.resolve_right fun hr => hr.2 hmodj⟩
      · omega

/-- Which sets are rounded exactly, for a result given by `RoundedTo`. -/
theorem exactBlocks_iff {R : Set (BitVec w)}
    (hR : ∀ v, v ∈ R ↔ ∃ i ∈ runs,
      RoundedTo false B (2 ^ w) i.lower.toNat i.upper.toNat v.toNat) :
    ExactBlocks B (covers runs) R ↔ AlignedEndsAgree B (covers runs) := by
  constructor
  · intro h
    constructor
    · intro i hrun halign hshort hend
      apply h.meets i.upper
      rw [hR]
      have hfl := floor_le B i.lower.toNat
      have hfu := floor_of_mod_eq_zero halign
      have hp : i.lower.toNat < i.upper.toNat := hrun.proper
      exact ⟨i, hn.mem_iff_isRun.mpr hrun, Or.inl ⟨Or.inl hshort, by omega, by omega, by omega⟩⟩
    · intro i hrun halign hwide hne
      have hi := hn.mem_iff_isRun.mpr hrun
      have hlR : i.lower ∈ R := by
        rw [hR]
        refine ⟨i, hi, Or.inr ⟨?_, le_refl _, hrun.proper⟩⟩
        intro hr
        obtain hr | hr := hr
        · omega
        · exact hr.2 halign
      obtain ⟨f, hf⟩ := exists_word (w := w) (n := floor B i.lower.toNat) (by
        have h1 := floor_le B i.lower.toNat
        have h2 := i.lower.isLt
        omega)
      have hfR := h.whole i.lower hlR f (by
        rw [← floor_eq_iff_div_eq hB, hf]
        exact floor_of_mod_eq_zero (floor_mod B _))
      obtain ⟨j, hj, hfj⟩ := (hR f).mp hfR
      exact long_of_whole hn hB hi halign hne hf hj hfj hwide
  · intro h
    constructor
    · intro v hv
      obtain ⟨i, hi, hvi⟩ := (hR v).mp hv
      exact meets_of_alignedEnds hn hB h hi hvi
    · intro v hv x hx
      obtain ⟨i, hi, hvi⟩ := (hR v).mp hv
      rw [hR]
      exact whole_of_alignedEnds hn hB h hi hvi ((floor_eq_iff_div_eq hB).mpr hx)

end Blocks

/-- **When `aggregate_max_prefix` is exact block rounding**: exactly when
the runs of the set that end on a block boundary come out right. -/
theorem aggregateMaxPrefix_exact_iff (sorts sorts' : Sorts 32) (p : Nat) (hp : 1 ≤ p)
    (hp32 : p ≤ 32) (l : ListIntervals 32 32) (hA : ∀ i ∈ l.intervals, i.lower < i.upper)
    (hR : ∀ r ∈ l.removedIntervals, r.lower < r.upper) :
    ExactBlocks (2 ^ (32 - p)) (denoted l)
      (covers (l.aggregateMaxPrefix sorts sorts' p).intervals) ↔
    AlignedEndsAgree (2 ^ (32 - p)) (denoted l) := by
  rw [denoted, ← covers_aggregate sorts hA hR]
  exact exactBlocks_iff (aggregate_normal sorts hA hR) (Nat.two_pow_pos _)
    (mem_covers_aggregateMaxPrefixImpl (le_refl 32) false sorts sorts' hp hp32 l hA hR)

/-- The list of the witness: two intervals that overlap, one that a removal
cuts in two, and two whole blocks. -/
def roundingSample : ListIntervals 32 32 where
  intervals := [⟨0x0a00000c, 0x0a00001a⟩, ⟨0x0a000105, 0x0a000180⟩, ⟨0x0a000004, 0x0a000010⟩,
    ⟨0x0a000300, 0x0a000500⟩]
  removedIntervals := [⟨0x0a000120, 0x0a000130⟩]

/-- No run of the sample ends on a boundary, but for the whole blocks. -/
theorem aggregateMaxPrefix_exact_sample :
    (roundingSample.aggregateMaxPrefix (Sorts.insertion 32) (Sorts.insertion 32) 24).intervals =
      [⟨0x0a000000, 0x0a000200⟩, ⟨0x0a000300, 0x0a000500⟩] ∧
    ExactBlocks (2 ^ (32 - 24)) (denoted roundingSample)
      (covers (roundingSample.aggregateMaxPrefix (Sorts.insertion 32) (Sorts.insertion 32)
        24).intervals) := by
  refine ⟨by decide, (aggregateMaxPrefix_exact_iff (Sorts.insertion 32) (Sorts.insertion 32) 24
    (by decide) (by decide) roundingSample (by decide) (by decide)).mpr ?_⟩
  have hn : Normal (roundingSample.aggregate (Sorts.insertion 32)).intervals :=
    aggregate_normal _ (by decide) (by decide)
  have hden : denoted roundingSample =
      covers (roundingSample.aggregate (Sorts.insertion 32)).intervals :=
    (covers_aggregate _ (by decide) (by decide)).symm
  have hwhole : ∀ i ∈ (roundingSample.aggregate (Sorts.insertion 32)).intervals,
      i.upper.toNat % 2 ^ (32 - 24) = 0 → i.lower.toNat % 2 ^ (32 - 24) = 0 ∧
        2 ^ (32 - 24) ≤ i.upper.toNat - i.lower.toNat := by decide
  rw [hden]
  constructor
  · intro i hrun halign hshort
    exact absurd (hwhole i (hn.mem_iff_isRun.mpr hrun) halign).2 (not_le.mpr hshort)
  · intro i hrun halign _ hne
    exact absurd (hwhole i (hn.mem_iff_isRun.mpr hrun) halign).1 hne

/-- 10.0.0.240 to 10.0.0.255 ends on a boundary and is rounded to two
blocks of 256 addresses, the second of which it does not meet. -/
theorem aggregateMaxPrefix_extra_block :
    let l : ListIntervals 32 32 := { intervals := [⟨0x0a0000f0, 0x0a000100⟩] }
    (l.aggregateMaxPrefix (Sorts.insertion 32) (Sorts.insertion 32) 24).intervals =
      [⟨0x0a000000, 0x0a000200⟩] ∧
    ¬ ExactBlocks (2 ^ (32 - 24)) (denoted l)
      (covers (l.aggregateMaxPrefix (Sorts.insertion 32) (Sorts.insertion 32) 24).intervals) := by
  intro l
  have hres : (l.aggregateMaxPrefix (Sorts.insertion 32) (Sorts.insertion 32) 24).intervals =
      [⟨0x0a000000, 0x0a000200⟩] := by decide
  refine ⟨hres, ?_⟩
  intro h
  rw [hres] at h
  obtain ⟨x, hx, hblock⟩ := h.meets 0x0a000100 ⟨_, List.mem_singleton_self _, by decide, by decide⟩
  obtain ⟨i, hi, _, hup⟩ := hx.1
  rw [List.mem_singleton.mp hi, BitVec.lt_def] at hup
  simp at hup hblock
  omega

end Leeloo
