/-
Leeloo.Lib.HalfOpen — half-open intervals over a linear order, finite
lists of them, and the normal form of the set a list covers.

Nothing here is about one program. `HalfOpen α` is a pair of bounds with
no invariant of its own, because programs do build degenerate ones;
`covers l` is the set a list denotes; `Separated rel l` says that each
upper bound is `rel`-below every later lower bound, so one notion serves
lists whose neighbours may touch (`≤`) and lists whose neighbours may not
(`<`). A list is `Normal` when its intervals are proper and strictly
separated.

Two facts make the normal form useful: it is determined by the set
(`Normal.ext`), and its members are exactly the maximal runs of the set
(`Normal.mem_iff_isRun`), so a statement about the stored intervals can be
made about the set alone.
-/
import Mathlib.Order.Interval.Set.LinearOrder
import Mathlib.Order.MinMax
import Mathlib.Data.List.Chain

/-- The half-open interval `[lower, upper)`. -/
@[ext] structure HalfOpen (α : Type) where
  lower : α
  upper : α
  deriving DecidableEq, Repr

namespace HalfOpen

variable {α : Type} [LinearOrder α]

/-! ## One interval -/

/-- A proper interval has at least one point. -/
def Proper (i : HalfOpen α) : Prop := i.lower < i.upper

instance (i : HalfOpen α) : Decidable i.Proper := inferInstanceAs (Decidable (_ < _))

/-- The points of the interval. -/
def toSet (i : HalfOpen α) : Set α := Set.Ico i.lower i.upper

@[simp] theorem mem_toSet {i : HalfOpen α} {v : α} :
    v ∈ i.toSet ↔ i.lower ≤ v ∧ v < i.upper := Iff.rfl

theorem Proper.lower_mem {i : HalfOpen α} (h : i.Proper) : i.lower ∈ i.toSet :=
  ⟨le_refl _, h⟩

/-- Two intervals that touch or overlap, the first starting first, have
the union of their points as their hull. Neither has to be proper. -/
theorem mem_hull_iff {a b c d v : α} (hac : a ≤ c) (hov : c ≤ b ∨ (c ≤ a ∧ a ≤ d)) :
    (a ≤ v ∧ v < max b d) ↔ (a ≤ v ∧ v < b) ∨ (c ≤ v ∧ v < d) := by
  rw [lt_max_iff]
  constructor
  · rintro ⟨hav, hvb | hvd⟩
    · exact Or.inl ⟨hav, hvb⟩
    · rcases lt_or_ge v b with hvb | hbv
      · exact Or.inl ⟨hav, hvb⟩
      · refine Or.inr ⟨?_, hvd⟩
        rcases hov with hcb | ⟨hca, _⟩
        · exact hcb.trans hbv
        · exact hca.trans hav
  · rintro (⟨hav, hvb⟩ | ⟨hcv, hvd⟩)
    · exact ⟨hav, Or.inl hvb⟩
    · exact ⟨hac.trans hcv, Or.inr hvd⟩

/-! ## Lists of intervals -/

/-- The set of points covered by a list. -/
def covers (l : List (HalfOpen α)) : Set α := {v | ∃ i ∈ l, v ∈ i.toSet}

@[simp] theorem mem_covers {l : List (HalfOpen α)} {v : α} :
    v ∈ covers l ↔ ∃ i ∈ l, i.lower ≤ v ∧ v < i.upper := Iff.rfl

@[simp] theorem covers_nil : covers ([] : List (HalfOpen α)) = ∅ := by
  ext v; simp

theorem mem_covers_cons {i : HalfOpen α} {l : List (HalfOpen α)} {v : α} :
    v ∈ covers (i :: l) ↔ (i.lower ≤ v ∧ v < i.upper) ∨ v ∈ covers l := by
  simp [mem_covers]

theorem covers_cons (i : HalfOpen α) (l : List (HalfOpen α)) :
    covers (i :: l) = i.toSet ∪ covers l := by
  ext v; exact mem_covers_cons

theorem covers_singleton (i : HalfOpen α) : covers [i] = i.toSet := by
  rw [covers_cons, covers_nil, Set.union_empty]

theorem covers_append (l m : List (HalfOpen α)) :
    covers (l ++ m) = covers l ∪ covers m := by
  ext v
  simp only [mem_covers, List.mem_append, Set.mem_union]
  constructor
  · rintro ⟨i, hi | hi, hv⟩
    · exact Or.inl ⟨i, hi, hv⟩
    · exact Or.inr ⟨i, hi, hv⟩
  · rintro (⟨i, hi, hv⟩ | ⟨i, hi, hv⟩)
    · exact ⟨i, Or.inl hi, hv⟩
    · exact ⟨i, Or.inr hi, hv⟩

/-- The covered set does not depend on the order of the list. -/
theorem covers_perm {l m : List (HalfOpen α)} (h : l.Perm m) : covers l = covers m := by
  ext v; simp only [mem_covers, h.mem_iff]

/-- Each upper bound is `rel`-below every later lower bound. -/
def Separated (rel : α → α → Prop) (l : List (HalfOpen α)) : Prop :=
  l.Pairwise fun i j => rel i.upper j.lower

/-- Lower bounds never decrease along the list. -/
def LowerSorted (l : List (HalfOpen α)) : Prop :=
  l.Pairwise fun i j => i.lower ≤ j.lower

theorem LowerSorted.head_le {i j : HalfOpen α} {l : List (HalfOpen α)}
    (h : LowerSorted (i :: l)) (hj : j ∈ l) : i.lower ≤ j.lower :=
  (List.pairwise_cons.mp h).1 j hj

theorem LowerSorted.tail {i : HalfOpen α} {l : List (HalfOpen α)}
    (h : LowerSorted (i :: l)) : LowerSorted l := (List.pairwise_cons.mp h).2

/-- Every interval of the list is proper. -/
def AllProper (l : List (HalfOpen α)) : Prop := ∀ i ∈ l, i.Proper

instance (l : List (HalfOpen α)) : Decidable (AllProper l) :=
  inferInstanceAs (Decidable (∀ i ∈ l, i.Proper))

/-- The normal form: proper intervals, each strictly below the next. -/
structure Normal (l : List (HalfOpen α)) : Prop where
  proper : AllProper l
  separated : Separated (· < ·) l

theorem Normal.nil : Normal ([] : List (HalfOpen α)) :=
  ⟨fun _ hi => (List.not_mem_nil hi).elim, List.Pairwise.nil⟩

theorem Normal.tail {i : HalfOpen α} {l : List (HalfOpen α)} (h : Normal (i :: l)) :
    Normal l :=
  ⟨fun j hj => h.proper j (List.mem_cons_of_mem _ hj), (List.pairwise_cons.mp h.separated).2⟩

theorem Normal.head_proper {i : HalfOpen α} {l : List (HalfOpen α)} (h : Normal (i :: l)) :
    i.Proper := h.proper i List.mem_cons_self

theorem Normal.head_lt {i j : HalfOpen α} {l : List (HalfOpen α)} (h : Normal (i :: l))
    (hj : j ∈ l) : i.upper < j.lower :=
  (List.pairwise_cons.mp h.separated).1 j hj

/-- For proper intervals it is enough to compare neighbours. -/
theorem normal_iff_isChain {l : List (HalfOpen α)} (hp : AllProper l) :
    Normal l ↔ l.IsChain fun i j => i.upper < j.lower := by
  constructor
  · exact fun h => List.Pairwise.isChain h.separated
  · intro hc
    refine ⟨hp, ?_⟩
    induction l with
    | nil => exact List.Pairwise.nil
    | cons i l ih =>
      have htail := ih (fun j hj => hp j (List.mem_cons_of_mem _ hj)) hc.tail
      refine List.pairwise_cons.mpr ⟨fun j hj => ?_, htail⟩
      cases l with
      | nil => exact (List.not_mem_nil hj).elim
      | cons k m =>
        have hik : i.upper < k.lower := (List.isChain_cons_cons.mp hc).1
        rcases List.mem_cons.mp hj with rfl | hj
        · exact hik
        · have hk : k.lower < k.upper :=
            hp k (List.mem_cons_of_mem _ List.mem_cons_self)
          exact hik.trans (hk.trans ((List.pairwise_cons.mp htail).1 j hj))

/-! ## Intervals that follow each other -/

/-- Neighbours may touch, and an interval may be empty. -/
structure Consecutive (l : List (HalfOpen α)) : Prop where
  ordered : ∀ i ∈ l, i.lower ≤ i.upper
  separated : Separated (· ≤ ·) l

theorem Normal.consecutive {l : List (HalfOpen α)} (h : Normal l) : Consecutive l :=
  ⟨fun i hi => le_of_lt (h.proper i hi), h.separated.imp le_of_lt⟩

/-- Two lists follow each other when the second starts above the first. -/
theorem consecutive_append_iff {l m : List (HalfOpen α)} :
    Consecutive (l ++ m) ↔
      Consecutive l ∧ Consecutive m ∧ ∀ i ∈ l, ∀ j ∈ m, i.upper ≤ j.lower := by
  constructor
  · intro h
    obtain ⟨hl, hm, hcross⟩ := List.pairwise_append.mp h.separated
    exact ⟨⟨fun i hi => h.ordered i (List.mem_append_left _ hi), hl⟩,
      ⟨fun i hi => h.ordered i (List.mem_append_right _ hi), hm⟩, hcross⟩
  · rintro ⟨hl, hm, hcross⟩
    refine ⟨fun i hi => ?_, List.pairwise_append.mpr ⟨hl.separated, hm.separated, hcross⟩⟩
    exact (List.mem_append.mp hi).elim (hl.ordered i) (hm.ordered i)

theorem Consecutive.upper_le_lower {l : List (HalfOpen α)} (h : Consecutive l) {m n : Nat}
    {i j : HalfOpen α} (hi : l[m]? = some i) (hj : l[n]? = some j) (hmn : m < n) :
    i.upper ≤ j.lower := by
  obtain ⟨hm, rfl⟩ := List.getElem?_eq_some_iff.mp hi
  obtain ⟨hn, rfl⟩ := List.getElem?_eq_some_iff.mp hj
  exact List.pairwise_iff_getElem.mp h.separated m n hm hn hmn

/-- A value below an interval lies in earlier intervals only. -/
theorem Consecutive.lt_of_lt_lower {l : List (HalfOpen α)} (h : Consecutive l) {m n : Nat}
    {i j : HalfOpen α} {v : α} (hi : l[m]? = some i) (hj : l[n]? = some j) (hv : v ∈ j.toSet)
    (hlt : v < i.lower) : n < m := by
  by_contra hge
  rcases Nat.lt_or_eq_of_le (Nat.le_of_not_lt hge) with hmn | heq
  · have hord := h.ordered i (List.mem_of_getElem? hi)
    have hle := h.upper_le_lower hi hj hmn
    exact absurd hv.1 (not_le.mpr (lt_of_lt_of_le hlt (le_trans hord hle)))
  · rw [heq, hj] at hi
    cases hi
    exact absurd hv.1 (not_le.mpr hlt)

/-- A value not below an interval lies in it or in later ones. -/
theorem Consecutive.le_of_not_lt_lower {l : List (HalfOpen α)} (h : Consecutive l) {m n : Nat}
    {i j : HalfOpen α} {v : α} (hi : l[m]? = some i) (hj : l[n]? = some j) (hv : v ∈ j.toSet)
    (hge : ¬ v < i.lower) : m ≤ n := by
  by_contra hlt
  have hle := h.upper_le_lower hj hi (Nat.lt_of_not_le hlt)
  exact hge (lt_of_lt_of_le hv.2 hle)

/-! ## The normal form is determined by the set -/

/-- Nothing below the first lower bound is covered. -/
theorem Normal.head_le {i : HalfOpen α} {l : List (HalfOpen α)} (h : Normal (i :: l))
    {v : α} (hv : v ∈ covers (i :: l)) : i.lower ≤ v := by
  rcases mem_covers_cons.mp hv with ⟨hiv, _⟩ | ⟨j, hj, hjv, _⟩
  · exact hiv
  · exact (h.head_proper.trans (h.head_lt hj)).le.trans hjv

/-- The tail covers what the list covers at or above the first upper bound. -/
theorem Normal.mem_tail_iff {i : HalfOpen α} {l : List (HalfOpen α)} (h : Normal (i :: l))
    {v : α} : v ∈ covers l ↔ v ∈ covers (i :: l) ∧ i.upper ≤ v := by
  constructor
  · intro hv
    have ⟨j, hj, hjv, _⟩ := hv
    exact ⟨mem_covers_cons.mpr (Or.inr hv), (h.head_lt hj).le.trans hjv⟩
  · rintro ⟨hv, hiv⟩
    rcases mem_covers_cons.mp hv with ⟨_, hvi⟩ | hv
    · exact (not_lt.mpr hiv hvi).elim
    · exact hv

/-- The first upper bound itself is not covered. -/
theorem Normal.head_upper_not_mem {i : HalfOpen α} {l : List (HalfOpen α)}
    (h : Normal (i :: l)) : i.upper ∉ covers (i :: l) := by
  intro hv
  rcases mem_covers_cons.mp hv with ⟨_, hlt⟩ | ⟨j, hj, hjv, _⟩
  · exact lt_irrefl _ hlt
  · exact not_lt.mpr hjv (h.head_lt hj)

theorem Normal.eq_nil_of_covers {l : List (HalfOpen α)} (h : Normal l)
    (hc : covers l = ∅) : l = [] := by
  cases l with
  | nil => rfl
  | cons i l =>
    have hmem : i.lower ∈ covers (i :: l) :=
      mem_covers_cons.mpr (Or.inl h.head_proper.lower_mem)
    rw [hc] at hmem
    exact hmem.elim

/-- The first interval of a normal list is not shorter than that of any
other normal list of the same set. -/
theorem Normal.head_upper_le {i j : HalfOpen α} {l m : List (HalfOpen α)}
    (hl : Normal (i :: l))
    (hc : covers (i :: l) = covers (j :: m)) (hlow : i.lower = j.lower) :
    j.upper ≤ i.upper := by
  by_contra hlt
  rw [not_le] at hlt
  have hin : i.upper ∈ covers (j :: m) := by
    refine mem_covers_cons.mpr (Or.inl ⟨?_, hlt⟩)
    rw [← hlow]
    exact hl.head_proper.le
  rw [← hc] at hin
  exact hl.head_upper_not_mem hin

/-- **Two normal lists of one set are the same list.** -/
theorem Normal.ext {l m : List (HalfOpen α)} (hl : Normal l) (hm : Normal m)
    (hc : covers l = covers m) : l = m := by
  induction l generalizing m with
  | nil => exact (hm.eq_nil_of_covers (by rw [← hc, covers_nil])).symm
  | cons i l ih =>
    cases m with
    | nil => exact hl.eq_nil_of_covers (by rw [hc, covers_nil])
    | cons j m =>
      have hij : i.lower ≤ j.lower := by
        apply hl.head_le
        rw [hc]
        exact mem_covers_cons.mpr (Or.inl hm.head_proper.lower_mem)
      have hji : j.lower ≤ i.lower := by
        apply hm.head_le
        rw [← hc]
        exact mem_covers_cons.mpr (Or.inl hl.head_proper.lower_mem)
      have hlow : i.lower = j.lower := le_antisymm hij hji
      have hup : i.upper = j.upper :=
        le_antisymm (hm.head_upper_le hc.symm hlow.symm) (hl.head_upper_le hc hlow)
      have htail : covers l = covers m := by
        ext v
        rw [hl.mem_tail_iff, hm.mem_tail_iff, hc, hup]
      rw [HalfOpen.ext hlow hup, ih hl.tail hm.tail htail]

/-! ## The members of the normal form are the maximal runs of the set -/

/-- `[l, u)` is a maximal run of `s`: it lies in `s`, `u` does not, and it
cannot be extended below `l`. -/
structure IsRun (s : Set α) (l u : α) : Prop where
  proper : l < u
  subset : ∀ v, l ≤ v → v < u → v ∈ s
  upper_not_mem : u ∉ s
  lower_maximal : ∀ v, v < l → ∃ x, v ≤ x ∧ x < l ∧ x ∉ s

/-- Two intervals of a separated list are equal, or one is below the other. -/
theorem Separated.of_mem {l : List (HalfOpen α)} (h : Separated (· < ·) l) {i j : HalfOpen α}
    (hi : i ∈ l) (hj : j ∈ l) : i = j ∨ i.upper < j.lower ∨ j.upper < i.lower := by
  induction l with
  | nil => exact (List.not_mem_nil hi).elim
  | cons k l ih =>
    obtain ⟨hk, htail⟩ := List.pairwise_cons.mp h
    rcases List.mem_cons.mp hi with rfl | hi' <;> rcases List.mem_cons.mp hj with rfl | hj'
    · exact Or.inl rfl
    · exact Or.inr (Or.inl (hk j hj'))
    · exact Or.inr (Or.inr (hk i hi'))
    · exact ih htail hi' hj'

/-- No upper bound of a normal list is covered. -/
theorem Normal.upper_not_mem {l : List (HalfOpen α)} (h : Normal l) {i : HalfOpen α}
    (hi : i ∈ l) : i.upper ∉ covers l := by
  rintro ⟨j, hj, hjl, hju⟩
  rcases h.separated.of_mem hi hj with rfl | hlt | hlt
  · exact lt_irrefl _ hju
  · exact not_lt.mpr hjl hlt
  · exact lt_asymm (hju.trans hlt) (h.proper i hi)

theorem Normal.isRun {l : List (HalfOpen α)} (h : Normal l) {i : HalfOpen α} (hi : i ∈ l) :
    IsRun (covers l) i.lower i.upper where
  proper := h.proper i hi
  subset := fun _ hlow hup => ⟨i, hi, hlow, hup⟩
  upper_not_mem := h.upper_not_mem hi
  lower_maximal := by
    intro v hv
    by_cases hcov : v ∈ covers l
    · -- `v` lies in an earlier interval, whose upper bound is the gap
      obtain ⟨j, hj, hjl, hju⟩ := hcov
      rcases h.separated.of_mem hi hj with rfl | hlt | hlt
      · exact (not_lt.mpr hjl hv).elim
      · exact (lt_asymm (hlt.trans_le hjl) (hv.trans (h.proper i hi))).elim
      · exact ⟨j.upper, hju.le, hlt, h.upper_not_mem hj⟩
    · exact ⟨v, le_refl v, hv, hcov⟩

/-- An interval that begins no later than a run, reaches into it and lies in
the set begins with the run and does not end behind it. -/
theorem Normal.within_of_subset {l : List (HalfOpen α)} (h : Normal l) {i j : HalfOpen α}
    (hi : i ∈ l) (hlow : j.lower ≤ i.lower) (hup : i.lower < j.upper)
    (hsub : j.toSet ⊆ covers l) : j.lower = i.lower ∧ j.upper ≤ i.upper := by
  have hrun := h.isRun hi
  constructor
  · refine le_antisymm hlow (not_lt.mp fun hlt => ?_)
    obtain ⟨x, hx1, hx2, hx3⟩ := hrun.lower_maximal j.lower hlt
    exact hx3 (hsub ⟨hx1, hx2.trans hup⟩)
  · refine not_lt.mp fun hlt => ?_
    exact hrun.upper_not_mem (hsub ⟨hlow.trans hrun.proper.le, hlt⟩)

/-- **The intervals of a normal list are the maximal runs of its set.** -/
theorem Normal.mem_iff_isRun {l : List (HalfOpen α)} (h : Normal l) {i : HalfOpen α} :
    i ∈ l ↔ IsRun (covers l) i.lower i.upper := by
  refine ⟨h.isRun, fun hr => ?_⟩
  obtain ⟨j, hj, hjl, hju⟩ := hr.subset i.lower (le_refl _) hr.proper
  have hjr := h.isRun hj
  have hlow : j.lower = i.lower := by
    refine le_antisymm hjl (not_lt.mp fun hlt => ?_)
    obtain ⟨x, hx1, hx2, hx3⟩ := hr.lower_maximal j.lower hlt
    exact hx3 (hjr.subset x hx1 (hx2.trans hju))
  have hup : j.upper = i.upper := by
    refine le_antisymm (not_lt.mp fun hlt => ?_) (not_lt.mp fun hlt => ?_)
    · exact hr.upper_not_mem (hjr.subset i.upper (hjl.trans hr.proper.le) hlt)
    · exact hjr.upper_not_mem (hr.subset j.upper hju.le hlt)
  rw [← HalfOpen.ext hlow hup]
  exact hj

/-! ## Cutting removed intervals out of one interval -/

/-- The separations a gap between two bounds can have: `<` and `≤`. -/
structure GapRel (rel : α → α → Prop) : Prop where
  of_lt : ∀ {a b}, a < b → rel a b
  trans_le : ∀ {a b c}, rel a b → b ≤ c → rel a c
  le : ∀ {a b}, rel a b → a ≤ b

theorem gapRel_lt : GapRel (fun a b : α => a < b) := ⟨id, lt_of_lt_of_le, le_of_lt⟩

theorem gapRel_le : GapRel (fun a b : α => a ≤ b) := ⟨le_of_lt, le_trans, id⟩

/-- Proper, or empty at the top of the order. -/
theorem gapRel_lt_or_top : GapRel (fun a b : α => a < b ∨ (a = b ∧ IsTop a)) where
  of_lt := Or.inl
  trans_le := by
    rintro a b c (hlt | ⟨rfl, htop⟩) hle
    · exact Or.inl (hlt.trans_le hle)
    · exact Or.inr ⟨hle.antisymm (htop c), htop⟩
  le := fun h => h.elim le_of_lt fun h => h.1.le

/-- `pieces` is what is left of `cur` once the removed intervals are cut
out: proper intervals inside `cur`, in order, `rel` apart. -/
structure Cut (rel : α → α → Prop) (cur : HalfOpen α) (removed pieces : List (HalfOpen α)) :
    Prop where
  proper : AllProper pieces
  separated : Separated rel pieces
  mem_iff : ∀ v, v ∈ covers pieces ↔ v ∈ cur.toSet ∧ v ∉ covers removed
  lower_le : ∀ p ∈ pieces, cur.lower ≤ p.lower
  upper_le : ∀ p ∈ pieces, p.upper ≤ cur.upper

/-- Nothing is left of an interval inside the first removed one. -/
theorem Cut.none {rel : α → α → Prop} {cur r : HalfOpen α} {rest : List (HalfOpen α)}
    (hl : r.lower ≤ cur.lower) (hu : cur.upper ≤ r.upper) : Cut rel cur (r :: rest) [] where
  proper := fun _ hp => (List.not_mem_nil hp).elim
  separated := List.Pairwise.nil
  mem_iff := by
    intro v
    simp only [covers_nil, Set.mem_empty_iff_false, false_iff, not_and, not_not]
    rintro ⟨hv1, hv2⟩
    exact mem_covers_cons.mpr (Or.inl ⟨hl.trans hv1, hv2.trans_le hu⟩)
  lower_le := fun _ hp => (List.not_mem_nil hp).elim
  upper_le := fun _ hp => (List.not_mem_nil hp).elim

/-- Nothing is left of an empty interval. -/
theorem Cut.of_empty {rel : α → α → Prop} {cur : HalfOpen α} (he : cur.lower = cur.upper)
    (removed : List (HalfOpen α)) : Cut rel cur removed [] where
  proper := fun _ hp => (List.not_mem_nil hp).elim
  separated := List.Pairwise.nil
  mem_iff := by
    intro v
    simp only [covers_nil, Set.mem_empty_iff_false, false_iff, mem_toSet, he]
    exact fun hv => not_lt.mpr hv.1.1 hv.1.2
  lower_le := fun _ hp => (List.not_mem_nil hp).elim
  upper_le := fun _ hp => (List.not_mem_nil hp).elim

/-- All of the interval is left when no removed one meets it. -/
theorem Cut.whole {rel : α → α → Prop} {cur : HalfOpen α} {removed : List (HalfOpen α)}
    (hp : cur.Proper) (hr : ∀ r ∈ removed, cur.upper ≤ r.lower ∨ r.upper ≤ cur.lower) :
    Cut rel cur removed [cur] where
  proper := by
    intro p hmem
    rw [List.mem_singleton] at hmem
    rw [hmem]; exact hp
  separated := List.pairwise_singleton _ _
  mem_iff := by
    intro v
    simp only [mem_covers_cons, covers_nil, Set.mem_empty_iff_false, or_false, mem_toSet]
    refine ⟨fun hv => ⟨hv, ?_⟩, fun hv => hv.1⟩
    rintro ⟨r, hmem, hrl, hru⟩
    rcases hr r hmem with h | h
    · exact not_lt.mpr (h.trans hrl) hv.2
    · exact not_lt.mpr (h.trans hv.1) hru
  lower_le := by
    intro p hmem
    rw [List.mem_singleton] at hmem
    rw [hmem]
  upper_le := by
    intro p hmem
    rw [List.mem_singleton] at hmem
    rw [hmem]

/-- A removed interval over the lower bound trims it. -/
theorem Cut.trimLower {rel : α → α → Prop} {cur r : HalfOpen α}
    {rest pieces : List (HalfOpen α)} (hl : r.lower ≤ cur.lower) (hu : cur.lower ≤ r.upper)
    (h : Cut rel ⟨r.upper, cur.upper⟩ rest pieces) : Cut rel cur (r :: rest) pieces where
  proper := h.proper
  separated := h.separated
  mem_iff := by
    intro v
    rw [h.mem_iff, mem_toSet, mem_toSet, mem_covers_cons, not_or, not_and]
    constructor
    · rintro ⟨⟨hv1, hv2⟩, hv3⟩
      exact ⟨⟨hu.trans hv1, hv2⟩, fun _ => not_lt.mpr hv1, hv3⟩
    · rintro ⟨⟨hv1, hv2⟩, hv3, hv4⟩
      exact ⟨⟨not_lt.mp (hv3 (hl.trans hv1)), hv2⟩, hv4⟩
  lower_le := fun p hp => hu.trans (h.lower_le p hp)
  upper_le := h.upper_le

/-- A removed interval over the upper bound trims it, and those that
follow are beyond. -/
theorem Cut.trimUpper {rel : α → α → Prop} {cur r : HalfOpen α} {rest : List (HalfOpen α)}
    (hl : cur.lower < r.lower) (hin : r.lower ≤ cur.upper) (hu : cur.upper ≤ r.upper)
    (hrest : ∀ q ∈ rest, r.lower ≤ q.lower) :
    Cut rel cur (r :: rest) [⟨cur.lower, r.lower⟩] where
  proper := by
    intro p hmem
    rw [List.mem_singleton] at hmem
    rw [hmem]; exact hl
  separated := List.pairwise_singleton _ _
  mem_iff := by
    intro v
    simp only [mem_covers_cons, covers_nil, Set.mem_empty_iff_false, or_false, mem_toSet]
    constructor
    · rintro ⟨hv1, hv2⟩
      refine ⟨⟨hv1, hv2.trans_le hin⟩, ?_⟩
      rintro (⟨hv3, _⟩ | ⟨q, hq, hql, _⟩)
      · exact not_lt.mpr hv3 hv2
      · exact not_lt.mpr ((hrest q hq).trans hql) hv2
    · rintro ⟨⟨hv1, hv2⟩, hv3⟩
      refine ⟨hv1, not_le.mp fun hle => hv3 (Or.inl ⟨hle, hv2.trans_le hu⟩)⟩
  lower_le := by
    intro p hmem
    rw [List.mem_singleton] at hmem
    rw [hmem]
  upper_le := by
    intro p hmem
    rw [List.mem_singleton] at hmem
    rw [hmem]; exact hin

/-- Removed intervals below the interval change nothing. -/
theorem Cut.skip {rel : α → α → Prop} {cur : HalfOpen α} {below removed pieces : List (HalfOpen α)}
    (hb : ∀ r ∈ below, r.upper ≤ cur.lower) (h : Cut rel cur removed pieces) :
    Cut rel cur (below ++ removed) pieces where
  proper := h.proper
  separated := h.separated
  mem_iff := by
    intro v
    rw [h.mem_iff, covers_append, Set.mem_union, not_or]
    constructor
    · intro ⟨hv, hr⟩
      refine ⟨hv, fun ⟨r, hmem, _, hru⟩ => ?_, hr⟩
      exact not_lt.mpr ((hb r hmem).trans hv.1) hru
    · exact fun ⟨hv, _, hr⟩ => ⟨hv, hr⟩
  lower_le := h.lower_le
  upper_le := h.upper_le

/-- A removed interval inside splits off the piece below it. -/
theorem Cut.split {rel : α → α → Prop} (hrel : GapRel rel) {cur r : HalfOpen α}
    {rest pieces : List (HalfOpen α)} (hl : cur.lower < r.lower) (hr : r.lower ≤ r.upper)
    (hu : r.upper ≤ cur.upper) (hgap : rel r.lower r.upper)
    (hrest : ∀ q ∈ rest, r.upper < q.lower)
    (h : Cut rel ⟨r.upper, cur.upper⟩ rest pieces) :
    Cut rel cur (r :: rest) (⟨cur.lower, r.lower⟩ :: pieces) where
  proper := by
    intro p hp
    rcases List.mem_cons.mp hp with rfl | hp
    · exact hl
    · exact h.proper p hp
  separated :=
    List.pairwise_cons.mpr
      ⟨fun p hp => hrel.trans_le hgap (h.lower_le p hp), h.separated⟩
  mem_iff := by
    intro v
    rw [mem_covers_cons, h.mem_iff, mem_toSet, mem_toSet, mem_covers_cons, not_or, not_and]
    constructor
    · rintro (⟨hv1, hv2⟩ | ⟨⟨hv1, hv2⟩, hv3⟩)
      · -- below the removed interval, hence below all that follow it
        refine ⟨⟨hv1, hv2.trans_le (hr.trans hu)⟩, fun hle => (not_lt.mpr hle hv2).elim, ?_⟩
        rintro ⟨q, hq, hql, _⟩
        exact not_lt.mpr hql (hv2.trans_le (hr.trans (hrest q hq).le))
      · exact ⟨⟨hl.le.trans (hr.trans hv1), hv2⟩, fun _ => not_lt.mpr hv1, hv3⟩
    · rintro ⟨⟨hv1, hv2⟩, hv3, hv4⟩
      rcases lt_or_ge v r.lower with hlt | hge
      · exact Or.inl ⟨hv1, hlt⟩
      · exact Or.inr ⟨⟨not_lt.mp (hv3 hge), hv2⟩, hv4⟩
  lower_le := by
    intro p hp
    rcases List.mem_cons.mp hp with rfl | hp
    · exact le_refl _
    · exact hl.le.trans (hr.trans (h.lower_le p hp))
  upper_le := by
    intro p hp
    rcases List.mem_cons.mp hp with rfl | hp
    · exact hr.trans hu
    · exact h.upper_le p hp

end HalfOpen
