/-
Leeloo.IpRuns — sequences of additions and removals made through the IP
level of `ip_list_intervals`, and what an `aggregate` makes of them.

The parser puts the ends of a range and the two bytes of a field in order,
so every way in queues closed pairs `a ≤ b` (`parseIps_closed`). Such a
pair is stored as a non-empty interval, with one exception: the pair of
255.255.255.255 with itself becomes `[0xFFFFFFFF, 0xFFFFFFFF)`, which
`add(uint32_t)` refuses to store and the other ways in do not.

The two ways through `aggregate` treat that interval differently. The
merge keeps it unless a stored interval ends where it begins; the
subtraction of a removal drops it whatever is removed.
-/
import Leeloo.AggregateTheorems
import Leeloo.BlockRange

namespace Leeloo

open HalfOpen
open IpListIntervals (appended closedEnd)

/-- 255.255.255.255, the address closed pairs leave out. -/
def lastIp : BitVec 32 := 0xFFFFFFFF

theorem isTop_lastIp : IsTop lastIp := by
  intro v
  have hv := v.isLt
  show v.toNat ≤ lastIp.toNat
  rw [show lastIp.toNat = 2 ^ 32 - 1 from rfl]
  exact Nat.le_sub_one_of_lt hv

theorem isTop_iff {v : BitVec 32} : IsTop v ↔ v = lastIp :=
  ⟨fun h => le_antisymm (isTop_lastIp v) (h lastIp), fun h => h ▸ isTop_lastIp⟩

/-! ## The calls -/

/-- An addition or a removal of the IP level. -/
inductive IpCall where
  /-- `add(uint32_t)`. -/
  | addIp (a : BitVec 32)
  /-- `remove(uint32_t)`. -/
  | removeIp (a : BitVec 32)
  /-- `add(uint32_t, uint32_t)`. -/
  | addPair (a b : BitVec 32)
  /-- `remove(uint32_t, uint32_t)`. -/
  | removePair (a b : BitVec 32)
  /-- `add(const char*)`. -/
  | addText (str : CString)
  /-- `remove(const char*)`. -/
  | removeText (str : CString)

namespace IpCall

/-- A closed pair has its ends in order. -/
def Ordered : IpCall → Prop
  | addPair a b => a ≤ b
  | removePair a b => a ≤ b
  | _ => True

instance : DecidablePred Ordered
  | addPair a b => inferInstanceAs (Decidable (a ≤ b))
  | removePair a b => inferInstanceAs (Decidable (a ≤ b))
  | addIp _ => isTrue trivial
  | removeIp _ => isTrue trivial
  | addText _ => isTrue trivial
  | removeText _ => isTrue trivial

/-- The effect of a call. A rejected string leaves the list as it is; `none`
is a parser that reads outside its string or shifts by a negative count. -/
def step (l : IpListIntervals) : IpCall → Option IpListIntervals
  | addIp a => some (IpListIntervals.addIp l a)
  | removeIp a => some (IpListIntervals.removeIp l a)
  | addPair a b => some (IpListIntervals.add l a b)
  | removePair a b => some (IpListIntervals.remove l a b)
  | addText str => (IpsParser.parseIpsAdd l str).map (·.2)
  | removeText str => (IpsParser.parseIpsRemove l str).map (·.2)

end IpCall

/-- A sequence of calls. -/
def runIp (l : IpListIntervals) (calls : List IpCall) : Option IpListIntervals :=
  calls.foldlM IpCall.step l

/-! ## Closed pairs -/

/-- The interval of a closed pair. -/
def IsClosedPair (i : Interval 32) : Prop := ∃ a b, a ≤ b ∧ i = ⟨a, closedEnd b⟩

/-- A closed pair is stored as a non-empty interval, or as the empty one at
the last address. -/
theorem IsClosedPair.proper_or_top {i : Interval 32} (h : IsClosedPair i) :
    i.lower < i.upper ∨ (i.lower = i.upper ∧ IsTop i.lower) := by
  obtain ⟨a, b, hab, rfl⟩ := h
  by_cases hb : b = lastIp
  · have hend : closedEnd b = lastIp := by rw [hb]; rfl
    obtain hlt | heq := lt_or_eq_of_le hab
    · exact Or.inl (by rw [hend, ← hb]; exact hlt)
    · exact Or.inr ⟨by rw [hend, ← hb, heq], by rw [heq, hb]; exact isTop_lastIp⟩
  · have hmem : b ∈ (⟨a, closedEnd b⟩ : Interval 32).toSet :=
      IpListIntervals.mem_closed_iff.mpr ⟨hab, le_refl b, hb⟩
    exact Or.inl (hmem.1.trans_lt hmem.2)

theorem isClosedPair_cidrInterval (baseIp : BitVec 32) (p : Nat) :
    IsClosedPair (IpListIntervals.cidrInterval baseIp p) := by
  refine ⟨_, _, ?_, rfl⟩
  simp only [BitVec.le_def, BitVec.toNat_and, BitVec.toNat_or]
  exact Nat.and_le_left.trans Nat.left_le_or

theorem isClosedPair_rangeInterval (ends : BitVec 32 × BitVec 32) :
    IsClosedPair (IpsParser.rangeInterval ends) :=
  ⟨_, _, min_le_max, rfl⟩

namespace IpsParser

theorem ByteInterval.set_min_le (m n : BitVec 8) : (set m n).min ≤ (set m n).max := by
  unfold set
  split
  · rename_i h; exact le_of_lt h
  · rename_i h; exact not_lt.mp h

/-- The bytes of a field are in order. -/
theorem fieldBytes_min_le {f : List Char} {i : ByteInterval} (h : fieldBytes f = some i) :
    i.min ≤ i.max := by
  unfold fieldBytes at h
  split at h
  · obtain ⟨n, _, rfl⟩ := Option.map_eq_some_iff.mp h
    exact ByteInterval.set_min_le _ _
  · obtain ⟨m, _, h⟩ := Option.bind_eq_some_iff.mp h
    obtain ⟨n, _, rfl⟩ := Option.map_eq_some_iff.mp h
    exact ByteInterval.set_min_le _ _
  · cases h

theorem mem_values {i : ByteInterval} {x : BitVec 32} (h : x ∈ i.values) :
    ∃ n, n ≤ 255 ∧ x = BitVec.ofNat 32 n := by
  have hmax := i.max.isLt
  obtain ⟨n, hn, rfl⟩ := List.mem_map.mp h
  obtain ⟨_, hlt⟩ := List.mem_range'_1.mp hn
  exact ⟨n, by omega, rfl⟩

theorem isClosedPair_blockIntervals {i0 i1 i2 i3 : ByteInterval} (h : i3.min ≤ i3.max)
    {i : Interval 32} (hi : i ∈ blockIntervals i0 i1 i2 i3) : IsClosedPair i := by
  simp only [blockIntervals, List.mem_flatMap, List.mem_map] at hi
  obtain ⟨x, hx, y, hy, z, hz, rfl⟩ := hi
  obtain ⟨a, ha, rfl⟩ := mem_values hx
  obtain ⟨b, hb, rfl⟩ := mem_values hy
  obtain ⟨c, hc, rfl⟩ := mem_values hz
  have hmin : i3.min.toNat ≤ 255 := Nat.le_of_lt_succ i3.min.isLt
  have hmax : i3.max.toNat ≤ 255 := Nat.le_of_lt_succ i3.max.isLt
  refine ⟨_, _, ?_, rfl⟩
  rw [← BitVec.ofNat_toNat, ← BitVec.ofNat_toNat, ipBase_or hb hc hmin, ipBase_or hb hc hmax,
    BitVec.le_def, toNat_quad ha hb hc hmin, toNat_quad ha hb hc hmax]
  exact Nat.add_le_add_left h _

/-! ## What the parser queues -/

/-- A result that queues closed pairs behind the list. -/
def QueuesClosed (exclude : Bool) (l l' : IpListIntervals) : Prop :=
  ∃ ivs, l' = appended exclude l ivs ∧ ∀ i ∈ ivs, IsClosedPair i

theorem queuesClosed_self (exclude : Bool) (l : IpListIntervals) : QueuesClosed exclude l l :=
  ⟨[], (IpListIntervals.appended_nil exclude l).symm, fun _ hi => (List.not_mem_nil hi).elim⟩

theorem queuesClosed_one (exclude : Bool) (l : IpListIntervals) {i : Interval 32}
    (h : IsClosedPair i) : QueuesClosed exclude l (appended exclude l [i]) :=
  ⟨[i], rfl, fun _ hj => List.mem_singleton.mp hj ▸ h⟩

/-- A refused string leaves the list as it was. -/
theorem QueuesClosed.of_refused {exclude b ok : Bool} {l l' : IpListIntervals}
    (h : some (b, l) = some (ok, l')) : QueuesClosed exclude l l' := by
  rw [Option.some.injEq, Prod.mk.injEq] at h
  exact h.2 ▸ queuesClosed_self exclude l

/-- An accepted string queues its intervals. -/
theorem QueuesClosed.of_accepted {exclude b ok : Bool} {l l' : IpListIntervals}
    {ivs : List (Interval 32)} (h : some (b, appended exclude l ivs) = some (ok, l'))
    (hivs : ∀ i ∈ ivs, IsClosedPair i) : QueuesClosed exclude l l' := by
  rw [Option.some.injEq, Prod.mk.injEq] at h
  exact ⟨ivs, h.2.symm, hivs⟩

theorem QueuesClosed.of_one {exclude b ok : Bool} {l l' : IpListIntervals} {i : Interval 32}
    (h : some (b, appended exclude l [i]) = some (ok, l')) (hi : IsClosedPair i) :
    QueuesClosed exclude l l' :=
  QueuesClosed.of_accepted h fun _ hj => List.mem_singleton.mp hj ▸ hi

/-- A field that cannot be read refuses the string. -/
theorem QueuesClosed.of_elim {α : Type} {exclude ok : Bool} {l l' : IpListIntervals}
    {o : Option α} {f : α → Option (Bool × IpListIntervals)}
    (h : o.elim (some (false, l)) f = some (ok, l'))
    (hf : ∀ a, o = some a → f a = some (ok, l') → QueuesClosed exclude l l') :
    QueuesClosed exclude l l' := by
  cases o with
  | none => exact QueuesClosed.of_refused h
  | some a => exact hf a rfl h

theorem parseRange_closed {exclude ok : Bool} {l l' : IpListIntervals} {str : CString}
    (hdash : '-' ∈ str.chars) (h : parseRange exclude l str = some (ok, l')) :
    QueuesClosed exclude l l' := by
  obtain ⟨t, u, hstr, ht⟩ := List.eq_append_cons_of_mem hdash
  rw [parseRange_text exclude l hstr ht] at h
  cases hends : rangeEnds t u with
  | none =>
    rw [hends] at h
    exact QueuesClosed.of_refused h
  | some ends =>
    rw [hends] at h
    exact QueuesClosed.of_one h (isClosedPair_rangeInterval ends)

theorem parseCidr_closed {exclude ok : Bool} {l l' : IpListIntervals} {str : CString}
    (h : parseCidr exclude l str = some (ok, l')) : QueuesClosed exclude l l' := by
  by_cases hslash : '/' ∈ str.chars
  · obtain ⟨t, u, hstr, ht⟩ := List.eq_append_cons_of_mem hslash
    rw [parseCidr_text exclude l hstr ht] at h
    by_cases hneg : cidrOf u < 0
    · rw [if_pos hneg] at h
      exact QueuesClosed.of_refused h
    · rw [if_neg hneg] at h
      cases hip : dotted 0 t with
      | none =>
        rw [hip] at h
        exact QueuesClosed.of_refused h
      | some ip =>
        simp only [hip] at h
        obtain ⟨p, hp⟩ : ∃ p : Nat, cidrOf u = p := ⟨(cidrOf u).toNat, by omega⟩
        rw [hp] at h
        by_cases hle : p ≤ 32
        · rw [IpListIntervals.insertCidr_of_le exclude l ip hle, Option.map_some] at h
          exact QueuesClosed.of_one h (isClosedPair_cidrInterval ip p)
        · -- the shift by a negative count
          have hmask : IpListIntervals.cidr2mask p = none := by
            rw [IpListIntervals.cidr2mask, if_neg (by omega), if_neg (by omega)]
          simp [IpListIntervals.insertCidr, hmask] at h
  · simp only [parseCidr, CString.strchr_eq_none hslash] at h
    exact QueuesClosed.of_refused h

theorem parseBlocks_closed {exclude ok : Bool} {l l' : IpListIntervals} {str : CString}
    (h : parseBlocks exclude l str = some (ok, l')) : QueuesClosed exclude l l' := by
  by_cases hlen : (str.chars.splitOn '.').length = 4
  · obtain ⟨f0, f1, f2, f3, hsplit⟩ := List.length_eq_four.mp hlen
    rw [parseBlocks_four hsplit, blocksOf] at h
    refine QueuesClosed.of_elim h fun i0 _ h => ?_
    refine QueuesClosed.of_elim h fun i1 _ h => ?_
    refine QueuesClosed.of_elim h fun i2 _ h => ?_
    split_ifs at h
    refine QueuesClosed.of_elim h fun i3 h3 h => ?_
    exact QueuesClosed.of_accepted h
      fun i hi => isClosedPair_blockIntervals (fieldBytes_min_le h3) hi
  · rw [parseBlocks_of_length_ne hlen] at h
    exact QueuesClosed.of_refused h

/-- **Every string queues closed pairs, its ends in order.** -/
theorem parseIps_closed {exclude ok : Bool} {l l' : IpListIntervals} {str : CString}
    (h : parseIps exclude l str = some (ok, l')) : QueuesClosed exclude l l' := by
  rw [parseIps_eq] at h
  split_ifs at h with hone hdash hslash hmany hcidr
  · cases hip : dotted 3 str.chars with
    | none =>
      rw [hip] at h
      exact QueuesClosed.of_refused h
    | some ip =>
      rw [hip] at h
      exact QueuesClosed.of_one h ⟨ip, ip, le_refl ip, rfl⟩
  · exact QueuesClosed.of_refused h
  · exact parseRange_closed (List.count_pos_iff.mp (by omega)) h
  · exact QueuesClosed.of_refused h
  · exact parseCidr_closed h
  · exact parseBlocks_closed h

end IpsParser

/-! ## Runs -/

/-- Both vectors hold closed pairs. -/
structure ClosedPending (l : IpListIntervals) : Prop where
  intervals : ∀ i ∈ l.intervals, IsClosedPair i
  removed : ∀ i ∈ l.removedIntervals, IsClosedPair i

theorem closedPending_nil : ClosedPending {} :=
  ⟨fun _ hi => (List.not_mem_nil hi).elim, fun _ hi => (List.not_mem_nil hi).elim⟩

theorem ClosedPending.of_queues {l l' : IpListIntervals} {exclude : Bool} (hl : ClosedPending l)
    (h : IpsParser.QueuesClosed exclude l l') : ClosedPending l' := by
  obtain ⟨ivs, rfl, hivs⟩ := h
  have hboth : ∀ {u : List (Interval 32)}, (∀ i ∈ u, IsClosedPair i) →
      ∀ i ∈ u ++ ivs, IsClosedPair i := fun hu i hi =>
    (List.mem_append.mp hi).elim (hu i) (hivs i)
  cases exclude with
  | false => exact ⟨hboth hl.intervals, hl.removed⟩
  | true => exact ⟨hl.intervals, hboth hl.removed⟩

/-- A single address is stored as a closed pair, or not at all. -/
theorem isClosedPair_single {a : BitVec 32} (h : a ≠ lastIp) : IsClosedPair ⟨a, a + 1⟩ := by
  have hend : closedEnd a = a + 1 := if_pos h
  exact ⟨a, a, le_refl a, by rw [hend]⟩

/-- What one call queues. -/
theorem IpCall.step_closed {l l' : IpListIntervals} {c : IpCall} (hc : c.Ordered)
    (h : c.step l = some l') : ∃ exclude, IpsParser.QueuesClosed exclude l l' := by
  cases c with
  | addIp a =>
    refine ⟨false, ?_⟩
    rw [← Option.some.inj h, IpListIntervals.addIp]
    split
    · rename_i ha
      exact IpsParser.queuesClosed_one false l (isClosedPair_single ha)
    · exact IpsParser.queuesClosed_self false l
  | removeIp a =>
    refine ⟨true, ?_⟩
    rw [← Option.some.inj h, IpListIntervals.removeIp]
    split
    · rename_i ha
      exact IpsParser.queuesClosed_one true l (isClosedPair_single ha)
    · exact IpsParser.queuesClosed_self true l
  | addPair a b =>
    exact ⟨false, Option.some.inj h ▸ IpsParser.queuesClosed_one false l ⟨a, b, hc, rfl⟩⟩
  | removePair a b =>
    exact ⟨true, Option.some.inj h ▸ IpsParser.queuesClosed_one true l ⟨a, b, hc, rfl⟩⟩
  | addText str =>
    obtain ⟨⟨ok, _⟩, hparse, rfl⟩ := Option.map_eq_some_iff.mp h
    exact ⟨false, IpsParser.parseIps_closed hparse⟩
  | removeText str =>
    obtain ⟨⟨ok, _⟩, hparse, rfl⟩ := Option.map_eq_some_iff.mp h
    exact ⟨true, IpsParser.parseIps_closed hparse⟩

/-- **Every sequence of calls leaves closed pairs in both vectors.** -/
theorem runIp_closedPending {l l' : IpListIntervals} {calls : List IpCall}
    (hl : ClosedPending l) (hc : ∀ c ∈ calls, c.Ordered) (h : runIp l calls = some l') :
    ClosedPending l' := by
  induction calls generalizing l with
  | nil => exact Option.some.inj h ▸ hl
  | cons c calls ih =>
    rw [runIp, List.foldlM_cons] at h
    obtain ⟨m, hm, hrest⟩ := Option.bind_eq_some_iff.mp h
    obtain ⟨exclude, hq⟩ := IpCall.step_closed (hc c List.mem_cons_self) hm
    exact ih (hl.of_queues hq) (fun d hd => hc d (List.mem_cons_of_mem _ hd)) hrest

/-! ## The empty interval at the last address -/

/-- No proper interval ends at `t`. -/
def EmptyAt {w : Nat} (t : BitVec w) (i : Interval w) : Prop := i.upper = t → i.lower = t

instance {w : Nat} (t : BitVec w) (i : Interval w) : Decidable (EmptyAt t i) :=
  inferInstanceAs (Decidable (_ → _))

/-- `aggregate` will find the empty interval at the last address, no proper
interval that ends there, and no removal. -/
structure KeepsEmptyLast (l : IpListIntervals) : Prop where
  noRemoval : l.removedIntervals = []
  stored : ⟨lastIp, lastIp⟩ ∈ l.intervals
  alone : ∀ i ∈ l.intervals, EmptyAt lastIp i

section Top

variable {w : Nat} {t : BitVec w} {a b : Interval w} {ints : List (Interval w)}

/-- What overlaps an interval that is empty at the top is empty there. -/
theorem lower_eq_of_overlap (htop : IsTop t) (hov : Interval.overlap a b = true)
    (ha : a.lower = t ∧ a.upper = t) (hb : EmptyAt t b) : b.lower = t := by
  obtain ⟨hle, _⟩ | ⟨_, hle⟩ := Interval.overlap_iff.mp hov
  · rw [ha.1] at hle
    exact le_antisymm (htop _) hle
  · rw [ha.1] at hle
    exact hb (le_antisymm (htop _) hle)

theorem overlap_comm (a b : Interval w) : Interval.overlap a b = Interval.overlap b a :=
  Bool.or_comm _ _

/-- Of intervals that are empty at the top, the hull is too. -/
theorem emptyAt_hull (htop : IsTop t) (hov : Interval.overlap a b = true) (ha : EmptyAt t a)
    (hb : EmptyAt t b) : EmptyAt t (Interval.hull a b) := by
  intro h
  have hboth : a.lower = t ∧ b.lower = t := by
    obtain hmax | hmax := max_choice a.upper b.upper
    · have hup : a.upper = t := by rw [← hmax]; exact h
      exact ⟨ha hup, lower_eq_of_overlap htop hov ⟨ha hup, hup⟩ hb⟩
    · have hup : b.upper = t := by rw [← hmax]; exact h
      exact ⟨lower_eq_of_overlap htop (overlap_comm a b ▸ hov) ⟨hb hup, hup⟩ ha, hb hup⟩
  rw [Interval.hull, hboth.1, hboth.2, min_self]

/-- The merge keeps the empty interval at the top exactly when no proper
interval ends there. -/
theorem empty_mem_aggregateContainer_iff (sort : ParallelSort w) (htop : IsTop t)
    (hints : ∀ i ∈ ints, i.lower < i.upper ∨ (i.lower = i.upper ∧ IsTop i.lower)) :
    ⟨t, t⟩ ∈ aggregateContainer sort ints ↔ ⟨t, t⟩ ∈ ints ∧ ∀ i ∈ ints, EmptyAt t i := by
  constructor
  · intro hmem
    constructor
    · -- a merged interval has the lower bound of a stored one
      obtain ⟨i, hi, hlow⟩ := aggregateContainer_forall
        (P := fun o => ∃ i ∈ ints, i.lower = o.lower)
        (fun a b _ ha hb => by
          simp only [Interval.hull]
          rcases min_choice a.lower b.lower with hmin | hmin
          · rw [hmin]; exact ha
          · rw [hmin]; exact hb) sort (fun i hi => ⟨i, hi, rfl⟩) _ hmem
      have hlow : i.lower = t := hlow
      have hup : i.upper = t := by
        obtain hlt | ⟨heq, _⟩ := hints i hi
        · rw [hlow] at hlt
          exact absurd (htop i.upper) (not_le.mpr hlt)
        · rw [← heq, hlow]
      rwa [show i = ⟨t, t⟩ from HalfOpen.ext hlow hup] at hi
    · intro i hi hup
      obtain ⟨o, ho, hlow, hupper⟩ := exists_within_aggregateContainer sort hi
      rw [hup] at hupper
      obtain heq | hlt | hlt := (separated_aggregateContainer sort ints).of_mem hmem ho
      · rw [← heq] at hlow
        exact le_antisymm (htop _) hlow
      · exact absurd (htop o.lower) (not_le.mpr hlt)
      · exact absurd hupper (not_le.mpr hlt)
  · rintro ⟨hmem, hempty⟩
    obtain ⟨o, ho, hlow, hupper⟩ := exists_within_aggregateContainer sort hmem
    have hup : o.upper = t := le_antisymm (htop _) hupper
    have hlow : o.lower = t :=
      aggregateContainer_forall (fun _ _ hov => emptyAt_hull htop hov) sort hempty o ho hup
    rwa [show o = ⟨t, t⟩ from HalfOpen.ext hlow hup] at ho

end Top

/-- **What `aggregate` stores after a sequence of calls is non-empty,
unless the list keeps the empty interval at the last address.** -/
theorem allProper_aggregate_iff {l : IpListIntervals} (hl : ClosedPending l) (sorts : Sorts 32) :
    AllProper (l.aggregate sorts).intervals ↔ ¬ KeepsEmptyLast l := by
  have hints := fun i hi => (hl.intervals i hi).proper_or_top
  by_cases hq : l.removedIntervals = []
  · have hkeeps : KeepsEmptyLast l ↔
        ⟨lastIp, lastIp⟩ ∈ aggregateContainer sorts.stored l.intervals := by
      rw [empty_mem_aggregateContainer_iff sorts.stored isTop_lastIp hints]
      exact ⟨fun h => ⟨h.stored, h.alone⟩, fun h => ⟨hq, h.1, h.2⟩⟩
    rw [ListIntervals.aggregate_intervals_of_or sorts (Or.inl hq), hkeeps]
    constructor
    · intro hp hmem
      exact lt_irrefl _ (hp _ hmem)
    · intro hno o ho
      obtain hlt | ⟨heq, htop⟩ := bounds_aggregateContainer gapRel_lt_or_top sorts.stored hints o ho
      · exact hlt
      · have hlow : o.lower = lastIp := isTop_iff.mp htop
        have ho' : o = ⟨lastIp, lastIp⟩ := HalfOpen.ext hlow (heq ▸ hlow)
        exact absurd (ho' ▸ ho) hno
  · have hsw := ListIntervals.aggregate_swept_of_queue gapRel_lt_or_top sorts l
      (fun i hi => gapRel_lt_or_top.le (hints i hi))
      (fun i hi => (hl.removed i hi).proper_or_top) hq
    exact iff_of_true hsw.proper fun h => hq h.noRemoval

theorem normal_aggregate_of_run {l : IpListIntervals} (hl : ClosedPending l) (sorts : Sorts 32)
    (hkeeps : ¬ KeepsEmptyLast l) : Normal (l.aggregate sorts).intervals where
  proper := (allProper_aggregate_iff hl sorts).mpr hkeeps
  separated := by
    by_cases hq : l.removedIntervals = []
    · rw [ListIntervals.aggregate_intervals_of_or sorts (Or.inl hq)]
      exact separated_aggregateContainer _ _
    · have hsw := ListIntervals.aggregate_swept_of_queue gapRel_lt_or_top sorts l
        (fun i hi => gapRel_lt_or_top.le (hl.intervals i hi).proper_or_top)
        (fun i hi => (hl.removed i hi).proper_or_top) hq
      -- a piece that starts at the top would be empty
      refine hsw.separated.imp_of_mem fun {i j} _ hj hgap => hgap.resolve_right fun h => ?_
      exact absurd (h.2 j.upper) (not_le.mpr (h.1 ▸ hsw.proper j hj))

/-! ## Canonical lists -/

/-- Both lists store non-empty intervals only, and `operator==` tells
whether they hold the same addresses. -/
def Canonical (l l' : IpListIntervals) : Prop :=
  AllProper l.intervals ∧ AllProper l'.intervals ∧
    (l.opEq l' = true ↔ covers l.intervals = covers l'.intervals)

/-- **When aggregated IP lists are canonical.** After any two sequences of
calls, the two aggregated lists store non-empty intervals and compare as
their addresses do exactly when neither list keeps the empty interval at
the last address. -/
theorem ip_aggregate_canonical_iff (calls calls' : List IpCall) {l l' : IpListIntervals}
    (sorts sorts' : Sorts 32) (hc : ∀ c ∈ calls, c.Ordered) (hc' : ∀ c ∈ calls', c.Ordered)
    (h : runIp {} calls = some l) (h' : runIp {} calls' = some l') :
    Canonical (l.aggregate sorts) (l'.aggregate sorts') ↔
      ¬ KeepsEmptyLast l ∧ ¬ KeepsEmptyLast l' := by
  have hl := runIp_closedPending closedPending_nil hc h
  have hl' := runIp_closedPending closedPending_nil hc' h'
  rw [Canonical, allProper_aggregate_iff hl, allProper_aggregate_iff hl']
  constructor
  · rintro ⟨hk, hk', _⟩
    exact ⟨hk, hk'⟩
  · rintro ⟨hk, hk'⟩
    refine ⟨hk, hk', ListIntervals.opEq_iff.trans ⟨fun heq => by rw [heq], fun hcov => ?_⟩⟩
    exact (normal_aggregate_of_run hl sorts hk).ext (normal_aggregate_of_run hl' sorts' hk') hcov

/-- Two addresses, as a range that leaves out the last address and one by
one with the empty interval between them. -/
theorem ip_aggregate_canonical_pairs :
    Canonical
      (ListIntervals.aggregate (Sorts.insertion 32)
        (IpListIntervals.add {} 0xFFFFFFFD 0xFFFFFFFF))
      (ListIntervals.aggregate (Sorts.insertion 32)
        (IpListIntervals.addIp (IpListIntervals.add (IpListIntervals.addIp {} 0xFFFFFFFE)
          0xFFFFFFFF 0xFFFFFFFF) 0xFFFFFFFD)) :=
  (ip_aggregate_canonical_iff [.addPair 0xFFFFFFFD 0xFFFFFFFF]
    [.addIp 0xFFFFFFFE, .addPair 0xFFFFFFFF 0xFFFFFFFF, .addIp 0xFFFFFFFD]
    (Sorts.insertion 32) (Sorts.insertion 32) (by decide) (by decide) rfl rfl).mpr
    ⟨fun hk => absurd hk.stored (by decide), fun hk => absurd hk.alone (by decide)⟩

/-- The pair of the last address with itself is stored as an empty interval,
and the list differs from the empty one. -/
theorem ip_aggregate_not_canonical :
    runIp {} [.addPair 0xFFFFFFFF 0xFFFFFFFF] =
        some (IpListIntervals.add {} 0xFFFFFFFF 0xFFFFFFFF) ∧
      let l := (IpListIntervals.add {} 0xFFFFFFFF 0xFFFFFFFF).aggregate (Sorts.insertion 32)
      l.intervals = [⟨0xFFFFFFFF, 0xFFFFFFFF⟩] ∧ covers l.intervals = covers [] ∧
        l.opEq (({} : IpListIntervals).aggregate (Sorts.insertion 32)) = false ∧
        ¬ Canonical l (({} : IpListIntervals).aggregate (Sorts.insertion 32)) := by
  refine ⟨rfl, by decide, ?_, by decide, fun h => absurd h.1 (by decide)⟩
  ext v
  simp only [mem_covers, List.not_mem_nil, false_and, exists_false, iff_false]
  rintro ⟨i, hi, hlow, hup⟩
  have hi : i ∈ [(⟨0xFFFFFFFF, 0xFFFFFFFF⟩ : Interval 32)] := hi
  rw [List.mem_singleton.mp hi] at hlow hup
  exact absurd hup (not_lt.mpr hlow)

end Leeloo
