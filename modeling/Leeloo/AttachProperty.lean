/-
Leeloo.AttachProperty — the overloads of `add_property` of
`ip_list_intervals_with_properties.h`.

The overload for an interval hands its two bounds to the overload for a
closed pair, which makes the upper one exclusive by adding 1. The upper
bound of an interval is exclusive already, so the property is attached to
one address more. The overload for a string attaches to the intervals the
parser gives. The three agree when the upper bound is 255.255.255.255,
where the closed pair does not add 1, and not otherwise.
-/
import Leeloo.Display
import Leeloo.PropertyNull

namespace Leeloo

open HalfOpen IpsParser Leeloo.Interval ListIntervalsProperties
open IpListIntervals (appended closedEnd)

variable {P : Type}

namespace IpListIntervalsWithProperties

/-- `add_property(base_type const a, base_type b, property_type const& p)`. -/
def addPropertyRange (l : ListIntervalsProperties 32 32 P) (a b : BitVec 32) (p : P) :
    ListIntervalsProperties 32 32 P :=
  let b := if b ≠ 0xFFFFFFFF then b + 1 else b
  l.addProperty ⟨a, b⟩ p

/-- `add_property(interval_type const& i, property_type const& p)`. -/
def addPropertyInterval (l : ListIntervalsProperties 32 32 P) (i : Interval 32) (p : P) :
    ListIntervalsProperties 32 32 P :=
  addPropertyRange l i.lower i.upper p

/-- `add_property(const char* iprange, property_type const& p)`; the result
of the parser is not looked at. -/
def addPropertyText (l : ListIntervalsProperties 32 32 P) (iprange : CString) (p : P) :
    Option (ListIntervalsProperties 32 32 P) := do
  let (_, list) ← parseIpsAdd {} iprange
  some (list.intervals.foldl (fun l it => l.addProperty it p) l)

end IpListIntervalsWithProperties

/-! ## Strings that denote an interval -/

/-- A string the parser takes completely, written for the addresses from
`l` to `u - 1`. -/
inductive Denotes (str : CString) (l u : BitVec 32) : Prop
  | entry (e : Entry) (htext : str.chars = e.text) (haddr : e.addresses = Set.Ico l u)
  | blocks (r : BlockRange) (hpairs : 0 < r.pairs) (htext : str.chars = r.text)
      (hparsed : r.ParsedCompletely str {}) (haddr : r.addresses = Set.Ico l u)

theorem le_last (v : BitVec 32) : v ≤ 0xFFFFFFFF := by
  bv_omega

/-- The addresses below an exclusive bound do not hold the last one. -/
theorem Ico_sdiff_last (l u : BitVec 32) : Set.Ico l u \ {0xFFFFFFFF} = Set.Ico l u := by
  apply Set.sdiff_singleton_eq_self
  intro h
  exact not_lt.mpr (le_last u) h.2

/-- An interval is known by its addresses. -/
theorem interval_of_toSet {i : Interval 32} {l u : BitVec 32} (hlt : l < u)
    (h : i.toSet = Set.Ico l u) : i = ⟨l, u⟩ := by
  have hproper : i.lower < i.upper := by
    have hl : l ∈ i.toSet := h ▸ ⟨le_refl l, hlt⟩
    exact lt_of_le_of_lt hl.1 hl.2
  have hle := (Set.Ico_subset_Ico_iff hproper).mp h.le
  have hge := (Set.Ico_subset_Ico_iff hlt).mp h.ge
  have hlower : i.lower = l := le_antisymm hge.1 hle.1
  have hupper : i.upper = u := le_antisymm hle.2 hge.2
  rw [← hlower, ← hupper]

namespace Field

theorem values_singleton {f : Field} {k : Nat} (hk : k ∈ f.range) (h : ∀ n ∈ f.range, n = k) :
    f.bytes.values = [BitVec.ofNat 32 k] := by
  have hbounds := (f.bytes_mem_iff k).mpr hk
  have hmin := h _ ((f.bytes_mem_iff _).mp ⟨le_refl _, hbounds.1.trans hbounds.2⟩)
  have hmax := h _ ((f.bytes_mem_iff _).mp ⟨hbounds.1.trans hbounds.2, le_refl _⟩)
  rw [ByteInterval.values, hmin, hmax, Nat.add_sub_cancel_left]
  rfl

end Field

theorem quad_inj {a b c d a' b' c' d' : Nat} (ha : a ≤ 255) (hb : b ≤ 255) (hc : c ≤ 255)
    (hd : d ≤ 255) (ha' : a' ≤ 255) (hb' : b' ≤ 255) (hc' : c' ≤ 255) (hd' : d' ≤ 255)
    (h : quad a b c d = quad a' b' c' d') : a = a' ∧ b = b' ∧ c = c' ∧ d = d' := by
  have hnat := congrArg BitVec.toNat h
  rw [toNat_quad ha hb hc hd, toNat_quad ha' hb' hc' hd'] at hnat
  omega

namespace BlockRange

theorem mem_addresses_iff {r : BlockRange} {a b c d : Nat} (ha : a ≤ 255) (hb : b ≤ 255)
    (hc : c ≤ 255) (hd : d ≤ 255) :
    quad a b c d ∈ r.addresses ↔ a ∈ r.a.range ∧ b ∈ r.b.range ∧ c ∈ r.c.range ∧ d ∈ r.d.range := by
  constructor
  · rintro ⟨a', ha', b', hb', c', hc', d', hd', heq⟩
    obtain ⟨rfl, rfl, rfl, rfl⟩ := quad_inj ha hb hc hd (Field.range_le ha') (Field.range_le hb')
      (Field.range_le hc') (Field.range_le hd') heq
    exact ⟨ha', hb', hc', hd'⟩
  · rintro ⟨hma, hmb, hmc, hmd⟩
    exact ⟨a, hma, b, hmb, c, hmc, d, hmd, rfl⟩

/-- A block range that reaches the last address but one without a hole has
255 alone in its first three fields: any other choice of them would leave
out the address that ends with 255. -/
theorem range_of_last {r : BlockRange} {l : BitVec 32} (hlt : l < 0xFFFFFFFF)
    (h : r.addresses = Set.Ico l 0xFFFFFFFF) :
    (255 ∈ r.a.range ∧ 255 ∈ r.b.range ∧ 255 ∈ r.c.range) ∧
      ∀ x ∈ r.a.range, ∀ y ∈ r.b.range, ∀ z ∈ r.c.range, x = 255 ∧ y = 255 ∧ z = 255 := by
  have hlast : quad 255 255 255 255 = 0xFFFFFFFF := by decide
  have hbefore : quad 255 255 255 254 ∈ r.addresses := by
    have hdec : quad 255 255 255 254 = 0xFFFFFFFE := by decide
    rw [h, hdec]
    exact ⟨by bv_omega, by decide⟩
  obtain ⟨ha, hb, hc, hd⟩ := (mem_addresses_iff (by omega) (by omega) (by omega) (by omega)).mp
    hbefore
  have hhole : 255 ∉ r.d.range := by
    intro hd'
    have hmem := (mem_addresses_iff (by omega) (by omega) (by omega) (by omega)).mpr
      ⟨ha, hb, hc, hd'⟩
    rw [h, hlast] at hmem
    exact lt_irrefl _ hmem.2
  refine ⟨⟨ha, hb, hc⟩, fun x hx y hy z hz => ?_⟩
  have hxle := Field.range_le hx
  have hyle := Field.range_le hy
  have hzle := Field.range_le hz
  by_contra hne
  -- the block of `x`, `y` and `z` ends below the last address, and so with 255
  have hbase : quad x y z 254 ∈ r.addresses :=
    (mem_addresses_iff hxle hyle hzle (by omega)).mpr ⟨hx, hy, hz, hd⟩
  rw [h] at hbase
  have hlow : l.toNat ≤ (quad x y z 254).toNat := hbase.1
  rw [toNat_quad hxle hyle hzle (by omega)] at hlow
  have hmem : quad x y z 255 ∈ r.addresses := by
    rw [h, ← hlast, Set.mem_Ico, BitVec.le_def, BitVec.lt_def,
      toNat_quad hxle hyle hzle (by omega), toNat_quad (by omega) (by omega) (by omega) (by omega)]
    omega
  exact hhole ((mem_addresses_iff hxle hyle hzle (by omega)).mp hmem).2.2.2

/-- With one pair the parser appends one interval or rejects the text. -/
theorem parseIps_one {r : BlockRange} (hone : r.pairs = 1) {str : CString}
    (hstr : str.chars = r.text) (l : IpListIntervals) :
    (∃ i, parseIps false l str = some (true, appended false l [i])) ∨
      parseIps false l str = some (false, l) := by
  have hparse : parseIps false l str = parseRange false l str := by
    rw [parseIps_text (by omega) hstr false l, if_pos hone]
  rw [hparse]
  rcases pairs_eq_one hone with ⟨oa, ob, oc, x, y, rfl⟩ | ⟨_, t, u, htext, ht, hfew⟩
  · rw [parseRange_last hstr]
    by_cases h : (oa.Short ∧ ob.Short ∧ oc.Short ∧ x.Short) ∧ y.Short ∧ y.Tight
    · rw [if_pos h]
      exact .inl ⟨_, rfl⟩
    · rw [if_neg h]
      exact .inr rfl
  · exact .inr (parseRange_of_few (hstr.trans htext) ht hfew false l)

/-- A block range up to the last address but one is one interval. -/
theorem intervals_of_last {r : BlockRange} {l : BitVec 32} (hlt : l < 0xFFFFFFFF)
    (h : r.addresses = Set.Ico l 0xFFFFFFFF) : ∃ i, r.intervals = [i] := by
  obtain ⟨⟨ha, hb, hc⟩, hall⟩ := range_of_last hlt h
  rw [intervals, blockIntervals,
    Field.values_singleton ha fun n hn => (hall n hn 255 hb 255 hc).1,
    Field.values_singleton hb fun n hn => (hall 255 ha n hn 255 hc).2.1,
    Field.values_singleton hc fun n hn => (hall 255 ha 255 hb n hn).2.2]
  exact ⟨_, rfl⟩

theorem parseIps_of_last {r : BlockRange} (hpairs : 0 < r.pairs) {str : CString}
    (hstr : str.chars = r.text) (hparsed : r.ParsedCompletely str {}) {l : BitVec 32}
    (hlt : l < 0xFFFFFFFF) (h : r.addresses = Set.Ico l 0xFFFFFFFF) :
    ∃ i, parseIps false {} str = some (true, appended false {} [i]) := by
  rcases Nat.lt_or_ge r.pairs 2 with hone | htwo
  · rcases parseIps_one (by omega) hstr {} with hsome | hrejected
    · exact hsome
    · exact absurd hparsed (not_parsedCompletely_of_false (.inl hrejected))
  · obtain ⟨hs, hd⟩ := (parsedCompletely_blocks_iff htwo hstr {}).mp hparsed
    obtain ⟨i, hi⟩ := intervals_of_last hlt h
    exact ⟨i, hi ▸ parseIps_intervals htwo hstr hs hd false {}⟩

end BlockRange

/-- A string for the addresses up to the last but one gives one interval,
whatever its form. -/
theorem Denotes.parse_last {str : CString} {l : BitVec 32} (hlt : l < 0xFFFFFFFF)
    (h : Denotes str l 0xFFFFFFFF) :
    parseIpsAdd {} str = some (true, appended false {} [⟨l, 0xFFFFFFFF⟩]) := by
  rw [parseIpsAdd]
  cases h with
  | entry e htext haddr =>
    rw [e.parseIps_text htext,
      interval_of_toSet (i := e.interval) hlt (by rw [e.interval_toSet, haddr, Ico_sdiff_last])]
  | blocks r hpairs htext hparsed haddr =>
    obtain ⟨i, hi⟩ := BlockRange.parseIps_of_last hpairs htext hparsed hlt haddr
    obtain ⟨ivs, hadd, _, hcovers⟩ := hparsed
    rw [parseIpsAdd, hi] at hadd
    cases hadd
    have hset : i.toSet = Set.Ico l 0xFFFFFFFF := by
      rw [haddr, Ico_sdiff_last] at hcovers
      rw [← hcovers]
      ext v
      simp [mem_covers]
    rw [hi, interval_of_toSet hlt hset]

/-! ## The three calls -/

namespace IpListIntervalsWithProperties

/-- The closed pair `(l, u - 1)` attaches to `[l, u)`. -/
theorem addPropertyRange_pred (list : ListIntervalsProperties 32 32 P) {l u : BitVec 32}
    (h : l < u) (p : P) : addPropertyRange list l (u - 1) p = list.addProperty ⟨l, u⟩ p := by
  have hne : u - 1 ≠ 0xFFFFFFFF := by bv_omega
  unfold addPropertyRange
  rw [if_pos hne, sub_add_cancel]

/-- The interval `[l, u)` is attached to with `u` too. -/
theorem addPropertyInterval_eq (list : ListIntervalsProperties 32 32 P) (l : BitVec 32)
    {u : BitVec 32} (h : u ≠ 0xFFFFFFFF) (p : P) :
    addPropertyInterval list ⟨l, u⟩ p = list.addProperty ⟨l, u + 1⟩ p := by
  unfold addPropertyInterval addPropertyRange
  rw [if_pos h]

theorem addPropertyInterval_last (list : ListIntervalsProperties 32 32 P) (l : BitVec 32)
    (p : P) :
    addPropertyInterval list ⟨l, 0xFFFFFFFF⟩ p = list.addProperty ⟨l, 0xFFFFFFFF⟩ p := by
  unfold addPropertyInterval addPropertyRange
  rw [if_neg (by simp)]

theorem addPropertyText_last (list : ListIntervalsProperties 32 32 P) {l : BitVec 32}
    (hlt : l < 0xFFFFFFFF) {str : CString} (h : Denotes str l 0xFFFFFFFF) (p : P) :
    addPropertyText list str p = some (list.addProperty ⟨l, 0xFFFFFFFF⟩ p) := by
  unfold addPropertyText
  rw [h.parse_last hlt]
  rfl

/-- After the call that leaves `list`, `aggregate_properties` ends and
`property_of(v)` returns `r`. -/
def LooksUp (list : Option (ListIntervalsProperties 32 32 P)) (sort : EltSort 32 32)
    (fadd fremove : P → P → P) (fdup : P → P) (v : BitVec 32) (r : Option P) : Prop :=
  ∃ list', (list.bind fun list => list.aggregateProperties sort fadd fremove fdup) = some list' ∧
    list'.Returns v r

/-- The interval `[l, u)`, the closed pair `(l, u - 1)` and the string give
the same lookups. -/
def Agree (list : ListIntervalsProperties 32 32 P) (l u : BitVec 32) (str : CString) (p : P)
    (sort : EltSort 32 32) (fadd fremove : P → P → P) (fdup : P → P) : Prop :=
  ∀ v r,
    (LooksUp (some (addPropertyInterval list ⟨l, u⟩ p)) sort fadd fremove fdup v r ↔
      LooksUp (some (addPropertyRange list l (u - 1) p)) sort fadd fremove fdup v r) ∧
    (LooksUp (some (addPropertyRange list l (u - 1) p)) sort fadd fremove fdup v r ↔
      LooksUp (addPropertyText list str p) sort fadd fremove fdup v r)

/-- With the last address as upper bound the three calls leave the same
list. -/
theorem agree_last (list : ListIntervalsProperties 32 32 P) {l : BitVec 32}
    (hlt : l < 0xFFFFFFFF) {str : CString} (h : Denotes str l 0xFFFFFFFF) (p : P)
    (sort : EltSort 32 32) (fadd fremove : P → P → P) (fdup : P → P) :
    Agree list l 0xFFFFFFFF str p sort fadd fremove fdup := by
  intro v r
  rw [addPropertyInterval_last, addPropertyRange_pred list hlt, addPropertyText_last list hlt h]
  exact ⟨Iff.rfl, Iff.rfl⟩

/-- One call on an empty list: null is looked up exactly outside its
interval. -/
theorem looksUp_single {i : Interval 32} (hi : i.Proper) (p : P) (sort : EltSort 32 32)
    (fadd fremove : P → P → P) (fdup : P → P) (v : BitVec 32) :
    LooksUp (some (({} : ListIntervalsProperties 32 32 P).addProperty i p)) sort fadd fremove fdup
      v none ↔ ¬ i.contains v = true := by
  have hproper : ∀ c ∈ [(i, p)], c.1.Proper := fun c hc => List.mem_singleton.mp hc ▸ hi
  obtain ⟨list, hlist, hiff⟩ :=
    aggregateProperties_nullOutside hproper sort fadd fremove fdup
  have hgapless : Gapless [(i, p)] := by
    rintro v' ⟨⟨c, hc, hlow⟩, ⟨d, hd, hup⟩⟩
    rw [List.mem_singleton.mp hd] at hup
    rw [List.mem_singleton.mp hc] at hlow
    exact ⟨(i, p), List.mem_singleton_self _, contains_iff.mpr ⟨hlow, hup⟩⟩
  obtain ⟨r, hr, hnull⟩ := hiff.mpr ⟨by simp, hgapless⟩ v
  have hcovered : Covered [(i, p)] v ↔ i.contains v = true := by simp [Covered]
  rw [← hcovered, ← hnull]
  constructor
  · rintro ⟨list', hlist', hnone⟩
    cases hlist.symm.trans hlist'
    exact returns_unique hr hnone
  · rintro rfl
    exact ⟨list, hlist, hr⟩

/-- Below the last address the interval attaches to its upper bound, and
the closed pair does not. -/
theorem not_agree {l u : BitVec 32} (hlt : l < u) (hu : u ≠ 0xFFFFFFFF) (str : CString) (p : P)
    (sort : EltSort 32 32) (fadd fremove : P → P → P) (fdup : P → P) :
    ¬ Agree {} l u str p sort fadd fremove fdup := by
  intro h
  have hu' : u < u + 1 := by bv_omega
  have hagree := (h u none).1
  rw [addPropertyInterval_eq _ _ hu, addPropertyRange_pred _ hlt,
    looksUp_single (show Proper ⟨l, u + 1⟩ from lt_trans hlt hu'),
    looksUp_single (show Proper ⟨l, u⟩ from hlt)] at hagree
  have hin : contains ⟨l, u + 1⟩ u = true := contains_iff.mpr ⟨le_of_lt hlt, hu'⟩
  have hout : ¬ contains ⟨l, u⟩ u = true := fun hc => lt_irrefl _ (contains_iff.mp hc).2
  exact hagree.mpr hout hin

/-- **When the three ways to attach a property agree**: for an upper bound
of 255.255.255.255, on every list, and for no other. -/
theorem addProperty_agree_iff {l u : BitVec 32} (hlt : l < u) {str : CString}
    (h : Denotes str l u) (p : P) :
    ((∀ list sort fadd fremove fdup, Agree list l u str p sort fadd fremove fdup) ↔
        u = 0xFFFFFFFF) ∧
      ∀ sort fadd fremove fdup, Agree {} l u str p sort fadd fremove fdup ↔ u = 0xFFFFFFFF := by
  have hfresh : ∀ sort fadd fremove fdup, Agree {} l u str p sort fadd fremove fdup →
      u = 0xFFFFFFFF := by
    intro sort fadd fremove fdup hagree
    by_contra hu
    exact not_agree hlt hu str p sort fadd fremove fdup hagree
  constructor
  · constructor
    · exact fun hall => hfresh (.insertion _) (fun a _ => a) (fun a _ => a) id (hall {} _ _ _ _)
    · rintro rfl
      exact fun list sort fadd fremove fdup => agree_last list hlt h p sort fadd fremove fdup
  · intro sort fadd fremove fdup
    constructor
    · exact hfresh sort fadd fremove fdup
    · rintro rfl
      exact agree_last {} hlt h p sort fadd fremove fdup

/-- The addresses from 255.255.255.0 on, without the last one. -/
theorem addProperty_agree_iff_last :
    Agree (({} : ListIntervalsProperties 32 32 Nat).addProperty ⟨0xFFFFFFF0, 0xFFFFFFFF⟩ 3)
      0xFFFFFF00 0xFFFFFFFF
      ⟨"255.255.255.0-255.255.255.254".toList, 4096, by decide, by decide⟩ 7
      (.insertion _) (· + ·) (· - ·) id := by
  have htext : "255.255.255.0-255.255.255.254".toList =
      Entry.text (.range (.ofIp 0xFFFFFF00) (.ofIp 0xFFFFFFFE) rfl rfl) := by decide
  refine (addProperty_agree_iff (by decide) (.entry _ htext ?_) 7).1.mpr rfl _ _ _ _ _
  have hmin : min (0xFFFFFF00 : BitVec 32) 0xFFFFFFFE = 0xFFFFFF00 := by decide
  have hmax : max (0xFFFFFF00 : BitVec 32) 0xFFFFFFFE = 0xFFFFFFFE := by decide
  ext v
  show v ∈ Set.Icc (min (Address.ofIp _).value (Address.ofIp _).value) _ ↔ _
  rw [Address.value_ofIp, Address.value_ofIp, hmin, hmax, Set.mem_Icc, Set.mem_Ico]
  bv_omega

/-- Attached to `[172.16.1.9, 172.16.1.31)` as an interval, a property is
looked up at 172.16.1.31; with the closed pair and the string it is not. -/
theorem not_addProperty_agree :
    (LooksUp (some (addPropertyInterval {} ⟨0xAC100109, 0xAC10011F⟩ 7)) (.insertion _)
        (· + ·) (· - ·) id 0xAC10011F (some 7)) ∧
      (LooksUp (some (addPropertyRange {} 0xAC100109 (0xAC10011F - 1) 7)) (.insertion _)
        (· + ·) (· - ·) id 0xAC10011F none) ∧
      LooksUp (addPropertyText {} ⟨"172.16.1.9-30".toList, 4096, by decide, by decide⟩ 7)
        (.insertion _) (· + ·) (· - ·) id 0xAC10011F none :=
  ⟨⟨_, rfl, 1, by decide⟩, ⟨_, rfl, 1, by decide⟩, ⟨_, rfl, 1, by decide⟩⟩

/-! ## Neighbours that mask the difference -/

section Masked

variable {α : Type} {calls : List (Member 32 (Multiset α))}

/-- What every lookup returns after one `aggregate_properties` of
multisets. -/
theorem looksUp_addProperties [DecidableEq α] (hne : calls ≠ []) (hproper : ∀ c ∈ calls, c.1.Proper)
    (hn : calls.length ≤ 2 ^ 30 + 1) (sort : EltSort 32 32) (v : BitVec 32)
    (r : Option (Multiset α)) :
    LooksUp (some (({} : ListIntervalsProperties 32 32 (Multiset α)).addProperties calls)) sort
        (· + ·) (· - ·) id v r ↔
      (Between calls v ∧ r = some (propertiesAt calls v).sum) ∨
        (¬ Between calls v ∧ r = none) := by
  obtain ⟨list, hlist, hprops⟩ := exists_sweep sort hproper hne hn
  have hlooks : ∀ r', list.Returns v r' → (LooksUp (some (({} : ListIntervalsProperties 32 32
      (Multiset α)).addProperties calls)) sort (· + ·) (· - ·) id v r ↔ r = r') := by
    intro r' hr'
    constructor
    · rintro ⟨list', hlist', hr⟩
      cases hlist.symm.trans hlist'
      exact returns_unique hr hr'
    · rintro rfl
      exact ⟨list, hlist, hr'⟩
  rcases returns_cases hprops hproper (by omega) (by omega) v with ⟨hgap, hr'⟩ | ⟨hgap, hr'⟩
  · rw [mem_gap_iff hproper] at hgap
    rw [propertySum_tagsAt (by omega)] at hr'
    rw [hlooks _ hr']
    simp [hgap]
  · rw [mem_gap_iff hproper] at hgap
    rw [hlooks _ hr']
    simp [hgap]

theorem between_append_iff {c : Member 32 (Multiset α)} {v : BitVec 32} :
    Between (calls ++ [c]) v ↔ ((∃ d ∈ calls, d.1.lower ≤ v) ∨ c.1.lower ≤ v) ∧
      ((∃ d ∈ calls, v < d.1.upper) ∨ v < c.1.upper) := by
  simp [Between, List.mem_append, or_and_right, exists_or]

theorem propertiesAt_append_sum (c : Member 32 (Multiset α)) (v : BitVec 32) :
    (propertiesAt (calls ++ [c]) v).sum =
      (propertiesAt calls v).sum + if c.1.contains v = true then c.2 else 0 := by
  unfold propertiesAt
  by_cases h : c.1.contains v = true <;> simp [List.filter_append, h]

/-- One interval more, attached behind the calls. -/
theorem looksUp_addProperty [DecidableEq α] (hproper : ∀ c ∈ calls, c.1.Proper)
    (hn : calls.length ≤ 2 ^ 30) {i : Interval 32} (hi : i.Proper) (p : Multiset α)
    (sort : EltSort 32 32) (v : BitVec 32) (r : Option (Multiset α)) :
    LooksUp (some ((({} : ListIntervalsProperties 32 32 (Multiset α)).addProperties
        calls).addProperty i p)) sort (· + ·) (· - ·) id v r ↔
      (Between (calls ++ [(i, p)]) v ∧ r = some (propertiesAt (calls ++ [(i, p)]) v).sum) ∨
        (¬ Between (calls ++ [(i, p)]) v ∧ r = none) := by
  have hadd : (({} : ListIntervalsProperties 32 32 (Multiset α)).addProperties
      calls).addProperty i p = ({} : ListIntervalsProperties 32 32 (Multiset α)).addProperties
        (calls ++ [(i, p)]) := by
    rw [addProperties, addProperties, List.foldl_append]
    rfl
  have hproper' : ∀ c ∈ calls ++ [(i, p)], c.1.Proper := by
    intro c hc
    obtain hc | hc := List.mem_append.mp hc
    · exact hproper c hc
    · rw [List.mem_singleton.mp hc]
      exact hi
  rw [hadd]
  exact looksUp_addProperties (by simp) hproper' (by simp; omega) sort v r

/-- **A neighbour masks the difference** between the interval and the
closed pair only for an empty property, and only when it ends above the
interval. -/
theorem attach_masked_iff [DecidableEq α] (hproper : ∀ c ∈ calls, c.1.Proper)
    (hn : calls.length ≤ 2 ^ 30) {l u : BitVec 32} (hlt : l < u) (hu : u ≠ 0xFFFFFFFF)
    (p : Multiset α) (sort : EltSort 32 32) :
    (∀ v r,
      LooksUp (some (addPropertyInterval (({} : ListIntervalsProperties 32 32
          (Multiset α)).addProperties calls) ⟨l, u⟩ p)) sort (· + ·) (· - ·) id v r ↔
        LooksUp (some (addPropertyRange (({} : ListIntervalsProperties 32 32
          (Multiset α)).addProperties calls) l (u - 1) p)) sort (· + ·) (· - ·) id v r) ↔
      p = 0 ∧ ∃ c ∈ calls, u < c.1.upper := by
  have hu' : u < u + 1 := by bv_omega
  rw [addPropertyInterval_eq _ _ hu, addPropertyRange_pred _ hlt]
  simp only [looksUp_addProperty hproper hn (show Proper ⟨l, u + 1⟩ from lt_trans hlt hu'),
    looksUp_addProperty hproper hn (show Proper ⟨l, u⟩ from hlt), between_append_iff,
    propertiesAt_append_sum, contains_iff]
  constructor
  · intro h
    have hat := (h u (some ((propertiesAt calls u).sum + p))).mp
      (.inl ⟨⟨.inr (le_of_lt hlt), .inr hu'⟩, by rw [if_pos ⟨le_of_lt hlt, hu'⟩]⟩)
    rcases hat with ⟨⟨_, hup⟩, hsum⟩ | ⟨_, hnone⟩
    · rw [if_neg (fun hc => lt_irrefl _ hc.2), add_zero] at hsum
      exact ⟨add_eq_left.mp (Option.some.inj hsum), hup.resolve_right (lt_irrefl _)⟩
    · cases hnone
  · rintro ⟨rfl, c, hc, hcu⟩ v r
    have hup : ((∃ d ∈ calls, v < d.1.upper) ∨ v < u + 1) ↔
        ((∃ d ∈ calls, v < d.1.upper) ∨ v < u) := by
      constructor
      · rintro (hd | hv)
        · exact .inl hd
        · exact .inl ⟨c, hc, lt_of_le_of_lt (by bv_omega) hcu⟩
      · rintro (hd | hv)
        · exact .inl hd
        · exact .inr (lt_trans hv hu')
    simp only [hup, ite_self]

end Masked

end IpListIntervalsWithProperties

end Leeloo
