/-
Leeloo.PropertySessions — addresses and properties together: what
`property_of` answers after a sequence of `add_property` calls of every
overload, from the strings on, and what
`random_sets_with_properties` of `list_intervals_with_properties.h` hands
out.

A call names addresses and gives each of them its property once, whatever
intervals the parser makes of a text (`AttachCall.sum_members`): those of
one phrase have no address in common (`Phrase.intervals_disjoint`). So the
answer for an address is the sum over the calls that name it, from the
lowest to the highest address that any call names, and null outside.
-/
import Leeloo.AttachProperty
import Leeloo.IpSessions
import Leeloo.RandomSets

namespace Leeloo

open CString Text HalfOpen IpsParser Leeloo.Interval ListIntervalsProperties
open IpListIntervals (appended closedEnd)

variable {P : Type}

/-! ## The code -/

/-- `property_of(const char*)`, given the number of turns the dichotomy may
take. -/
def IpListIntervalsWithProperties.propertyOfText (l : ListIntervalsProperties 32 32 P)
    (ipStr : CString) (fuel : Nat) : Option (Option P) := do
  let (ip, ret) ← ipv4toi ipStr.chars ipStr.chars.length 3
  if ¬ ret then some none else l.propertyOf ip fuel

/-- `list_intervals_with_properties`: a list, and the properties beside
it. -/
structure ListIntervalsWithProperties (w : Nat) (P : Type) extends ListIntervals w w where
  props : ListIntervalsProperties w w P := {}

/-- What `std::vector::resize` throws. -/
inductive VectorError where
  | length
  deriving DecidableEq, Repr

/-- `properties.resize(n)`: the number of pointers, of 8 bytes each. No
vector has more than `PTRDIFF_MAX` bytes, and the memory for the others is
there. -/
def resizePointers (n : Nat) : Except VectorError Nat :=
  if n ≤ (2 ^ 63 - 1) / 8 then .ok n else .error .length

namespace ListIntervalsWithProperties

variable {w : Nat} {Seed : Type}

/-- The callback of `random_sets_with_properties`: the values of a buffer
with their properties. `none` is a write behind the `n` places for
properties, or a lookup that does not end in `fuel` turns. -/
def withProperties (l : ListIntervalsWithProperties w P) (fuel n : Nat) (set : List (BitVec w)) :
    Option (List (BitVec w × Option P)) :=
  if n < set.length then none
  else set.mapM fun v => (l.props.propertyOf v fuel).map fun p => (v, p)

/-- `random_sets_with_properties(size_div, fset, rand_eng)`. -/
def randomSetsWithProperties (l : ListIntervalsWithProperties w P) (u : Uprng Seed w) (seed : Seed)
    (sizeDiv : BitVec w) (fuel : Nat) :
    Option (Except VectorError (List (List (BitVec w × Option P)))) :=
  let sizeDiv := if sizeDiv ≤ 0 then 1 else sizeDiv
  match resizePointers sizeDiv.toNat with
  | .error e => some (.error e)
  | .ok places => do
    let sets ← l.randomSets u seed sizeDiv
    let sets ← sets.mapM (l.withProperties fuel places)
    some (.ok sets)

/-- `random_sets_with_properties(fsize_div, size_max, fset, rand_eng)`. -/
def randomSetsSizedWithProperties (l : ListIntervalsWithProperties w P) (u : Uprng Seed w)
    (seed : Seed) (fsizeDiv : Nat → BitVec 64) (sizeMax : BitVec 64) (fuel : Nat) :
    Option (Except VectorError (List (List (BitVec w × Option P)))) :=
  if sizeMax ≤ 0 then some (.ok [])
  else
    match resizePointers sizeMax.toNat with
    | .error e => some (.error e)
    | .ok places => do
      let sets ← l.randomSetsSized u seed fsizeDiv sizeMax
      let sets ← sets.mapM (l.withProperties fuel places)
      some (.ok sets)

end ListIntervalsWithProperties

/-! ## The intervals of a phrase -/

/-- The values of a byte interval differ. -/
theorem ByteInterval.values_nodup (i : ByteInterval) : i.values.Nodup := by
  have hmax := i.max.isLt
  refine List.Nodup.map_on ?_ List.nodup_range'
  intro m hm n hn heq
  rw [List.mem_range'_1] at hm hn
  have hnat := congrArg BitVec.toNat heq
  rw [BitVec.toNat_ofNat, BitVec.toNat_ofNat, Nat.mod_eq_of_lt (by omega),
    Nat.mod_eq_of_lt (by omega)] at hnat
  exact hnat

/-- Two intervals have no address in common. -/
def NothingShared (i j : Interval 32) : Prop := ∀ v ∈ i.toSet, v ∉ j.toSet

namespace Phrase

/-- Two passes of the nested loops have no address in common. -/
theorem insertions_disjoint {f g h k : ByteField} {x y z x' y' z' : BitVec 32}
    (hx : x ∈ f.bytes.values) (hy : y ∈ g.bytes.values) (hz : z ∈ h.bytes.values)
    (hx' : x' ∈ f.bytes.values) (hy' : y' ∈ g.bytes.values) (hz' : z' ∈ h.bytes.values)
    (hne : ¬ (x = x' ∧ y = y' ∧ z = z')) :
    NothingShared
      ⟨ipBase x y z ||| k.bytes.min.setWidth 32,
        closedEnd (ipBase x y z ||| k.bytes.max.setWidth 32)⟩
      ⟨ipBase x' y' z' ||| k.bytes.min.setWidth 32,
        closedEnd (ipBase x' y' z' ||| k.bytes.max.setWidth 32)⟩ := by
  obtain ⟨a, ha, rfl⟩ := ByteField.mem_values_iff.mp hx
  obtain ⟨b, hb, rfl⟩ := ByteField.mem_values_iff.mp hy
  obtain ⟨c, hc, rfl⟩ := ByteField.mem_values_iff.mp hz
  obtain ⟨a', ha', rfl⟩ := ByteField.mem_values_iff.mp hx'
  obtain ⟨b', hb', rfl⟩ := ByteField.mem_values_iff.mp hy'
  obtain ⟨c', hc', rfl⟩ := ByteField.mem_values_iff.mp hz'
  replace ha := ByteField.range_le ha
  replace hb := ByteField.range_le hb
  replace hc := ByteField.range_le hc
  replace ha' := ByteField.range_le ha'
  replace hb' := ByteField.range_le hb'
  replace hc' := ByteField.range_le hc'
  intro v hv hv'
  rw [ByteField.mem_insertion_iff ha hb hc] at hv
  rw [ByteField.mem_insertion_iff ha' hb' hc'] at hv'
  obtain ⟨⟨d, hd, rfl⟩, -⟩ := hv
  obtain ⟨⟨d', hd', heq⟩, -⟩ := hv'
  obtain ⟨rfl, rfl, rfl, -⟩ := quad_inj ha hb hc (ByteField.range_le hd) ha' hb' hc'
    (ByteField.range_le hd') heq
  exact hne ⟨rfl, rfl, rfl⟩

/-- **The intervals of a phrase have no address in common.** -/
theorem intervals_disjoint (p : Phrase) : p.intervals.Pairwise NothingShared := by
  cases p with
  | single a ha => exact List.pairwise_singleton ..
  | cidr a u hu hp => exact List.pairwise_singleton ..
  | range a b ha hb => exact List.pairwise_singleton ..
  | lastOctet a ha d hd => exact List.pairwise_singleton ..
  | blocks f g h hpair m n =>
    unfold intervals blockIntervals
    rw [List.pairwise_flatMap]
    refine ⟨fun x hx => ?_, ?_⟩
    · rw [List.pairwise_flatMap]
      refine ⟨fun y hy => ?_, ?_⟩
      · rw [List.pairwise_map]
        refine (ByteInterval.values_nodup _).imp_of_mem ?_
        intro z z' hz hz' hne
        exact insertions_disjoint hx hy hz hx hy hz' fun heq => hne heq.2.2
      · refine (ByteInterval.values_nodup _).imp_of_mem ?_
        intro y y' hy hy' hne i hi j hj
        obtain ⟨z, hz, rfl⟩ := List.mem_map.mp hi
        obtain ⟨z', hz', rfl⟩ := List.mem_map.mp hj
        exact insertions_disjoint hx hy hz hx hy' hz' fun heq => hne heq.2.1
    · refine (ByteInterval.values_nodup _).imp_of_mem ?_
      intro x x' hx hx' hne i hi j hj
      obtain ⟨y, hy, hi⟩ := List.mem_flatMap.mp hi
      obtain ⟨z, hz, rfl⟩ := List.mem_map.mp hi
      obtain ⟨y', hy', hj⟩ := List.mem_flatMap.mp hj
      obtain ⟨z', hz', rfl⟩ := List.mem_map.mp hj
      exact insertions_disjoint hx hy hz hx' hy' hz' fun heq => hne heq.1

end Phrase

/-! ## Calls -/

/-- A call of `add_property`. -/
inductive AttachCall (P : Type) where
  | interval (i : Interval 32) (p : P)
  | range (a b : BitVec 32) (p : P)
  | text (iprange : CString) (p : P)

namespace AttachCall

open IpListIntervalsWithProperties

def property : AttachCall P → P
  | interval _ p => p
  | range _ _ p => p
  | text _ p => p

def step (l : ListIntervalsProperties 32 32 P) :
    AttachCall P → Option (ListIntervalsProperties 32 32 P)
  | interval i p => some (addPropertyInterval l i p)
  | range a b p => some (addPropertyRange l a b p)
  | text iprange p => addPropertyText l iprange p

/-- The addresses a call names. The overload for an interval takes the
exclusive upper bound for the last address. -/
def addresses : AttachCall P → Set (BitVec 32)
  | interval i _ => Set.Icc i.lower i.upper
  | range a b _ => Set.Icc a b
  | text iprange _ => textAddresses iprange.chars

/-- The call is undefined. -/
def Traps : AttachCall P → Prop
  | text iprange _ => Trap iprange.chars
  | _ => False

/-- The intervals a call attaches to. -/
def intervals : AttachCall P → List (Interval 32)
  | interval i _ => [⟨i.lower, closedEnd i.upper⟩]
  | range a b _ => [⟨a, closedEnd b⟩]
  | text iprange _ =>
    match parseIpsAdd {} iprange with
    | some (_, list) => list.intervals
    | none => []

def members (c : AttachCall P) : List (Member 32 P) := c.intervals.map fun i => (i, c.property)

/-- **One call** attaches its property to its intervals, unless its text is
a trap. -/
theorem step_eq (c : AttachCall P) (l : ListIntervalsProperties 32 32 P) :
    (c.Traps → c.step l = none) ∧ (¬ c.Traps → c.step l = some (l.addProperties c.members)) := by
  cases c with
  | interval i p => exact ⟨False.elim, fun _ => rfl⟩
  | range a b p => exact ⟨False.elim, fun _ => rfl⟩
  | text iprange p =>
    constructor
    · intro htrap
      simp [step, addPropertyText, parseIpsAdd, parseIps_trap htrap]
    · intro hno
      cases hparse : parseIpsAdd {} iprange with
      | none => exact absurd ((parser_language false {} {} iprange).2.1.mp hparse) hno
      | some r =>
        simp only [step, addPropertyText, hparse, Option.bind_eq_bind, Option.bind_some, members,
          intervals, property, addProperties, List.foldl_map]

/-- The intervals of a text that is no trap: those of the phrase, or none
when it is refused. -/
theorem text_cases {iprange : CString} (h : ¬ Trap iprange.chars) (p : P) :
    (∃ q : Phrase, q.text = iprange.chars ∧ (text iprange p).intervals = q.intervals) ∨
      (¬ IsPhrase iprange.chars ∧ (text iprange p).intervals = []) := by
  obtain ⟨q, hq⟩ | htrap | hrefuses := parseIps_cases iprange
  · refine Or.inl ⟨q, hq, ?_⟩
    simp only [intervals, parseIpsAdd, q.parseIps_text hq.symm]
    exact List.nil_append _
  · exact absurd htrap h
  · refine Or.inr ⟨?_, ?_⟩
    · rintro ⟨q, hq⟩
      have hsame := (hrefuses false {}).symm.trans (q.parseIps_text hq.symm false {})
      simp at hsame
    · simp only [intervals, parseIpsAdd, hrefuses false {}]

/-- The intervals of a call cover what it names, less the last address. -/
theorem covers_intervals {c : AttachCall P} (h : ¬ c.Traps) :
    covers c.intervals = c.addresses \ {lastIp} := by
  cases c with
  | interval i p => exact IpCall.covers_pair i.lower i.upper
  | range a b p => exact IpCall.covers_pair a b
  | text iprange p =>
    obtain ⟨q, hq, hints⟩ | ⟨hno, hints⟩ := text_cases h p
    · rw [hints, covers_of_text hq]
      rfl
    · have hempty : textAddresses iprange.chars = ∅ := by
        ext v
        exact iff_of_false (fun ⟨q, hq, _⟩ => hno ⟨q, hq⟩) (Set.notMem_empty v)
      rw [hints, addresses, hempty, covers_nil, Set.empty_sdiff]

/-- The intervals of a call have no address in common. -/
theorem intervals_disjoint {c : AttachCall P} (h : ¬ c.Traps) :
    c.intervals.Pairwise NothingShared := by
  cases c with
  | interval i p => exact List.pairwise_singleton ..
  | range a b p => exact List.pairwise_singleton ..
  | text iprange p =>
    obtain ⟨q, -, hints⟩ | ⟨-, hints⟩ := text_cases h p
    · rw [hints]
      exact q.intervals_disjoint
    · rw [hints]
      exact List.Pairwise.nil

/-- Among intervals with nothing in common a value finds the property
once. -/
theorem propertiesAt_disjoint {ivs : List (Interval 32)}
    (h : ivs.Pairwise NothingShared) (p : P) (v : BitVec 32) :
    (v ∈ covers ivs → propertiesAt (ivs.map fun i => (i, p)) v = [p]) ∧
      (v ∉ covers ivs → propertiesAt (ivs.map fun i => (i, p)) v = []) := by
  induction ivs with
  | nil => exact ⟨fun ⟨i, hi, _⟩ => absurd hi List.not_mem_nil, fun _ => rfl⟩
  | cons i ivs ih =>
    obtain ⟨hi, hivs⟩ := List.pairwise_cons.mp h
    obtain ⟨hin, hout⟩ := ih hivs
    rw [covers_cons]
    by_cases hv : i.contains v = true
    · have hmem : v ∈ i.toSet := Interval.contains_iff.mp hv
      have hrest : v ∉ covers ivs := by
        rintro ⟨j, hj, hvj⟩
        exact hi j hj v hmem hvj
      have hcons : propertiesAt ((i :: ivs).map fun i => (i, p)) v =
          p :: propertiesAt (ivs.map fun i => (i, p)) v := by
        simp [propertiesAt, hv]
      rw [hcons, hout hrest]
      exact ⟨fun _ => rfl, fun hno => absurd (Or.inl hmem) hno⟩
    · have hmem : v ∉ i.toSet := fun hmem => hv (Interval.contains_iff.mpr hmem)
      have hcons : propertiesAt ((i :: ivs).map fun i => (i, p)) v =
          propertiesAt (ivs.map fun i => (i, p)) v := by
        simp [propertiesAt, hv]
      rw [hcons]
      exact ⟨fun hor => hin (hor.resolve_left hmem), fun hno => hout fun hc => hno (Or.inr hc)⟩

/-- **A call gives its property once** to each address it names. -/
theorem propertiesAt_members {c : AttachCall P} (h : ¬ c.Traps) (v : BitVec 32) :
    (v ∈ c.addresses \ {lastIp} → propertiesAt c.members v = [c.property]) ∧
      (v ∉ c.addresses \ {lastIp} → propertiesAt c.members v = []) := by
  rw [← covers_intervals h]
  exact propertiesAt_disjoint (intervals_disjoint h) c.property v

end AttachCall

/-! ## Sequences of calls -/

/-- The calls one after the other. -/
def runAttach (l : ListIntervalsProperties 32 32 P) (calls : List (AttachCall P)) :
    Option (ListIntervalsProperties 32 32 P) :=
  calls.foldlM AttachCall.step l

/-- The intervals that the calls attach to, with their properties. -/
def attachedMembers (calls : List (AttachCall P)) : List (Member 32 P) :=
  calls.flatMap AttachCall.members

/-- The addresses that some call names. -/
def attachedAddresses (calls : List (AttachCall P)) : Set (BitVec 32) :=
  {v | ∃ c ∈ calls, v ∈ c.addresses} \ {lastIp}

theorem runAttach_of_traps {calls : List (AttachCall P)} (h : ∃ c ∈ calls, c.Traps)
    (l : ListIntervalsProperties 32 32 P) : runAttach l calls = none := by
  induction calls generalizing l with
  | nil =>
    obtain ⟨c, hc, -⟩ := h
    cases hc
  | cons c calls ih =>
    obtain ⟨d, hd, htrap⟩ := h
    rw [runAttach, List.foldlM_cons]
    by_cases hc : c.Traps
    · rw [(c.step_eq l).1 hc]
      rfl
    · have hd' : d ∈ calls := by
        cases List.mem_cons.mp hd with
        | inl heq => exact absurd (heq ▸ htrap) hc
        | inr hd' => exact hd'
      rw [(c.step_eq l).2 hc]
      exact ih ⟨d, hd', htrap⟩ _

/-- **The calls attach all their intervals.** -/
theorem runAttach_eq {calls : List (AttachCall P)} (h : ∀ c ∈ calls, ¬ c.Traps)
    (l : ListIntervalsProperties 32 32 P) :
    runAttach l calls = some (l.addProperties (attachedMembers calls)) := by
  induction calls generalizing l with
  | nil => rfl
  | cons c calls ih =>
    obtain ⟨hc, hcalls⟩ := List.forall_mem_cons.mp h
    rw [runAttach, List.foldlM_cons, (c.step_eq l).2 hc]
    refine (ih hcalls _).trans ?_
    simp [attachedMembers, addProperties, List.foldl_append]

/-- They are defined unless a text is a trap. -/
theorem exists_runAttach_iff (l : ListIntervalsProperties 32 32 P) (calls : List (AttachCall P)) :
    (∃ l', runAttach l calls = some l') ↔ ∀ c ∈ calls, ¬ c.Traps := by
  constructor
  · rintro ⟨l', hl'⟩ c hc htrap
    rw [runAttach_of_traps ⟨c, hc, htrap⟩] at hl'
    cases hl'
  · intro h
    exact ⟨_, runAttach_eq h l⟩

section Addresses

variable {calls : List (AttachCall P)}

theorem covers_attachedMembers (h : ∀ c ∈ calls, ¬ c.Traps) :
    covers ((attachedMembers calls).map (·.1)) = attachedAddresses calls := by
  ext v
  constructor
  · rintro ⟨i, hi, hv⟩
    obtain ⟨m, hm, rfl⟩ := List.mem_map.mp hi
    obtain ⟨c, hc, hm⟩ := List.mem_flatMap.mp hm
    obtain ⟨i, hmem, rfl⟩ := List.mem_map.mp hm
    have hcov : v ∈ covers c.intervals := ⟨i, hmem, hv⟩
    rw [AttachCall.covers_intervals (h c hc)] at hcov
    exact ⟨⟨c, hc, hcov.1⟩, hcov.2⟩
  · rintro ⟨⟨c, hc, hv⟩, hlast⟩
    have hcov : v ∈ covers c.intervals := by
      rw [AttachCall.covers_intervals (h c hc)]
      exact ⟨hv, hlast⟩
    obtain ⟨i, hi, hv⟩ := hcov
    exact ⟨i, List.mem_map.mpr ⟨(i, c.property), List.mem_flatMap.mpr
      ⟨c, hc, List.mem_map.mpr ⟨i, hi, rfl⟩⟩, rfl⟩, hv⟩

/-- Between two bounds is between two addresses. -/
theorem between_iff (h : ∀ c ∈ calls, ¬ c.Traps)
    (hproper : ∀ m ∈ attachedMembers calls, m.1.Proper) (v : BitVec 32) :
    Between (attachedMembers calls) v ↔
      (∃ x ∈ attachedAddresses calls, x ≤ v) ∧ ∃ y ∈ attachedAddresses calls, v ≤ y := by
  rw [← covers_attachedMembers h]
  constructor
  · rintro ⟨⟨m, hm, hle⟩, n, hn, hlt⟩
    refine ⟨⟨m.1.lower, ⟨m.1, List.mem_map_of_mem hm, le_rfl, hproper m hm⟩, hle⟩, ?_⟩
    by_cases hv : n.1.lower ≤ v
    · exact ⟨v, ⟨n.1, List.mem_map_of_mem hn, hv, hlt⟩, le_rfl⟩
    · exact ⟨n.1.lower, ⟨n.1, List.mem_map_of_mem hn, le_rfl, hproper n hn⟩, (not_le.mp hv).le⟩
  · rintro ⟨⟨x, ⟨i, hi, hx⟩, hle⟩, y, ⟨j, hj, hy⟩, hge⟩
    obtain ⟨m, hm, rfl⟩ := List.mem_map.mp hi
    obtain ⟨n, hn, rfl⟩ := List.mem_map.mp hj
    exact ⟨⟨m, hm, hx.1.trans hle⟩, n, hn, hge.trans_lt hy.2⟩

end Addresses

section Multisets

variable {α : Type} {calls : List (AttachCall (Multiset α))}

open Classical in
/-- The sum of the properties that the calls give to `v`. -/
noncomputable def attachedSum (calls : List (AttachCall (Multiset α))) (v : BitVec 32) :
    Multiset α :=
  (calls.map fun c => if v ∈ c.addresses \ {lastIp} then c.property else 0).sum

open Classical in
/-- What `property_of(v)` answers. -/
noncomputable def attachedAnswer (calls : List (AttachCall (Multiset α))) (v : BitVec 32) :
    Option (Multiset α) :=
  if (∃ x ∈ attachedAddresses calls, x ≤ v) ∧ ∃ y ∈ attachedAddresses calls, v ≤ y then
    some (attachedSum calls v)
  else none

theorem propertiesAt_append (ms ns : List (Member 32 P)) (v : BitVec 32) :
    propertiesAt (ms ++ ns) v = propertiesAt ms v ++ propertiesAt ns v := by
  simp [propertiesAt]

open Classical in
theorem sum_attachedMembers (h : ∀ c ∈ calls, ¬ c.Traps) (v : BitVec 32) :
    (propertiesAt (attachedMembers calls) v).sum = attachedSum calls v := by
  induction calls with
  | nil => rfl
  | cons c calls ih =>
    obtain ⟨hc, hcalls⟩ := List.forall_mem_cons.mp h
    have hsplit : attachedMembers (c :: calls) = c.members ++ attachedMembers calls :=
      List.flatMap_cons
    have hsum : attachedSum (c :: calls) v =
        (if v ∈ c.addresses \ {lastIp} then c.property else 0) + attachedSum calls v := by
      unfold attachedSum
      rw [List.map_cons, List.sum_cons]
    rw [hsplit, propertiesAt_append, List.sum_append, ih hcalls, hsum]
    by_cases hv : v ∈ c.addresses \ {lastIp}
    · rw [(c.propertiesAt_members hc v).1 hv, if_pos hv, List.sum_singleton]
    · rw [(c.propertiesAt_members hc v).2 hv, if_neg hv, List.sum_nil]

/-- **The answers after one sweep.** -/
theorem attach_answers [DecidableEq α] (h : ∀ c ∈ calls, ¬ c.Traps)
    (hproper : ∀ m ∈ attachedMembers calls, m.1.Proper)
    (hn : (attachedMembers calls).length ≤ 2 ^ 30 + 1) (sort : EltSort 32 32) :
    ∃ props, (({} : ListIntervalsProperties 32 32 (Multiset α)).addProperties
          (attachedMembers calls)).aggregateProperties sort (· + ·) (· - ·) id = some props ∧
      ∀ v, props.Returns v (attachedAnswer calls v) := by
  by_cases hne : attachedMembers calls = []
  · rw [hne]
    refine ⟨_, rfl, fun v => ?_⟩
    have hnone : attachedAnswer calls v = none := by
      refine if_neg ?_
      rw [← between_iff h hproper, hne]
      rintro ⟨⟨m, hm, -⟩, -⟩
      cases hm
    rw [hnone]
    exact returns_none_of_nil rfl v
  · obtain ⟨props, hprops, hsegments⟩ := exists_sweep sort hproper hne hn
    refine ⟨props, hprops, fun v => ?_⟩
    obtain ⟨hgap, hret⟩ | ⟨hgap, hret⟩ :=
      returns_cases hsegments hproper (by omega) (by omega) v
    · rw [mem_gap_iff hproper, between_iff h hproper] at hgap
      rw [propertySum_tagsAt (by omega), sum_attachedMembers h] at hret
      rwa [attachedAnswer, if_pos hgap]
    · rw [mem_gap_iff hproper, between_iff h hproper] at hgap
      rwa [attachedAnswer, if_neg hgap]

end Multisets

/-! ## The lookups of many values -/

section Lookups

variable {w : Nat} {props : ListIntervalsProperties w w P} {answer : BitVec w → Option P}

theorem propertyOf_mono {v : BitVec w} {r : Option P} {fuel fuel' : Nat} (hle : fuel ≤ fuel')
    (h : props.propertyOf v fuel = some r) : props.propertyOf v fuel' = some r := by
  unfold propertyOf at h ⊢
  rw [propertyOfLoop_eq, Option.map_eq_some_iff] at h ⊢
  obtain ⟨found, hfound, hr⟩ := h
  exact ⟨found, Dichotomy.search_mono hle hfound, hr⟩

/-- Some number of turns is enough for all the values of a list. -/
theorem exists_fuel (h : ∀ v, props.Returns v (answer v)) (vs : List (BitVec w)) :
    ∃ fuel, ∀ v ∈ vs, props.propertyOf v fuel = some (answer v) := by
  induction vs with
  | nil => exact ⟨0, fun v hv => by cases hv⟩
  | cons v vs ih =>
    obtain ⟨m, hm⟩ := h v
    obtain ⟨n, hn⟩ := ih
    refine ⟨max m n, List.forall_mem_cons.mpr ⟨propertyOf_mono (le_max_left m n) hm, ?_⟩⟩
    intro x hx
    exact propertyOf_mono (le_max_right m n) (hn x hx)

theorem mapM_eq_map {α β : Type} {f : α → Option β} {g : α → β} {xs : List α}
    (h : ∀ x ∈ xs, f x = some (g x)) : xs.mapM f = some (xs.map g) := by
  induction xs with
  | nil => rfl
  | cons x xs ih =>
    obtain ⟨hx, hxs⟩ := List.forall_mem_cons.mp h
    simp [List.mapM_cons, hx, ih hxs]

/-- **The callback** hands out the values of the buffers with their
properties. -/
theorem exists_withProperties (l : ListIntervalsWithProperties w P)
    (h : ∀ v, l.props.Returns v (answer v)) {n : Nat} {sets : List (List (BitVec w))}
    (hn : ∀ set ∈ sets, set.length ≤ n) :
    ∃ fuel, sets.mapM (l.withProperties fuel n) =
      some (sets.map fun set => set.map fun v => (v, answer v)) := by
  obtain ⟨fuel, hfuel⟩ := exists_fuel h sets.flatten
  refine ⟨fuel, mapM_eq_map fun set hset => ?_⟩
  rw [ListIntervalsWithProperties.withProperties, if_neg (not_lt.mpr (hn set hset))]
  refine mapM_eq_map fun v hv => ?_
  rw [hfuel v (List.mem_flatten_of_mem hset hv), Option.map_some]

end Lookups

section Sets

variable {w : Nat} {answer : BitVec w → Option P}

/-- The values of the sets, with the answers beside them. -/
theorem flatten_map_answers (sets : List (List (BitVec w))) :
    (sets.map fun set => set.map fun v => (v, answer v)).flatten =
      sets.flatten.map fun v => (v, answer v) :=
  List.map_flatten.symm

theorem map_fst_answers (vs : List (BitVec w)) :
    (vs.map fun v => (v, answer v)).map Prod.fst = vs := by
  rw [List.map_map]
  exact List.map_id' vs

theorem mem_answers_iff {vs : List (BitVec w)} {v : BitVec w} {p : Option P} :
    (v, p) ∈ vs.map (fun v => (v, answer v)) ↔ v ∈ vs ∧ p = answer v := by
  rw [List.mem_map]
  constructor
  · rintro ⟨x, hx, heq⟩
    obtain ⟨rfl, rfl⟩ := Prod.mk.inj heq
    exact ⟨hx, rfl⟩
  · rintro ⟨hv, rfl⟩
    exact ⟨v, hv, rfl⟩

end Sets

section Delivery

variable {Seed : Type} {u : Uprng Seed 32} {seed : Seed} {li : ListIntervals 32 32}
  {props : ListIntervalsProperties 32 32 P} {answer : BitVec 32 → Option P}

theorem resizePointers_of_lt {n : Nat} (h : n < 2 ^ 60) : resizePointers n = .ok n :=
  if_pos (by omega)

theorem resizePointers_of_le {n : Nat} (h : 2 ^ 60 ≤ n) : resizePointers n = .error .length :=
  if_neg (by omega)

/-- **Sets of one size**: every address once, with its property. -/
theorem randomSetsWithProperties_all (hli : Served li) (hu : u.Enumerates seed li.size)
    (h : ∀ v, props.Returns v (answer v)) (sizeDiv : BitVec 32) :
    ∃ fuel sets, (⟨li, props⟩ : ListIntervalsWithProperties 32 P).randomSetsWithProperties u seed
        sizeDiv fuel = some (.ok sets) ∧
      (sets.flatten.map Prod.fst).Nodup ∧
      (∀ v p, (v, p) ∈ sets.flatten ↔ v ∈ covers li.intervals ∧ p = answer v) ∧
      (∀ set ∈ sets.dropLast, set.length = if sizeDiv = 0 then 1 else sizeDiv.toNat) ∧
      ∀ set ∈ sets, 1 ≤ set.length ∧ set.length ≤ if sizeDiv = 0 then 1 else sizeDiv.toNat := by
  obtain ⟨sizeDiv', hsizeDiv⟩ :
      ∃ d : BitVec 32, (if sizeDiv ≤ 0 then 1 else sizeDiv) = d := ⟨_, rfl⟩
  have hdiv : sizeDiv'.toNat = if sizeDiv = 0 then 1 else sizeDiv.toNat :=
    hsizeDiv ▸ toNat_div sizeDiv
  have hne : sizeDiv' ≠ 0 := by
    rintro rfl
    have hpos := toNat_div_pos sizeDiv
    rw [hsizeDiv] at hpos
    exact absurd hpos (by decide)
  obtain ⟨sets, hsets, hnodup, hmem, hfull, hsize⟩ := randomSets_all hli hu sizeDiv'
  rw [if_neg hne] at hfull hsize
  obtain ⟨fuel, hfuel⟩ := exists_withProperties ⟨li, props⟩ h fun set hset => (hsize set hset).2
  have hplaces : resizePointers sizeDiv'.toNat = .ok sizeDiv'.toNat :=
    resizePointers_of_lt (by have := sizeDiv'.isLt; omega)
  refine ⟨fuel, sets.map fun set => set.map fun v => (v, answer v), ?_, ?_, ?_, ?_, ?_⟩
  · rw [ListIntervalsWithProperties.randomSetsWithProperties, hsizeDiv]
    simp only [hplaces, hsets, hfuel, Option.bind_eq_bind, Option.bind_some]
  · rwa [flatten_map_answers, map_fst_answers]
  · intro v p
    rw [flatten_map_answers, mem_answers_iff, hmem]
  · intro set hset
    rw [← List.map_dropLast] at hset
    obtain ⟨b, hb, rfl⟩ := List.mem_map.mp hset
    rw [List.length_map, ← hdiv]
    exact hfull b hb
  · intro set hset
    obtain ⟨b, hb, rfl⟩ := List.mem_map.mp hset
    rw [List.length_map, ← hdiv]
    exact hsize b hb

/-- **Sets of chosen sizes**, where the vector of properties is not too
long: no address twice, each with its property, and every address when the
walk does not stop early. -/
theorem randomSetsSizedWithProperties_all (hli : Served li) (hu : u.Enumerates seed li.size)
    (h : ∀ v, props.Returns v (answer v)) (fsizeDiv : Nat → BitVec 64) {sizeMax : BitVec 64}
    (hmax : sizeMax.toNat < 2 ^ 60) :
    ∃ fuel sets, (⟨li, props⟩ : ListIntervalsWithProperties 32 P).randomSetsSizedWithProperties u
        seed fsizeDiv sizeMax fuel = some (.ok sets) ∧
      (sets.flatten.map Prod.fst).Nodup ∧
      (∀ v p, (v, p) ∈ sets.flatten → v ∈ covers li.intervals ∧ p = answer v) ∧
      (sets.flatten.length = li.size.toNat →
        ∀ v ∈ covers li.intervals, (v, answer v) ∈ sets.flatten) := by
  obtain ⟨sets, hsets, hnodup, hmem, hsized, hall⟩ :=
    randomSetsSized_all hli hu (show RoomFor fsizeDiv sizeMax _ from Or.inl (by omega))
  obtain ⟨fuel, hfuel⟩ := exists_withProperties ⟨li, props⟩ h fun set hset =>
    (hsized.bounds set hset).2
  refine ⟨fuel, sets.map fun set => set.map fun v => (v, answer v), ?_, ?_, ?_, ?_⟩
  · rw [ListIntervalsWithProperties.randomSetsSizedWithProperties]
    by_cases hzero : sizeMax ≤ 0
    · have hnil : sets = [] := by
        rw [ListIntervals.randomSetsSized, if_pos (by bv_omega)] at hsets
        exact (Option.some.inj hsets).symm
      rw [if_pos hzero, hnil]
      rfl
    · simp only [if_neg hzero, resizePointers_of_lt hmax, hsets, hfuel, Option.bind_eq_bind,
        Option.bind_some]
  · rwa [flatten_map_answers, map_fst_answers]
  · intro v p hp
    rw [flatten_map_answers, mem_answers_iff] at hp
    exact ⟨hmem v hp.1, hp.2⟩
  · intro hlen v hv
    rw [flatten_map_answers] at hlen ⊢
    rw [List.length_map] at hlen
    exact mem_answers_iff.mpr ⟨hall hlen v hv, rfl⟩

/-- From `2^60` on, `resize` throws. -/
theorem randomSetsSizedWithProperties_throws {fsizeDiv : Nat → BitVec 64} {sizeMax : BitVec 64}
    (hmax : 2 ^ 60 ≤ sizeMax.toNat) (fuel : Nat) :
    (⟨li, props⟩ : ListIntervalsWithProperties 32 P).randomSetsSizedWithProperties u seed fsizeDiv
      sizeMax fuel = some (.error .length) := by
  have hpos : ¬ sizeMax ≤ 0 := by
    rw [BitVec.le_def]
    simp
    omega
  rw [ListIntervalsWithProperties.randomSetsSizedWithProperties, if_neg hpos]
  simp only [resizePointers_of_le hmax]

/-- `property_of(const char*)` asks for the address the string spells. -/
theorem propertyOfText_answers (h : ∀ v, props.Returns v (answer v)) (str : CString) :
    ∃ fuel r, IpListIntervalsWithProperties.propertyOfText props str fuel = some r ∧
      ((∃ a : Address, a.text = str.chars ∧ a.Full ∧ r = answer a.value) ∨
        ((¬ ∃ a : Address, a.text = str.chars ∧ a.Full) ∧ r = none)) := by
  obtain ⟨ip, hrun, hd⟩ | ⟨ip, hrun, hd⟩ := ipv4toi_cases 3 str.chars []
  · have hrun : ipv4toi str.chars str.chars.length 3 = some (ip, true) := by simpa using hrun
    obtain ⟨a, ha, hfull, rfl⟩ := Address.dotted_eq_some_iff.mp hd
    obtain ⟨fuel, hfuel⟩ := h a.value
    refine ⟨fuel, answer a.value, ?_, Or.inl ⟨a, ha, Nat.le_antisymm a.length_le hfull, rfl⟩⟩
    unfold IpListIntervalsWithProperties.propertyOfText
    simp [hrun, hfuel]
  · have hrun : ipv4toi str.chars str.chars.length 3 = some (ip, false) := by simpa using hrun
    refine ⟨0, none, ?_, Or.inr ⟨?_, rfl⟩⟩
    · unfold IpListIntervalsWithProperties.propertyOfText
      simp [hrun]
    · rintro ⟨a, ha, hfull⟩
      rw [← ha, Address.dotted_full hfull] at hd
      cases hd

end Delivery

end Leeloo
