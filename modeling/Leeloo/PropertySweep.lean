/-
Leeloo.PropertySweep — the two sweeps of `list_intervals_properties` emit
the segments of the abstract sweep.

The end points of the calls are the events of `Sweep`, tagged with the
index of the property (`event`, `spans`). A sweep of the class `Tracks` the
open tags when its state stays related to them: a push adds the tag and a
pop removes one that is there. Such a sweep adds exactly
`Sweep.segments val`, `val` being the value of the open tags
(`sweepLoop_segments`).

`aggregate_properties` tracks the sum of the open properties, for
properties that are multisets; `aggregate_properties_no_rem` tracks their
combination by `fadd`, and its assertion holds because a popped tag is open.
-/
import Leeloo.ListIntervalsProperties
import Leeloo.Lib.Sweep
import Mathlib.Algebra.BigOperators.Group.Multiset.Basic

namespace Leeloo

open HalfOpen Sweep Leeloo.Interval ListIntervalsProperties

variable {w s : Nat} {P : Type}

/-- An end point as an event of the sweep. -/
def event (e : Elt w s × Bool) : Event (BitVec w) (BitVec s) := ⟨e.1.x, e.1.propIdx, e.2⟩

@[simp] theorem event_key (e : Elt w s × Bool) : (event e).key = e.1.x := rfl
@[simp] theorem event_tag (e : Elt w s × Bool) : (event e).tag = e.1.propIdx := rfl
@[simp] theorem event_opens (e : Elt w s × Bool) : (event e).opens = e.2 := rfl

/-- The intervals of the calls from the `n`-th on, tagged with the index of
their property. -/
def spans (s : Nat) (n : Nat) (calls : List (Member w P)) : List (Interval w × BitVec s) :=
  (calls.zipIdx n).map fun c => (c.1.1, BitVec.ofNat s c.2)

/-! ## The end points of the calls -/

/-- The intermediate representation after some calls. -/
def PropertiesIr.addAll (ir : PropertiesIr w s P) (calls : List (Member w P)) :
    PropertiesIr w s P :=
  calls.foldl (fun ir c => ir.add c.1 c.2) ir

/-- A call of `add_property` only changes the intermediate
representation. -/
theorem addProperties_eq (l : ListIntervalsProperties w s P) (calls : List (Member w P)) :
    l.addProperties calls = { l with ir := l.ir.addAll calls } := by
  unfold addProperties PropertiesIr.addAll
  induction calls generalizing l with
  | nil => rfl
  | cons c calls ih => rw [List.foldl_cons, ih]; rfl

theorem addAll_properties (ir : PropertiesIr w s P) (calls : List (Member w P)) :
    (ir.addAll calls).properties = ir.properties ++ calls.map (·.2) := by
  unfold PropertiesIr.addAll
  induction calls generalizing ir with
  | nil => simp
  | cons c calls ih =>
    rw [List.foldl_cons, ih]
    simp [PropertiesIr.add]

/-- The calls add the events of their spans. -/
theorem addAll_events (ir : PropertiesIr w s P) (calls : List (Member w P)) :
    (ir.addAll calls).elts.map event =
      ir.elts.map event ++ events (spans s ir.properties.length calls) := by
  unfold PropertiesIr.addAll
  induction calls generalizing ir with
  | nil => simp [spans, events]
  | cons c calls ih =>
    rw [List.foldl_cons, ih]
    simp [PropertiesIr.add, spans, events, event, List.zipIdx_cons]

theorem length_spans (n : Nat) (calls : List (Member w P)) :
    (spans s n calls).length = calls.length := by
  simp [spans]

/-- The spans are the intervals of the calls. -/
theorem spans_fst (n : Nat) (calls : List (Member w P)) :
    (spans s n calls).map (·.1) = calls.map (·.1) := by
  conv_rhs => rw [← List.zipIdx_map_fst n calls, List.map_map]
  rw [spans, List.map_map]
  rfl

theorem exists_call {n : Nat} {calls : List (Member w P)} {t : Interval w × BitVec s}
    (ht : t ∈ spans s n calls) : ∃ c ∈ calls, c.1 = t.1 := by
  have hmem : t.1 ∈ (spans s n calls).map (·.1) := List.mem_map_of_mem ht
  rw [spans_fst] at hmem
  exact List.mem_map.mp hmem

theorem spans_proper {n : Nat} {calls : List (Member w P)} (h : ∀ c ∈ calls, c.1.Proper) :
    ∀ t ∈ spans s n calls, t.1.Proper := by
  intro t ht
  obtain ⟨c, hc, heq⟩ := exists_call ht
  exact heq ▸ h c hc

theorem exists_span {n : Nat} {calls : List (Member w P)} {c : Member w P} (hc : c ∈ calls) :
    ∃ t ∈ spans s n calls, t.1 = c.1 := by
  have hmem : c.1 ∈ (spans s n calls).map (·.1) := by
    rw [spans_fst]
    exact List.mem_map_of_mem hc
  exact List.mem_map.mp hmem

/-- The property an index points at. -/
def propertyAt [Inhabited P] (properties : List P) (i : BitVec s) : P :=
  properties[i.toNat]?.getD default

/-- The properties that the tags of the spans through `v` point at are
those of the calls through `v`. -/
theorem map_propertyAt_spans [Inhabited P] (v : BitVec w) (calls : List (Member w P))
    (hn : calls.length ≤ 2 ^ s) :
    ((spans s 0 calls).filter fun t =>
        decide (t.1.lower ≤ v) && decide (v < t.1.upper)).map
          (fun t => propertyAt (calls.map (·.2)) t.2) =
      (calls.filter fun c => c.1.contains v).map (·.2) := by
  have hlook : ∀ c ∈ calls.zipIdx,
      propertyAt (calls.map (·.2)) (BitVec.ofNat s c.2) = c.1.2 := by
    intro c hc
    have hget := List.mem_zipIdx_iff_getElem?.mp hc
    obtain ⟨hlt, _⟩ := List.getElem?_eq_some_iff.mp hget
    unfold propertyAt
    rw [BitVec.toNat_ofNat, Nat.mod_eq_of_lt (by omega), List.getElem?_map, hget]
    rfl
  have hzip : calls.filter (fun c => c.1.contains v) =
      (calls.zipIdx.filter fun c => c.1.1.contains v).map (·.1) := by
    conv_lhs => rw [← List.zipIdx_map_fst 0 calls, List.filter_map]
    rfl
  unfold spans
  rw [hzip, List.filter_map, List.map_map, List.map_map]
  apply List.map_congr_left
  intro c hc
  exact hlook c (List.mem_of_mem_filter hc)

/-- The tags of the spans are indices of properties. -/
theorem tag_lt_of_mem_spans {calls : List (Member w P)} {t : Interval w × BitVec s}
    (ht : t ∈ spans s 0 calls) : t.2.toNat < calls.length := by
  unfold spans at ht
  obtain ⟨c, hc, heq⟩ := List.mem_map.mp ht
  obtain ⟨hlt, _⟩ := List.getElem?_eq_some_iff.mp (List.mem_zipIdx_iff_getElem?.mp hc)
  rw [← heq]
  show (BitVec.ofNat s c.2).toNat < _
  rw [BitVec.toNat_ofNat]
  exact (Nat.mod_le _ _).trans_lt hlt

/-! ## A sweep that tracks the open tags -/

/-- What a state of a sweep has to do with the open tags, and that both
kinds of end points keep it. -/
structure Tracks {S : Type} (elts : List (Elt w s × Bool))
    (update : S → Elt w s → Bool → Option S) (curProperty : S → P) (fdup : P → P)
    (val : Multiset (BitVec s) → P) (Rel : Multiset (BitVec s) → S → Prop) : Prop where
  value : ∀ o cur, Rel o cur → fdup (curProperty cur) = val o
  push : ∀ o cur elt, (elt, true) ∈ elts → Rel o cur →
    ∃ cur', update cur elt true = some cur' ∧ Rel (elt.propIdx ::ₘ o) cur'
  pop : ∀ o cur elt, (elt, false) ∈ elts → elt.propIdx ∈ o → Rel o cur →
    ∃ cur', update cur elt false = some cur' ∧ Rel (o.erase elt.propIdx) cur'

/-- One end point of a balanced list keeps the relation. -/
theorem Tracks.step {S : Type} {elts : List (Elt w s × Bool)}
    {update : S → Elt w s → Bool → Option S} {curProperty : S → P} {fdup : P → P}
    {val : Multiset (BitVec s) → P} {Rel : Multiset (BitVec s) → S → Prop}
    (h : Tracks elts update curProperty fdup val Rel)
    {pre post : List (Event (BitVec w) (BitVec s))}
    {e : Elt w s × Bool} (hbal : Balanced (pre ++ event e :: post)) (he : e ∈ elts) {cur : S}
    (hrel : Rel (openAfter pre) cur) :
    ∃ cur', update cur e.1 e.2 = some cur' ∧ Rel (openAfter (pre ++ [event e])) cur' := by
  obtain ⟨elt, action⟩ := e
  cases action with
  | true =>
    have hpre : closed pre ≤ opened pre := hbal pre _ rfl
    rw [openAfter_append_opens hpre rfl]
    exact h.push _ cur elt he hrel
  | false =>
    have hmem : elt.propIdx ∈ openAfter pre := mem_openAfter hbal rfl
    rw [openAfter_append_closes rfl]
    exact h.pop _ cur elt he hmem hrel

/-- **A sweep that tracks the open tags adds the abstract segments.** -/
theorem sweepLoop_segments {S : Type} {elts : List (Elt w s × Bool)}
    {update : S → Elt w s → Bool → Option S} {curProperty : S → P} {fdup : P → P}
    {val : Multiset (BitVec s) → P} {Rel : Multiset (BitVec s) → S → Prop}
    (h : Tracks elts update curProperty fdup val Rel) (rest : List (Elt w s × Bool))
    (pre : List (Event (BitVec w) (BitVec s))) (prevValue : BitVec w) (cur : S)
    (properties : List (Member w P)) (hbal : Balanced (pre ++ rest.map event))
    (hrest : ∀ e ∈ rest, e ∈ elts) (hrel : Rel (openAfter pre) cur) :
    sweepLoop update curProperty fdup prevValue cur properties rest =
      some (properties ++ segmentsFrom val pre prevValue (rest.map event)) := by
  induction rest generalizing pre prevValue cur properties with
  | nil => simp [sweepLoop, segmentsFrom]
  | cons e rest ih =>
    obtain ⟨cur', hcur', hrel'⟩ := h.step hbal (hrest e List.mem_cons_self) hrel
    have hbal' : Balanced ((pre ++ [event e]) ++ rest.map event) := by
      rw [List.append_assoc]
      exact hbal
    obtain ⟨elt, action⟩ := e
    unfold sweepLoop
    simp only [hcur', Option.bind_eq_bind, Option.bind_some]
    rw [ih _ _ _ _ hbal' (fun e he => hrest e (List.mem_cons_of_mem _ he)) hrel',
      h.value _ _ hrel]
    simp [segmentsFrom]

/-! ## The state of `aggregate_properties` -/

/-- Every end point points at a property. -/
def PropertiesIr.Indexed (ir : PropertiesIr w s P) : Prop :=
  ∀ e ∈ ir.elts, e.1.propIdx.toNat < ir.properties.length

theorem getElem?_eq_propertyAt [Inhabited P] {properties : List P} {i : BitVec s}
    (h : i.toNat < properties.length) :
    properties[i.toNat]? = some (propertyAt properties i) := by
  unfold propertyAt
  rw [List.getElem?_eq_getElem h, Option.getD_some]

theorem property_eq [Inhabited P] {ir : PropertiesIr w s P} {elt : Elt w s}
    (h : elt.propIdx.toNat < ir.properties.length) :
    ir.property elt = some (propertyAt ir.properties elt.propIdx) :=
  getElem?_eq_propertyAt h

/-- The sum of the properties some indices point at. -/
def propertySum {α : Type} (properties : List (Multiset α)) (o : Multiset (BitVec s)) :
    Multiset α :=
  (o.map (propertyAt properties)).sum

/-- `cur_property` is the sum of the open properties: what is removed was
added before. -/
theorem tracks_updateProperty {α : Type} [DecidableEq α] {ir : PropertiesIr w s (Multiset α)}
    (hir : ir.Indexed) :
    Tracks ir.elts (updateProperty ir (· + ·) (· - ·)) id id (propertySum ir.properties)
      (fun o cur => cur = propertySum ir.properties o) where
  value := fun o cur h => h
  push := by
    intro o cur elt helt hcur
    refine ⟨cur + propertyAt ir.properties elt.propIdx, ?_, ?_⟩
    · simp [updateProperty, property_eq (hir _ helt)]
    · rw [hcur, propertySum, propertySum, Multiset.map_cons, Multiset.sum_cons, add_comm]
  pop := by
    intro o cur elt helt hmem hcur
    refine ⟨cur - propertyAt ir.properties elt.propIdx, ?_, ?_⟩
    · simp [updateProperty, property_eq (hir _ helt)]
    · have hsum : propertySum ir.properties o = propertyAt ir.properties elt.propIdx +
          propertySum ir.properties (o.erase elt.propIdx) := by
        unfold propertySum
        rw [← Multiset.sum_cons, ← Multiset.map_cons, Multiset.cons_erase hmem]
      rw [hcur, hsum, add_tsub_cancel_left]

/-! ## The state of `aggregate_properties_no_rem` -/

/-- `merge_properties` combines what its pointers point at. -/
theorem mergeProperties_eq [Inhabited P] {ir : PropertiesIr w s P} {fadd : P → P → P}
    {props : List (BitVec s)} (h : ∀ i ∈ props, i.toNat < ir.properties.length) :
    mergeProperties ir props fadd id =
      some ((combine fadd (props.map (propertyAt ir.properties))).getD default) := by
  have hget : ∀ i ∈ props,
      ir.properties[i.toNat]? = some (propertyAt ir.properties i) := by
    intro i hi
    exact getElem?_eq_propertyAt (h i hi)
  cases props with
  | nil => rfl
  | cons it rest =>
    have hrest : ∀ (ret : P) (l : List (BitVec s)),
        (∀ i ∈ l, ir.properties[i.toNat]? = some (propertyAt ir.properties i)) →
        l.foldlM (fun ret i => do
          let p ← ir.properties[i.toNat]?
          some (fadd ret p)) ret =
        some ((l.map (propertyAt ir.properties)).foldl fadd ret) := by
      intro ret l hl
      induction l generalizing ret with
      | nil => rfl
      | cons i l ih =>
        rw [List.foldlM_cons, hl i List.mem_cons_self]
        exact ih _ fun j hj => hl j (List.mem_cons_of_mem _ hj)
    unfold mergeProperties
    simp only [hget it List.mem_cons_self, Option.bind_eq_bind, Option.bind_some]
    exact hrest _ rest fun i hi => hget i (List.mem_cons_of_mem _ hi)

/-- The combination of the properties some indices point at, and the
default property when there are none. -/
noncomputable def propertyCombination [Inhabited P] (fadd : P → P → P) (properties : List P)
    (o : Multiset (BitVec s)) : P :=
  (combine fadd (o.toList.map (propertyAt properties))).getD default

/-- What `cur_properties` lists is what is open, and `cur_property`
combines it. -/
def CurrentOf [Inhabited P] (ir : PropertiesIr w s P) (fadd : P → P → P)
    (o : Multiset (BitVec s)) (cur : Current s P) : Prop :=
  ↑cur.curProperties = o ∧
    (∀ i ∈ cur.curProperties, i.toNat < ir.properties.length) ∧
    cur.curProperty =
      (combine fadd (cur.curProperties.map (propertyAt ir.properties))).getD default

/-- `cur_properties` lists the open properties, so that the assertion
holds and what is merged is the combination. -/
theorem tracks_updateCurrent [Inhabited P] {ir : PropertiesIr w s P} {fadd : P → P → P}
    (hcomm : ∀ a b, fadd a b = fadd b a)
    (hassoc : ∀ a b c, fadd (fadd a b) c = fadd a (fadd b c)) (hir : ir.Indexed) :
    Tracks ir.elts (updateCurrent ir fadd id) Current.curProperty id
      (propertyCombination fadd ir.properties) (CurrentOf ir fadd) where
  value := by
    intro o cur hcur
    obtain ⟨hopen, _, hprop⟩ := hcur
    have hperm : cur.curProperties.Perm o.toList := by
      rw [← Multiset.coe_eq_coe, Multiset.coe_toList, hopen]
    unfold propertyCombination
    rw [id, hprop, combine_perm hcomm hassoc (hperm.map _)]
  push := by
    intro o cur elt helt hcur
    obtain ⟨hopen, hidx, hprop⟩ := hcur
    refine ⟨⟨if cur.curProperties.length = 0 then propertyAt ir.properties elt.propIdx
      else fadd cur.curProperty (propertyAt ir.properties elt.propIdx),
      cur.curProperties ++ [elt.propIdx]⟩, ?_, ?_, ?_, ?_⟩
    · simp [updateCurrent, property_eq (hir _ helt)]
    · rw [← hopen, Multiset.cons_coe, Multiset.coe_eq_coe]
      exact List.perm_append_singleton _ _
    · intro i hi
      rcases List.mem_append.mp hi with hold | hnew
      · exact hidx i hold
      · rw [List.mem_singleton.mp hnew]
        exact hir _ helt
    · simp only [List.map_append, List.map_cons, List.map_nil, combine_append_singleton,
        Option.getD_some, hprop]
      cases cur.curProperties with
      | nil => rfl
      | cons i is => rfl
  pop := by
    intro o cur elt helt hmem hcur
    obtain ⟨hopen, hidx, hprop⟩ := hcur
    have hin : elt.propIdx ∈ cur.curProperties := by
      rw [← hopen] at hmem
      exact Multiset.mem_coe.mp hmem
    have hidx' : ∀ i ∈ cur.curProperties.erase elt.propIdx, i.toNat < ir.properties.length :=
      fun i hi => hidx i (List.mem_of_mem_erase hi)
    refine ⟨⟨(combine fadd ((cur.curProperties.erase elt.propIdx).map
      (propertyAt ir.properties))).getD default, cur.curProperties.erase elt.propIdx⟩,
      ?_, ?_, hidx', rfl⟩
    · simp [updateCurrent, property_eq (hir _ helt), hin, mergeProperties_eq hidx']
    · rw [← hopen, Multiset.coe_erase]

/-! ## Both sweeps on a batch of calls -/

/-- The end points of a batch, sorted. -/
def sortedEvents (sort : EltSort w s) (calls : List (Member w P)) :
    List (Event (BitVec w) (BitVec s)) :=
  (sort.run (({} : PropertiesIr w s P).addAll calls).elts).map event

theorem sortedEvents_perm (sort : EltSort w s) (calls : List (Member w P)) :
    (sortedEvents sort calls).Perm (events (spans s 0 calls)) := by
  have h := addAll_events ({} : PropertiesIr w s P) calls
  rw [List.map_nil, List.nil_append, List.length_nil] at h
  rw [← h]
  exact (sort.perm _).map _

theorem sortedEvents_sorted (sort : EltSort w s) (calls : List (Member w P)) :
    (sortedEvents sort calls).Pairwise fun a b => a.key ≤ b.key :=
  List.pairwise_map.mpr (sort.sorted _)

theorem length_sortedEvents (sort : EltSort w s) (calls : List (Member w P)) :
    (sortedEvents sort calls).length = 2 * calls.length := by
  rw [(sortedEvents_perm sort calls).length_eq, length_events, length_spans]

theorem length_addAll (calls : List (Member w P)) :
    (({} : PropertiesIr w s P).addAll calls).elts.length = 2 * calls.length := by
  have h := congrArg List.length (addAll_events ({} : PropertiesIr w s P) calls)
  simpa [length_spans] using h

theorem addAll_indexed (calls : List (Member w P)) :
    (({} : PropertiesIr w s P).addAll calls).Indexed := by
  intro e he
  have hmem : event e ∈ events (spans s 0 calls) := by
    have h := addAll_events ({} : PropertiesIr w s P) calls
    rw [List.map_nil, List.nil_append, List.length_nil] at h
    rw [← h]
    exact List.mem_map_of_mem he
  obtain ⟨t, ht, htag⟩ := mem_events.mp hmem
  have heq : e.1.propIdx = t.2 := by
    rcases htag with h | h
    · exact congrArg Event.tag h
    · exact congrArg Event.tag h
  rw [heq, addAll_properties, List.nil_append, List.length_map]
  exact tag_lt_of_mem_spans ht

/-- The size of a batch that fits `size_type`. -/
theorem toNat_sizeElts {calls : List (Member w P)} (hn : 2 * calls.length < 2 ^ s) :
    (({} : PropertiesIr w s P).addAll calls).sizeElts.toNat = 2 * calls.length := by
  unfold PropertiesIr.sizeElts
  rw [length_addAll, BitVec.toNat_ofNat, Nat.mod_eq_of_lt hn]

/-- What a batch that fits `size_type` makes a sweep start with. -/
theorem batch_start {calls : List (Member w P)} (hne : calls ≠ [])
    (hn : 2 * calls.length < 2 ^ s) (sort : EltSort w s) :
    (({} : PropertiesIr w s P).addAll calls).sizeElts ≠ 0 ∧
      (({} : PropertiesIr w s P).addAll calls).sizeElts.toNat % 2 = 0 ∧
      ∃ first rest,
        sort.run (({} : PropertiesIr w s P).addAll calls).elts = first :: rest ∧
        (sort.run (({} : PropertiesIr w s P).addAll calls).elts).take
          (({} : PropertiesIr w s P).addAll calls).sizeElts.toNat = first :: rest := by
  have hpos : 0 < calls.length := List.length_pos_iff.mpr hne
  have hsize := toNat_sizeElts hn
  refine ⟨?_, by omega, ?_⟩
  · intro hzero
    have htoNat : (0 : BitVec s).toNat = 0 := by simp
    rw [hzero, htoNat] at hsize
    omega
  · have hall : (sort.run (({} : PropertiesIr w s P).addAll calls).elts).take
        (({} : PropertiesIr w s P).addAll calls).sizeElts.toNat =
        sort.run (({} : PropertiesIr w s P).addAll calls).elts := by
      apply List.take_of_length_le
      rw [sort.length_run, length_addAll, hsize]
    have hrun : sort.run (({} : PropertiesIr w s P).addAll calls).elts ≠ [] := by
      apply sort.run_ne_nil
      intro hnil
      have hlen := length_addAll (s := s) calls
      rw [hnil, List.length_nil] at hlen
      omega
    obtain ⟨first, rest, hcons⟩ := List.exists_cons_of_ne_nil hrun
    exact ⟨first, rest, hcons, hall.trans hcons⟩

/-- **A sweep that tracks the open tags adds the segments of its batch**:
the first end point opens the first tag, and the loop does the rest. -/
theorem aggregateWith_segments [Inhabited P] {S : Type} (l : ListIntervalsProperties w s P)
    {calls : List (Member w P)} (hir : l.ir = {}) (hne : calls ≠ [])
    (hn : 2 * calls.length < 2 ^ s) (hproper : ∀ c ∈ calls, c.1.Proper) (sort : EltSort w s)
    {update : S → Elt w s → Bool → Option S} {start : P → BitVec s → S} {curProperty : S → P}
    {val : Multiset (BitVec s) → P} {Rel : Multiset (BitVec s) → S → Prop}
    (htracks : Tracks (({} : PropertiesIr w s P).addAll calls).elts update curProperty id val Rel)
    (hstart : ∀ i : BitVec s, i.toNat < calls.length →
      Rel {i} (start (propertyAt (calls.map (·.2)) i) i)) :
    (l.addProperties calls).aggregateWith sort update start curProperty id =
      some { properties := l.properties ++ segments val (sortedEvents sort calls) } := by
  obtain ⟨hzero, heven, first, rest, hrun, htake⟩ := batch_start hne hn sort
  have helts : ∀ e ∈ first :: rest, e ∈ (({} : PropertiesIr w s P).addAll calls).elts := by
    intro e he
    rw [← sort.mem_run, hrun]
    exact he
  have hprops := addAll_properties ({} : PropertiesIr w s P) calls
  rw [List.nil_append] at hprops
  have hidx := addAll_indexed calls first (helts first List.mem_cons_self)
  have hfirst := property_eq hidx
  rw [hprops] at hfirst
  rw [hprops, List.length_map] at hidx
  have hevents : sortedEvents sort calls = event first :: rest.map event := by
    rw [sortedEvents, hrun, List.map_cons]
  have hbal : Balanced (event first :: rest.map event) := by
    rw [← hevents]
    exact balanced_of_sorted (sortedEvents_perm sort calls) (sortedEvents_sorted sort calls)
      (spans_proper hproper)
  have hopen : openAfter [event first] = {first.1.propIdx} := by
    have hnil : closed ([] : List (Event (BitVec w) (BitVec s))) ≤ opened [] := le_refl _
    exact openAfter_append_opens hnil (opens_of_balanced hbal)
  have hloop := sweepLoop_segments htracks rest [event first] first.1.x
    (start (propertyAt (calls.map (·.2)) first.1.propIdx) first.1.propIdx) l.properties hbal
    (fun e he => helts e (List.mem_cons_of_mem _ he)) (hopen.symm ▸ hstart _ hidx)
  rw [addProperties_eq, hir, hevents]
  unfold aggregateWith
  rw [if_neg hzero, if_pos heven]
  simp only [htake, hfirst, Option.bind_eq_bind, Option.bind_some, id_eq]
  rw [hloop, Option.bind_some]
  rfl

/-- **`aggregate_properties` adds the segments of its batch**, each with
the sum of the properties open on it. -/
theorem aggregateProperties_segments {α : Type} [DecidableEq α]
    (l : ListIntervalsProperties w s (Multiset α)) {calls : List (Member w (Multiset α))}
    (hir : l.ir = {}) (hne : calls ≠ []) (hn : 2 * calls.length < 2 ^ s)
    (hproper : ∀ c ∈ calls, c.1.Proper) (sort : EltSort w s) :
    (l.addProperties calls).aggregateProperties sort (· + ·) (· - ·) id =
      some { properties := l.properties ++
        segments (propertySum (calls.map (·.2))) (sortedEvents sort calls) } := by
  have hprops := addAll_properties ({} : PropertiesIr w s (Multiset α)) calls
  rw [List.nil_append] at hprops
  have htracks := tracks_updateProperty (addAll_indexed (s := s) calls)
  rw [hprops] at htracks
  have hadd : (l.addProperties calls).ir = ({} : PropertiesIr w s (Multiset α)).addAll calls := by
    rw [addProperties_eq, hir]
  unfold aggregateProperties
  rw [hadd]
  refine aggregateWith_segments l hir hne hn hproper sort htracks ?_
  intro i _
  rw [propertySum, Multiset.map_singleton, Multiset.sum_singleton]

/-- **`aggregate_properties_no_rem` adds the segments of its batch**, each
with the combination of the properties open on it; its assertion holds. -/
theorem aggregatePropertiesNoRem_segments [Inhabited P] {fadd : P → P → P}
    (hcomm : ∀ a b, fadd a b = fadd b a)
    (hassoc : ∀ a b c, fadd (fadd a b) c = fadd a (fadd b c))
    (l : ListIntervalsProperties w s P) {calls : List (Member w P)} (hir : l.ir = {})
    (hne : calls ≠ []) (hn : 2 * calls.length < 2 ^ s) (hproper : ∀ c ∈ calls, c.1.Proper)
    (sort : EltSort w s) :
    (l.addProperties calls).aggregatePropertiesNoRem sort fadd id =
      some { properties := l.properties ++
        segments (propertyCombination fadd (calls.map (·.2))) (sortedEvents sort calls) } := by
  have hprops := addAll_properties ({} : PropertiesIr w s P) calls
  rw [List.nil_append] at hprops
  have htracks := tracks_updateCurrent hcomm hassoc (addAll_indexed (s := s) calls)
  rw [hprops] at htracks
  have hadd : (l.addProperties calls).ir = ({} : PropertiesIr w s P).addAll calls := by
    rw [addProperties_eq, hir]
  unfold aggregatePropertiesNoRem
  rw [hadd]
  refine aggregateWith_segments l hir hne hn hproper sort htracks ?_
  intro i hi
  refine ⟨rfl, ?_, ?_⟩
  · intro j hj
    rw [List.mem_singleton.mp hj, hprops, List.length_map]
    exact hi
  · rw [hprops]
    rfl

/-! ## The intervals of the segments, for any number of calls -/

/-- The loop adds the gaps between its end points, whatever it does with
the properties. -/
theorem sweepLoop_intervals {S : Type} {update : S → Elt w s → Bool → Option S}
    {curProperty : S → P} {fdup : P → P} {prevValue : BitVec w} {cur : S}
    {properties r : List (Member w P)} {rest : List (Elt w s × Bool)}
    (h : sweepLoop update curProperty fdup prevValue cur properties rest = some r) :
    r.map (·.1) = properties.map (·.1) ++ gaps prevValue (rest.map (·.1.x)) := by
  induction rest generalizing prevValue cur properties with
  | nil =>
    cases h
    simp [gaps]
  | cons e rest ih =>
    obtain ⟨elt, action⟩ := e
    unfold sweepLoop at h
    obtain ⟨cur', _, h⟩ := Option.bind_eq_some_iff.mp h
    rw [ih h]
    simp [gaps]

/-- **An aggregation clears the segments, or adds the gaps between the end
points it looks at and empties the intermediate representation.** -/
theorem aggregateWith_cases {S : Type} {sort : EltSort w s}
    {update : S → Elt w s → Bool → Option S} {start : P → BitVec s → S} {curProperty : S → P}
    {fdup : P → P} {l l' : ListIntervalsProperties w s P}
    (h : l.aggregateWith sort update start curProperty fdup = some l') :
    (l.ir.sizeElts = 0 ∧ l' = { l with properties := [] }) ∨
    (l.ir.sizeElts ≠ 0 ∧ l'.ir = {} ∧ l'.properties.map (·.1) = l.properties.map (·.1) ++
      gapsOf (((sort.run l.ir.elts).take l.ir.sizeElts.toNat).map (·.1.x))) := by
  unfold aggregateWith at h
  by_cases hzero : l.ir.sizeElts = 0
  · rw [if_pos hzero] at h
    exact Or.inl ⟨hzero, (Option.some.inj h).symm⟩
  · rw [if_neg hzero] at h
    split at h
    · split at h
      · cases h
      · rename_i first action rest htake
        obtain ⟨p, _, h⟩ := Option.bind_eq_some_iff.mp h
        obtain ⟨properties, hloop, h⟩ := Option.bind_eq_some_iff.mp h
        cases h
        rw [htake]
        exact Or.inr ⟨hzero, rfl, sweepLoop_intervals hloop⟩
    · cases h

/-- The keys of the end points a sweep looks at. -/
def sweptKeys (sort : EltSort w s) (calls : List (Member w P)) : List (BitVec w) :=
  ((sortedEvents sort calls).take (2 * calls.length % 2 ^ s)).map (·.key)

theorem sweptKeys_eq (sort : EltSort w s) (calls : List (Member w P)) :
    sweptKeys sort calls =
      ((sort.run (({} : PropertiesIr w s P).addAll calls).elts).take
        (({} : PropertiesIr w s P).addAll calls).sizeElts.toNat).map (·.1.x) := by
  rw [sweptKeys, sortedEvents, ← List.map_take, List.map_map]
  unfold PropertiesIr.sizeElts
  rw [length_addAll, BitVec.toNat_ofNat]
  rfl

/-- **A sweep stores the gaps between the end points it looks at**, however
many calls there are. -/
theorem aggregateWith_intervals {S : Type} {sort : EltSort w s} {calls : List (Member w P)}
    {update : S → Elt w s → Bool → Option S} {start : P → BitVec s → S} {curProperty : S → P}
    {fdup : P → P} {l : ListIntervalsProperties w s P}
    (h : (({} : ListIntervalsProperties w s P).addProperties calls).aggregateWith sort update
      start curProperty fdup = some l) :
    l.properties.map (·.1) = gapsOf (sweptKeys sort calls) := by
  rw [addProperties_eq] at h
  obtain ⟨hzero, rfl⟩ | ⟨_, _, hgaps⟩ := aggregateWith_cases h
  · rw [sweptKeys_eq, hzero]
    simp [gapsOf]
  · rw [hgaps, sweptKeys_eq]
    rfl

end Leeloo
