/-
Leeloo.PropertyRuns — sequences of `add_property` and of the two
aggregations on one list.

An aggregation appends the segments of its batch behind those stored
before and never looks at them; only an aggregation of nothing clears the
storage. `inOrder_aggregation_iff` is the step: the segments stay in order
exactly when the batch starts where the stored segments have ended
(`BatchAbove`). Over a run this is `propertyRun_inOrder_iff`.

No aggregation of non-empty intervals fails, whatever the property
functions compute: the assertions only depend on the end points
(`exists_aggregateWith`).
-/
import Leeloo.PropertyOf
import Leeloo.PropertySweep

namespace Leeloo

open HalfOpen Sweep Leeloo.Interval ListIntervalsProperties

variable {w s : Nat} {P : Type}

/-! ## Aggregations do not fail -/

/-- Whether the loop fails depends on its updates only. -/
theorem sweepLoop_isSome {S Q : Type} (update : S → Elt w s → Bool → Option S)
    (curProperty : S → P) (fdup : P → P) (curProperty' : S → Q) (fdup' : Q → Q)
    (prevValue : BitVec w) (cur : S) (properties : List (Member w P))
    (properties' : List (Member w Q)) (rest : List (Elt w s × Bool)) :
    (sweepLoop update curProperty fdup prevValue cur properties rest).isSome =
      (sweepLoop update curProperty' fdup' prevValue cur properties' rest).isSome := by
  induction rest generalizing prevValue cur properties properties' with
  | nil => rfl
  | cons e rest ih =>
    obtain ⟨elt, action⟩ := e
    unfold sweepLoop
    cases update cur elt action with
    | none => rfl
    | some cur' => exact ih _ _ _ _

/-- What a sweep needs in order not to fail: nothing is said about the
properties, so their type is `Unit`. -/
abbrev Proceeds {S : Type} (elts : List (Elt w s × Bool)) (update : S → Elt w s → Bool → Option S)
    (Rel : Multiset (BitVec s) → S → Prop) : Prop :=
  Tracks elts update (fun _ => ()) id (fun _ => ()) Rel

theorem PropertiesIr.Indexed.exists_property {ir : PropertiesIr w s P} (h : ir.Indexed)
    {elt : Elt w s} {action : Bool} (he : (elt, action) ∈ ir.elts) :
    ∃ p, ir.property elt = some p :=
  ⟨_, List.getElem?_eq_getElem (h _ he)⟩

theorem proceeds_updateProperty {ir : PropertiesIr w s P} (hir : ir.Indexed)
    (fadd fremove : P → P → P) :
    Proceeds ir.elts (updateProperty ir fadd fremove) fun _ _ => True where
  value := fun _ _ _ => rfl
  push := by
    intro o cur elt he _
    obtain ⟨p, hp⟩ := hir.exists_property he
    exact ⟨fadd cur p, by simp [updateProperty, hp], trivial⟩
  pop := by
    intro o cur elt he _ _
    obtain ⟨p, hp⟩ := hir.exists_property he
    exact ⟨fremove cur p, by simp [updateProperty, hp], trivial⟩

/-- Pointers to properties can be merged. -/
theorem exists_mergeProperties [Inhabited P] {ir : PropertiesIr w s P} {props : List (BitVec s)}
    (h : ∀ i ∈ props, i.toNat < ir.properties.length) (fadd : P → P → P) (fdup : P → P) :
    ∃ p, mergeProperties ir props fadd fdup = some p := by
  cases props with
  | nil => exact ⟨default, rfl⟩
  | cons it rest =>
    have hget : ∀ i ∈ it :: rest, ∃ p, ir.properties[i.toNat]? = some p := fun i hi =>
      ⟨_, List.getElem?_eq_getElem (h i hi)⟩
    obtain ⟨first, hfirst⟩ := hget it List.mem_cons_self
    unfold mergeProperties
    simp only [hfirst, Option.bind_eq_bind, Option.bind_some]
    generalize fdup first = ret
    replace hget := fun i hi => hget i (List.mem_cons_of_mem _ hi)
    clear h
    induction rest generalizing ret with
    | nil => exact ⟨ret, rfl⟩
    | cons i rest ih =>
      obtain ⟨p, hp⟩ := hget i List.mem_cons_self
      rw [List.foldlM_cons, hp]
      exact ih _ fun j hj => hget j (List.mem_cons_of_mem _ hj)

/-- What `cur_properties` lists is what is open. -/
def ListsOpen (ir : PropertiesIr w s P) (o : Multiset (BitVec s)) (cur : Current s P) : Prop :=
  ↑cur.curProperties = o ∧ ∀ i ∈ cur.curProperties, i.toNat < ir.properties.length

theorem proceeds_updateCurrent [Inhabited P] {ir : PropertiesIr w s P} (hir : ir.Indexed)
    (fadd : P → P → P) (fdup : P → P) :
    Proceeds ir.elts (updateCurrent ir fadd fdup) (ListsOpen ir) where
  value := fun _ _ _ => rfl
  push := by
    intro o cur elt he hcur
    obtain ⟨hopen, hidx⟩ := hcur
    obtain ⟨p, hp⟩ := hir.exists_property he
    refine ⟨⟨if cur.curProperties.length = 0 then fdup p else fadd cur.curProperty p,
      cur.curProperties ++ [elt.propIdx]⟩, by simp [updateCurrent, hp], ?_, ?_⟩
    · rw [← hopen, Multiset.cons_coe, Multiset.coe_eq_coe]
      exact List.perm_append_singleton _ _
    · intro i hi
      rcases List.mem_append.mp hi with hold | hnew
      · exact hidx i hold
      · rw [List.mem_singleton.mp hnew]
        exact hir _ he
  pop := by
    intro o cur elt he hmem hcur
    obtain ⟨hopen, hidx⟩ := hcur
    obtain ⟨p, hp⟩ := hir.exists_property he
    -- the assertion: what is popped is in the list
    have hin : elt.propIdx ∈ cur.curProperties := by
      rw [← hopen] at hmem
      exact Multiset.mem_coe.mp hmem
    have hidx' : ∀ i ∈ cur.curProperties.erase elt.propIdx, i.toNat < ir.properties.length :=
      fun i hi => hidx i (List.mem_of_mem_erase hi)
    obtain ⟨q, hq⟩ := exists_mergeProperties hidx' fadd fdup
    refine ⟨⟨q, cur.curProperties.erase elt.propIdx⟩, ?_, ?_, hidx'⟩
    · simp [updateCurrent, hp, hin, hq]
    · rw [← hopen, Multiset.coe_erase]

/-- The intermediate representation holds the calls since the last sweep,
with non-empty intervals. -/
structure HoldsBatch (l : ListIntervalsProperties w s P) (batch : List (Member w P)) : Prop where
  ir_eq : l.ir = ({} : PropertiesIr w s P).addAll batch
  proper : ∀ c ∈ batch, c.1.Proper

namespace HoldsBatch

variable {l : ListIntervalsProperties w s P} {batch : List (Member w P)}

theorem indexed (h : HoldsBatch l batch) : l.ir.Indexed := by
  rw [h.ir_eq]
  exact addAll_indexed batch

theorem length_elts (h : HoldsBatch l batch) : l.ir.elts.length = 2 * batch.length := by
  rw [h.ir_eq, length_addAll]

theorem toNat_sizeElts (h : HoldsBatch l batch) :
    l.ir.sizeElts.toNat = 2 * batch.length % 2 ^ s := by
  rw [PropertiesIr.sizeElts, h.length_elts, BitVec.toNat_ofNat]

/-- The number of end points is even, also where it wraps. -/
theorem two_dvd_sizeElts (h : HoldsBatch l batch) (hs : l.ir.sizeElts ≠ 0) :
    l.ir.sizeElts.toNat % 2 = 0 := by
  cases s with
  | zero => exact absurd (Subsingleton.elim _ _) hs
  | succ s =>
    have hdvd : 2 ∣ 2 ^ (s + 1) := ⟨2 ^ s, by rw [pow_succ, Nat.mul_comm]⟩
    rw [h.toNat_sizeElts, Nat.mod_mod_of_dvd _ hdvd, Nat.mul_mod_right]

/-- A batch that is not empty has at least its first two end points. -/
theorem exists_take (h : HoldsBatch l batch) (hs : l.ir.sizeElts ≠ 0) (sort : EltSort w s) :
    ∃ e₀ e₁ rest, sort.run l.ir.elts = e₀ :: e₁ :: rest ∧
      (sort.run l.ir.elts).take l.ir.sizeElts.toNat =
        e₀ :: e₁ :: rest.take (l.ir.sizeElts.toNat - 2) := by
  have heven := h.two_dvd_sizeElts hs
  have hpos : 0 < l.ir.sizeElts.toNat :=
    Nat.pos_of_ne_zero fun h0 => hs (BitVec.eq_of_toNat_eq (by simpa using h0))
  have hle : l.ir.sizeElts.toNat ≤ (sort.run l.ir.elts).length := by
    rw [sort.length_run, h.length_elts, h.toNat_sizeElts]
    exact Nat.mod_le _ _
  obtain ⟨n, hn⟩ : ∃ n, l.ir.sizeElts.toNat = n + 2 := ⟨l.ir.sizeElts.toNat - 2, by omega⟩
  rw [hn] at hle ⊢
  match hrun : sort.run l.ir.elts with
  | [] => simp [hrun] at hle
  | [e₀] => simp [hrun] at hle
  | e₀ :: e₁ :: rest => exact ⟨e₀, e₁, rest, rfl, rfl⟩

end HoldsBatch

/-- **An aggregation of non-empty intervals does not fail.** -/
theorem exists_aggregateWith {S : Type} {l : ListIntervalsProperties w s P}
    {batch : List (Member w P)} (h : HoldsBatch l batch) (sort : EltSort w s)
    {update : S → Elt w s → Bool → Option S} (start : P → BitVec s → S) (curProperty : S → P)
    (fdup : P → P) {Rel : Multiset (BitVec s) → S → Prop}
    (hproceeds : Proceeds l.ir.elts update Rel)
    (hstart : ∀ p i, i.toNat < l.ir.properties.length → Rel {i} (start p i)) :
    ∃ l', l.aggregateWith sort update start curProperty fdup = some l' := by
  unfold aggregateWith
  by_cases hzero : l.ir.sizeElts = 0
  · exact ⟨_, if_pos hzero⟩
  · obtain ⟨first, next, rest, hrun, htake⟩ := h.exists_take hzero sort
    have helts : ∀ e ∈ first :: next :: rest, e ∈ l.ir.elts := fun e he =>
      sort.mem_run.mp (hrun ▸ he)
    obtain ⟨p, hp⟩ := h.indexed.exists_property (helts first List.mem_cons_self)
    have hbal : Balanced (((sort.run l.ir.elts).take l.ir.sizeElts.toNat).map event) := by
      have hsorted := balanced_of_sorted (sortedEvents_perm sort batch)
        (sortedEvents_sorted sort batch) (spans_proper h.proper)
      rw [List.map_take, h.ir_eq]
      exact hsorted.take _
    rw [htake] at hbal
    have hnil : closed ([] : List (Event (BitVec w) (BitVec s))) ≤ opened [] := le_refl _
    have hopen : openAfter [event first] = {first.1.propIdx} :=
      openAfter_append_opens hnil (opens_of_balanced hbal)
    have hloop := sweepLoop_segments hproceeds (next :: rest.take (l.ir.sizeElts.toNat - 2))
      [event first] first.1.x (start (fdup p) first.1.propIdx) [] hbal (by
        intro e he
        refine helts e (List.mem_cons_of_mem _ ?_)
        rcases List.mem_cons.mp he with rfl | he
        · exact List.mem_cons_self
        · exact List.mem_cons_of_mem _ (List.mem_of_mem_take he))
      (hopen.symm ▸ hstart _ _ (h.indexed first (helts first List.mem_cons_self)))
    have hsome := sweepLoop_isSome update curProperty fdup (fun _ => ()) id first.1.x
      (start (fdup p) first.1.propIdx) l.properties []
      (next :: rest.take (l.ir.sizeElts.toNat - 2))
    rw [hloop, Option.isSome_some] at hsome
    obtain ⟨properties, hproperties⟩ := Option.isSome_iff_exists.mp hsome
    rw [if_neg hzero, if_pos (h.two_dvd_sizeElts hzero)]
    simp only [htake, hp, hproperties, Option.bind_eq_bind, Option.bind_some]
    exact ⟨_, rfl⟩

/-! ## The calls -/

/-- A call that changes a list of properties; the functions of an
aggregation and its sort are its own. -/
inductive PropertyCall (w s : Nat) (P : Type) where
  /-- `add_property`. -/
  | add (i : Interval w) (p : P)
  /-- `aggregate_properties`. -/
  | aggregate (sort : EltSort w s) (fadd fremove : P → P → P) (fdup : P → P)
  /-- `aggregate_properties_no_rem`. -/
  | aggregateNoRem (sort : EltSort w s) (fadd : P → P → P) (fdup : P → P)

namespace PropertyCall

/-- The call adds a non-empty interval, if it adds one. -/
def Proper : PropertyCall w s P → Prop
  | add i _ => i.Proper
  | _ => True

def IsAggregation : PropertyCall w s P → Prop
  | add _ _ => False
  | _ => True

instance : DecidablePred (Proper : PropertyCall w s P → Prop)
  | add i _ => inferInstanceAs (Decidable i.Proper)
  | aggregate _ _ _ _ => isTrue trivial
  | aggregateNoRem _ _ _ => isTrue trivial

instance : DecidablePred (IsAggregation : PropertyCall w s P → Prop)
  | add _ _ => isFalse id
  | aggregate _ _ _ _ => isTrue trivial
  | aggregateNoRem _ _ _ => isTrue trivial

/-- The effect of a call; `none` is a failed assertion. -/
def step [Inhabited P] (l : ListIntervalsProperties w s P) :
    PropertyCall w s P → Option (ListIntervalsProperties w s P)
  | add i p => some (l.addProperty i p)
  | aggregate sort fadd fremove fdup => l.aggregateProperties sort fadd fremove fdup
  | aggregateNoRem sort fadd fdup => l.aggregatePropertiesNoRem sort fadd fdup

end PropertyCall

section Runs

variable [Inhabited P]

/-- No call of the run from `l` fails, and `Q` holds in every state. -/
def Along (Q : ListIntervalsProperties w s P → Prop) (l : ListIntervalsProperties w s P) :
    List (PropertyCall w s P) → Prop
  | [] => Q l
  | c :: calls => Q l ∧ ∃ l', c.step l = some l' ∧ Along Q l' calls

/-- `Q` holds in every state of the run from `l` in which an aggregation is
called. -/
def BeforeEach (Q : ListIntervalsProperties w s P → Prop) (l : ListIntervalsProperties w s P) :
    List (PropertyCall w s P) → Prop
  | [] => True
  | c :: calls => (c.IsAggregation → Q l) ∧ ∀ l', c.step l = some l' → BeforeEach Q l' calls

instance decidableBeforeEach (Q : ListIntervalsProperties w s P → Prop) [DecidablePred Q] :
    ∀ l calls, Decidable (BeforeEach Q l calls)
  | _, [] => isTrue trivial
  | l, c :: calls =>
    have : ∀ l', Decidable (BeforeEach Q l' calls) := fun l' => decidableBeforeEach Q l' calls
    inferInstanceAs (Decidable ((c.IsAggregation → Q l) ∧ ∀ l' ∈ c.step l, BeforeEach Q l' calls))

end Runs

/-! ## One step -/

/-- Each stored segment ends where the next starts, or below. -/
def InOrder (l : ListIntervalsProperties w s P) : Prop := Consecutive (l.properties.map (·.1))

/-- The pending batch, if it is swept, starts where the stored segments
have ended. -/
def BatchAbove (l : ListIntervalsProperties w s P) : Prop :=
  l.ir.sizeElts ≠ 0 → ∀ m ∈ l.properties, ∀ e ∈ l.ir.elts, m.1.upper ≤ e.1.x

instance : DecidablePred (BatchAbove : ListIntervalsProperties w s P → Prop) := fun _ =>
  inferInstanceAs (Decidable (_ → _))

/-- The outcome of an aggregation: the segments are cleared, or gaps are
appended and the batch is gone. -/
def Aggregated (sort : EltSort w s) (l l' : ListIntervalsProperties w s P) : Prop :=
  (l.ir.sizeElts = 0 ∧ l' = { l with properties := [] }) ∨
  (l.ir.sizeElts ≠ 0 ∧ l'.ir = {} ∧ l'.properties.map (·.1) = l.properties.map (·.1) ++
    gapsOf (((sort.run l.ir.elts).take l.ir.sizeElts.toNat).map (·.1.x)))

section Steps

variable {l l' : ListIntervalsProperties w s P} {batch : List (Member w P)} {sort : EltSort w s}

theorem HoldsBatch.nil : HoldsBatch ({} : ListIntervalsProperties w s P) [] :=
  ⟨rfl, fun _ hc => (List.not_mem_nil hc).elim⟩

theorem HoldsBatch.add (h : HoldsBatch l batch) {i : Interval w} (hi : i.Proper) (p : P) :
    HoldsBatch (l.addProperty i p) (batch ++ [(i, p)]) := by
  constructor
  · show l.ir.add i p = _
    rw [h.ir_eq, PropertiesIr.addAll, PropertiesIr.addAll, List.foldl_append]
    rfl
  · intro c hc
    rcases List.mem_append.mp hc with hc | hc
    · exact h.proper c hc
    · rw [List.mem_singleton.mp hc]
      exact hi

theorem Aggregated.holdsBatch (h : Aggregated sort l l') (hb : HoldsBatch l batch) :
    ∃ batch', HoldsBatch l' batch' := by
  obtain ⟨_, rfl⟩ | ⟨_, hir, _⟩ := h
  · exact ⟨batch, hb.ir_eq, hb.proper⟩
  · exact ⟨[], hir, fun _ hc => (List.not_mem_nil hc).elim⟩

/-- **An aggregation keeps the order exactly when its batch starts where
the stored segments have ended.** -/
theorem inOrder_aggregation_iff (h : Aggregated sort l l') (hb : HoldsBatch l batch)
    (hl : InOrder l) : InOrder l' ↔ BatchAbove l := by
  obtain ⟨hzero, rfl⟩ | ⟨hzero, _, hgaps⟩ := h
  · refine iff_of_true ⟨?_, ?_⟩ fun hne => absurd hzero hne
    · exact fun i hi => (List.not_mem_nil hi).elim
    · exact List.Pairwise.nil
  · obtain ⟨e₀, e₁, rest, hrun, htake⟩ := hb.exists_take hzero sort
    have hsorted : (e₀ :: e₁ :: rest).Pairwise fun a b => a.1.x ≤ b.1.x := hrun ▸ sort.sorted _
    have hmem : ∀ e, e ∈ l.ir.elts ↔ e ∈ e₀ :: e₁ :: rest := fun e => by
      rw [← hrun, sort.mem_run]
    have hkeys :
        (((sort.run l.ir.elts).take l.ir.sizeElts.toNat).map (·.1.x)).Pairwise (· ≤ ·) := by
      rw [hrun]
      exact List.pairwise_map.mpr (hsorted.sublist (List.take_sublist _ _))
    have hbatch : Consecutive
        (gapsOf (((sort.run l.ir.elts).take l.ir.sizeElts.toNat).map (·.1.x))) :=
      consecutive_gapsOf hkeys
    unfold InOrder at hl ⊢
    rw [hgaps, consecutive_append_iff, and_iff_right hl, and_iff_right hbatch]
    constructor
    · -- the first gap starts at the least end point
      intro hcross _ m hm e he
      have hfirst : (⟨e₀.1.x, e₁.1.x⟩ : Interval w) ∈
          gapsOf (((sort.run l.ir.elts).take l.ir.sizeElts.toNat).map (·.1.x)) := by
        rw [htake]
        exact List.mem_cons_self
      refine (hcross m.1 (List.mem_map_of_mem hm) _ hfirst).trans ?_
      rcases List.mem_cons.mp ((hmem e).mp he) with rfl | he
      · exact le_refl _
      · exact (List.pairwise_cons.mp hsorted).1 e he
    · intro habove i hi g hg
      obtain ⟨m, hm, rfl⟩ := List.mem_map.mp hi
      obtain ⟨e, he, hx⟩ := List.mem_map.mp (bounds_of_mem_gapsOf hg).1
      rw [← hx]
      exact habove hzero m hm e (sort.mem_run.mp (List.mem_of_mem_take he))

end Steps

/-! ## The lookup in one state -/

/-- `property_of` finds a segment that contains `v` whenever one does. -/
def Searchable (l : ListIntervalsProperties w s P) : Prop :=
  ∀ v, (∃ m ∈ l.properties, m.1.contains v = true) →
    ∃ m ∈ l.properties, m.1.contains v = true ∧ l.Returns v (some m.2)

/-- So many segments can be searched: the midpoint does not wrap. -/
def FitsSearch (s n : Nat) : Prop := 2 * n ≤ 2 ^ s + 4 ∧ n < 2 ^ s

instance (s n : Nat) : Decidable (FitsSearch s n) := inferInstanceAs (Decidable (_ ∧ _))

/-- The segments can still be searched when those of the pending batch, one
less than its end points, are behind them. -/
def BatchFits (l : ListIntervalsProperties w s P) : Prop :=
  l.ir.sizeElts ≠ 0 → FitsSearch s (l.properties.length + (l.ir.sizeElts.toNat - 1))

instance : DecidablePred (BatchFits : ListIntervalsProperties w s P → Prop) := fun _ =>
  inferInstanceAs (Decidable (_ → _))

theorem InOrder.searchable {l : ListIntervalsProperties w s P} (hl : InOrder l)
    (hn : FitsSearch s l.properties.length) : Searchable l := by
  intro v ⟨m, hm, hmv⟩
  obtain ⟨r, hr, hnone⟩ := exists_returns hl hn.1 hn.2 v
  cases r with
  | none => exact absurd hmv (hnone.mp rfl m hm)
  | some p =>
    obtain ⟨m', hm', hmv', rfl⟩ := member_of_returns hr
    exact ⟨m', hm', hmv', hr⟩

theorem Aggregated.fitsSearch {sort : EltSort w s} {l l' : ListIntervalsProperties w s P}
    {batch : List (Member w P)} (h : Aggregated sort l l') (hb : HoldsBatch l batch)
    (hfits : BatchFits l) : FitsSearch s l'.properties.length := by
  obtain ⟨_, rfl⟩ | ⟨hzero, _, hgaps⟩ := h
  · have hpos := Nat.two_pow_pos s
    exact ⟨by simp, hpos⟩
  · have hle : l.ir.sizeElts.toNat ≤ l.ir.elts.length := by
      rw [hb.length_elts, hb.toNat_sizeElts]
      exact Nat.mod_le _ _
    have hlen := congrArg List.length hgaps
    rw [List.length_map, List.length_append, List.length_map, length_gapsOf, List.length_map,
      List.length_take, sort.length_run, Nat.min_eq_left hle] at hlen
    rw [hlen]
    exact hfits hzero

section Steps

variable [Inhabited P]

/-- Both aggregations end, with the outcome above. -/
theorem PropertyCall.exists_step {c : PropertyCall w s P} (hc : c.IsAggregation)
    {l : ListIntervalsProperties w s P} {batch : List (Member w P)} (hb : HoldsBatch l batch) :
    ∃ sort l', c.step l = some l' ∧ Aggregated sort l l' := by
  cases c with
  | add i p => exact hc.elim
  | aggregate sort fadd fremove fdup =>
    obtain ⟨l', hl'⟩ := exists_aggregateWith hb sort (fun p _ => p) id fdup
      (proceeds_updateProperty hb.indexed fadd fremove) fun _ _ _ => trivial
    exact ⟨sort, l', hl', aggregateWith_cases hl'⟩
  | aggregateNoRem sort fadd fdup =>
    obtain ⟨l', hl'⟩ := exists_aggregateWith hb sort (fun p i => ⟨p, [i]⟩) Current.curProperty
      fdup (proceeds_updateCurrent hb.indexed fadd fdup)
      fun p i hi => ⟨rfl, fun j hj => List.mem_singleton.mp hj ▸ hi⟩
    exact ⟨sort, l', hl', aggregateWith_cases hl'⟩

/-- **One call** on a list in order: it ends, and keeps the order unless it
is an aggregation whose batch starts too low. -/
theorem PropertyCall.step_inOrder_iff {c : PropertyCall w s P} (hc : c.Proper)
    {l : ListIntervalsProperties w s P} {batch : List (Member w P)} (hb : HoldsBatch l batch)
    (hl : InOrder l) :
    ∃ l', c.step l = some l' ∧ (∃ batch', HoldsBatch l' batch') ∧
      (InOrder l' ↔ (c.IsAggregation → BatchAbove l)) := by
  by_cases hagg : c.IsAggregation
  · obtain ⟨sort, l', hstep, hout⟩ := exists_step hagg hb
    refine ⟨l', hstep, hout.holdsBatch hb, ?_⟩
    rw [inOrder_aggregation_iff hout hb hl]
    exact ⟨fun h _ => h, fun h => h hagg⟩
  · cases c with
    | add i p =>
      exact ⟨_, rfl, ⟨_, hb.add hc p⟩, iff_of_true hl fun h => absurd h hagg⟩
    | aggregate sort fadd fremove fdup => exact absurd trivial hagg
    | aggregateNoRem sort fadd fdup => exact absurd trivial hagg

/-! ## Runs -/

theorem Along.head {Q : ListIntervalsProperties w s P → Prop} {l : ListIntervalsProperties w s P}
    {calls : List (PropertyCall w s P)} (h : Along Q l calls) : Q l := by
  cases calls with
  | nil => exact h
  | cons c calls => exact h.1

theorem Along.last {Q : ListIntervalsProperties w s P → Prop} {l l' : ListIntervalsProperties w s P}
    {calls : List (PropertyCall w s P)} (h : Along Q l calls)
    (hrun : calls.foldlM PropertyCall.step l = some l') : Q l' := by
  induction calls generalizing l with
  | nil => exact Option.some.inj hrun ▸ h
  | cons c calls ih =>
    obtain ⟨_, next, hnext, hrest⟩ := h
    rw [List.foldlM_cons, hnext] at hrun
    exact ih hrest hrun

/-- A run stays in order exactly when every batch it aggregates starts where
the segments stored by then have ended. -/
theorem along_inOrder_iff {calls : List (PropertyCall w s P)} (hc : ∀ c ∈ calls, c.Proper)
    {l : ListIntervalsProperties w s P} {batch : List (Member w P)} (hb : HoldsBatch l batch)
    (hl : InOrder l) : Along InOrder l calls ↔ BeforeEach BatchAbove l calls := by
  induction calls generalizing l batch with
  | nil => exact iff_of_true hl trivial
  | cons c calls ih =>
    have hcalls : ∀ d ∈ calls, d.Proper := fun d hd => hc d (List.mem_cons_of_mem _ hd)
    obtain ⟨l', hstep, ⟨batch', hb'⟩, hiff⟩ := c.step_inOrder_iff (hc c List.mem_cons_self) hb hl
    constructor
    · rintro ⟨_, next, hnext, hrest⟩
      obtain rfl : l' = next := Option.some.inj (hstep.symm.trans hnext)
      refine ⟨hiff.mp hrest.head, fun next hnext => ?_⟩
      obtain rfl : l' = next := Option.some.inj (hstep.symm.trans hnext)
      exact (ih hcalls hb' hrest.head).mp hrest
    · rintro ⟨habove, hrest⟩
      have hl' : InOrder l' := hiff.mpr habove
      exact ⟨hl, l', hstep, (ih hcalls hb' hl').mpr (hrest l' hstep)⟩

/-! ## The lookup along a run -/

/-- A run whose batches start high enough and fit keeps every state in
order and searchable. -/
theorem along_searchable {calls : List (PropertyCall w s P)} (hc : ∀ c ∈ calls, c.Proper)
    {l : ListIntervalsProperties w s P} {batch : List (Member w P)} (hb : HoldsBatch l batch)
    (hl : InOrder l) (hn : FitsSearch s l.properties.length)
    (h : BeforeEach (fun l => BatchAbove l ∧ BatchFits l) l calls) :
    Along (fun l => InOrder l ∧ Searchable l) l calls := by
  induction calls generalizing l batch with
  | nil => exact ⟨hl, hl.searchable hn⟩
  | cons c calls ih =>
    have hcalls : ∀ d ∈ calls, d.Proper := fun d hd => hc d (List.mem_cons_of_mem _ hd)
    obtain ⟨hmeets, hrest⟩ := h
    refine ⟨⟨hl, hl.searchable hn⟩, ?_⟩
    by_cases hagg : c.IsAggregation
    · obtain ⟨sort, l', hstep, hout⟩ := PropertyCall.exists_step hagg hb
      obtain ⟨batch', hb'⟩ := hout.holdsBatch hb
      obtain ⟨habove, hfits⟩ := hmeets hagg
      exact ⟨l', hstep, ih hcalls hb' ((inOrder_aggregation_iff hout hb hl).mpr habove)
        (hout.fitsSearch hb hfits) (hrest l' hstep)⟩
    · cases c with
      | add i p =>
        have hb' := hb.add (hc _ List.mem_cons_self) p
        exact ⟨_, rfl, ih hcalls hb' hl hn (hrest _ rfl)⟩
      | aggregate sort fadd fremove fdup => exact absurd trivial hagg
      | aggregateNoRem sort fadd fdup => exact absurd trivial hagg

end Steps

end Leeloo
