/-
Leeloo.PropertiesPacked — `properties_ir` as the code stores it: a vector
of end points, and a bit field with one push/pop bit for each.

`PropertiesIr` keeps each end point with its bit, as one list. Here `add`
writes the bits with `set_bit` and `clear_bit`, the sort walks over both
with `sort_permute_iter`, and a sweep reads the bits back with
`get_bit_fast`. `Packs` connects the two, each call keeps it
(`PackedCall.step_stores`), and a run of calls on what is stored does what
the run does on the list (`packed_run`).

What an allocation of the bit field holds is given with each call, and so
is the algorithm of its sort, as a program on the iterators.
-/
import Leeloo.PropertyRuns
import Leeloo.SortPermute

namespace Leeloo

open BitChunks IteratorProgram HalfOpen ListIntervalsProperties

/-- The data members of `properties_ir`. -/
structure PackedIr (w s : Nat) (P : Type) where
  ir : List (Elt w s) := []
  properties : List P := []
  actions : BitField := {}

namespace PackedIr

variable {w s : Nat} {P : Type}

/-- `add(interval_type const&, property_type const&)` with the private `add`
it calls; an allocation of `_actions` holds `fresh`, first for one bit and
then for the other. -/
def add (ir : PackedIr w s P) (fresh : Bool → Nat → BitVec 64) (it : Interval w) (prop : P) :
    Option (PackedIr w s P) := do
  let propIdx := BitVec.ofNat s ir.properties.length
  let actions ← ir.actions.setBit (fresh true) (BitVec.ofNat 64 ir.ir.length)
  let elts := ir.ir ++ [⟨it.lower, propIdx⟩]
  let actions ← actions.clearBit (fresh false) (BitVec.ofNat 64 elts.length)
  some { ir := elts ++ [⟨it.upper, propIdx⟩], properties := ir.properties ++ [prop], actions }

/-- `size_elts`. -/
def sizeElts (ir : PackedIr w s P) : BitVec s := BitVec.ofNat s ir.ir.length

/-- `elt_at`. -/
def eltAt (ir : PackedIr w s P) (i : BitVec s) : Option (Elt w s) := ir.ir[i.toNat]?

/-- `action_at`. -/
def actionAt (ir : PackedIr w s P) (i : BitVec s) : Option Bool :=
  ir.actions.getBitFast (i.setWidth 64)

/-- `sort`, by an algorithm on the iterators. -/
def sort (ir : PackedIr w s P) (program : Program (Elt w s × Bool)) :
    Option (PackedIr w s P) := do
  let last ← BitField.begin_.advance (ir.sizeElts.setWidth 64)
  let z ← program.exec (permuteMachine (Elt w s))
    (between ⟨0, BitField.begin_⟩ ⟨ir.ir.length, last⟩) ⟨ir.ir, ir.actions.chunks⟩
  some { ir with
    ir := z.elts
    actions := { ir.actions with buf := ir.actions.buf.map fun _ => z.chunks } }

/-- `clear_storage`. -/
def clearStorage (ir : PackedIr w s P) : PackedIr w s P :=
  { ir := [], properties := [], actions := ir.actions.clearStorage }

/-- The properties alone, which `property_at` reads. -/
def lookup (ir : PackedIr w s P) : PropertiesIr w s P := { properties := ir.properties }

/-- The loop of both sweeps, `n` turns from the index `i` on. -/
def sweepLoop {S : Type} (ir : PackedIr w s P) (update : S → Elt w s → Bool → Option S)
    (curProperty : S → P) (fdup : P → P) :
    Nat → BitVec s → BitVec w → S → List (Member w P) → Option (List (Member w P))
  | 0, _, _, _, properties => some properties
  | n + 1, i, prevValue, cur, properties => do
    let elt ← ir.eltAt i
    let action ← ir.actionAt i
    let properties := properties ++ [(⟨prevValue, elt.x⟩, fdup (curProperty cur))]
    let cur ← update cur elt action
    ir.sweepLoop update curProperty fdup n (i + 1) elt.x cur properties

end PackedIr

/-- The data members of `list_intervals_properties`. -/
structure PackedProperties (w s : Nat) (P : Type) where
  properties : List (Member w P) := []
  ir : PackedIr w s P := {}

namespace PackedProperties

variable {w s : Nat} {P : Type}

/-- `add_property(interval_type const&, property_type const&)`. -/
def addProperty (l : PackedProperties w s P) (fresh : Bool → Nat → BitVec 64) (i : Interval w)
    (p : P) : Option (PackedProperties w s P) := do
  let ir ← l.ir.add fresh i p
  some { l with ir }

/-- What `aggregate_properties` and `aggregate_properties_no_rem` share. -/
def aggregateWith {S : Type} (l : PackedProperties w s P) (program : Program (Elt w s × Bool))
    (update : PropertiesIr w s P → S → Elt w s → Bool → Option S) (start : P → BitVec s → S)
    (curProperty : S → P) (fdup : P → P) : Option (PackedProperties w s P) :=
  if l.ir.sizeElts = 0 then some { l with properties := [] }
  else if l.ir.sizeElts.toNat % 2 = 0 then do
    let ir ← l.ir.sort program
    let firstElt ← ir.eltAt 0
    let firstProperty ← ir.lookup.property firstElt
    let properties ← ir.sweepLoop (update ir.lookup) curProperty fdup (ir.sizeElts.toNat - 1) 1
      firstElt.x (start (fdup firstProperty) firstElt.propIdx) l.properties
    some { properties, ir := ir.clearStorage }
  else none

/-- `aggregate_properties`. -/
def aggregateProperties (l : PackedProperties w s P) (program : Program (Elt w s × Bool))
    (fadd fremove : P → P → P) (fdup : P → P) : Option (PackedProperties w s P) :=
  l.aggregateWith program (fun ir => updateProperty ir fadd fremove) (fun p _ => p) id fdup

/-- `aggregate_properties_no_rem`. -/
def aggregatePropertiesNoRem [Inhabited P] (l : PackedProperties w s P)
    (program : Program (Elt w s × Bool)) (fadd : P → P → P) (fdup : P → P) :
    Option (PackedProperties w s P) :=
  l.aggregateWith program (fun ir => updateCurrent ir fadd fdup) (fun p i => ⟨p, [i]⟩)
    Current.curProperty fdup

end PackedProperties

/-- An algorithm that sorts end points by coordinate. -/
abbrev EltSortProgram (w s : Nat) : Type := SortProgram fun e : Elt w s × Bool => e.1.x

/-- A call on what is stored. -/
inductive PackedCall (w s : Nat) (P : Type) where
  | add (i : Interval w) (p : P) (fresh : Bool → Nat → BitVec 64)
  | aggregate (sort : EltSortProgram w s) (fadd fremove : P → P → P) (fdup : P → P)
  | aggregateNoRem (sort : EltSortProgram w s) (fadd : P → P → P) (fdup : P → P)

namespace PackedCall

variable {w s : Nat} {P : Type}

def step [Inhabited P] (l : PackedProperties w s P) :
    PackedCall w s P → Option (PackedProperties w s P)
  | add i p fresh => l.addProperty fresh i p
  | aggregate sort fadd fremove fdup => l.aggregateProperties sort.program fadd fremove fdup
  | aggregateNoRem sort fadd fdup => l.aggregatePropertiesNoRem sort.program fadd fdup

/-- The call on the list of pairs. -/
def pairs : PackedCall w s P → PropertyCall w s P
  | add i p _ => .add i p
  | aggregate sort fadd fremove fdup => .aggregate sort.toSort fadd fremove fdup
  | aggregateNoRem sort fadd fdup => .aggregateNoRem sort.toSort fadd fdup

/-- The number of end points after a call. -/
def pending (n : Nat) : PackedCall w s P → Nat
  | add _ _ _ => n + 2
  | _ => 0

end PackedCall

/-! ## The vectors and the list -/

namespace PackedIr

variable {w s : Nat} {P : Type}

/-- The end points and their bits are the list of pairs. -/
structure Packs (p : PackedIr w s P) (ir : PropertiesIr w s P) : Prop where
  elts : p.ir = ir.elts.map (·.1)
  properties : p.properties = ir.properties
  actions : p.actions.Holds fun i => ir.elts[i.toNat]?.map (·.2)

variable {p : PackedIr w s P} {ir : PropertiesIr w s P}

theorem packs_empty : Packs ({} : PackedIr w s P) {} :=
  ⟨rfl, rfl, BitField.valid_empty, by nofun⟩

namespace Packs

theorem length_ir (h : p.Packs ir) : p.ir.length = ir.elts.length := by
  rw [h.elts, List.length_map]

theorem sizeElts (h : p.Packs ir) : p.sizeElts = ir.sizeElts := by
  unfold PackedIr.sizeElts PropertiesIr.sizeElts
  rw [h.length_ir]

/-- `add` writes the bits of the two end points it appends. -/
theorem add (h : p.Packs ir) (fresh : Bool → Nat → BitVec 64) (it : Interval w) (prop : P)
    (hlen : ir.elts.length + 2 ≤ 2 ^ 63) :
    ∃ p', p.add fresh it prop = some p' ∧ p'.Packs (ir.add it prop) := by
  have hfirst : (BitVec.ofNat 64 p.ir.length).toNat = ir.elts.length := by
    rw [h.length_ir, BitVec.toNat_ofNat]
    omega
  have hsecond : (BitVec.ofNat 64 (p.ir.length + 1)).toNat = ir.elts.length + 1 := by
    rw [h.length_ir, BitVec.toNat_ofNat]
    omega
  obtain ⟨b₁, hset, h₁⟩ := BitFieldCall.step_holds h.actions
    (c := .setBit (BitVec.ofNat 64 p.ir.length) (fresh true)) (by
      show (BitVec.ofNat 64 p.ir.length).toNat < 2 ^ 63
      omega)
  obtain ⟨b₂, hclear, h₂⟩ := BitFieldCall.step_holds h₁
    (c := .clearBit (BitVec.ofNat 64 (p.ir.length + 1)) (fresh false)) (by
      show (BitVec.ofNat 64 (p.ir.length + 1)).toNat < 2 ^ 63
      omega)
  replace hset : p.actions.setBit (fresh true) (BitVec.ofNat 64 p.ir.length) = some b₁ := hset
  replace hclear : b₁.clearBit (fresh false) (BitVec.ofNat 64 (p.ir.length + 1)) = some b₂ := hclear
  unfold PackedIr.add
  simp only [hset, Option.bind_eq_bind, Option.bind_some, List.length_append, List.length_singleton,
    hclear]
  refine ⟨_, rfl, ?_, ?_, h₂.valid, fun i v hv => h₂.bits i v ?_⟩
  · unfold PropertiesIr.add
    rw [h.elts, h.properties, List.append_assoc, List.map_append]
    rfl
  · show p.properties ++ [prop] = ir.properties ++ [prop]
    rw [h.properties]
  · -- the two new bits, and the others
    show (if i = _ then some false
      else if i = _ then some true else ir.elts[i.toNat]?.map (·.2)) = _
    rw [← hv]
    show _ = (ir.elts ++ [_, _])[i.toNat]?.map (·.2)
    by_cases hi₂ : i = BitVec.ofNat 64 (p.ir.length + 1)
    · rw [if_pos hi₂, hi₂, hsecond, List.getElem?_append_right (by omega),
        Nat.add_sub_cancel_left]
      rfl
    · rw [if_neg hi₂]
      have hne₂ : i.toNat ≠ ir.elts.length + 1 := fun heq =>
        hi₂ (BitVec.eq_of_toNat_eq (heq.trans hsecond.symm))
      by_cases hi₁ : i = BitVec.ofNat 64 p.ir.length
      · rw [if_pos hi₁, hi₁, hfirst, List.getElem?_append_right (le_refl _), Nat.sub_self]
        rfl
      · rw [if_neg hi₁]
        have hne₁ : i.toNat ≠ ir.elts.length := fun heq =>
          hi₁ (BitVec.eq_of_toNat_eq (heq.trans hfirst.symm))
        by_cases hlt : i.toNat < ir.elts.length
        · rw [List.getElem?_append_left hlt]
        · rw [List.getElem?_eq_none (by omega), List.getElem?_eq_none (by
            rw [List.length_append]
            show ir.elts.length + 2 ≤ _
            omega)]

/-- The bits of the chunks, by number. -/
theorem holdBits (h : p.Packs ir) (hlen : ir.elts.length < 2 ^ 63) :
    HoldBits p.actions.size.toNat p.actions.chunks ir.elts := by
  refine ⟨fun i e he => ?_, h.actions.valid.length⟩
  have hlt := (List.getElem?_eq_some_iff.mp he).1
  have hi : (BitVec.ofNat 64 i).toNat = i := by
    rw [BitVec.toNat_ofNat]
    omega
  have hbit := h.actions.bits (BitVec.ofNat 64 i) e.2 (by rw [hi, he]; rfl)
  rwa [hi] at hbit

/-- **The sort** through the iterators sorts the list of pairs. -/
theorem sort (h : p.Packs ir) (hlen : ir.elts.length < 2 ^ 63) (hs : ir.elts.length < 2 ^ s)
    (sort : EltSortProgram w s) :
    ∃ p', p.sort sort.program = some p' ∧
      p'.Packs { ir with elts := sort.toSort.run ir.elts } := by
  have hsize : (p.sizeElts.setWidth 64).toNat = ir.elts.length := by
    rw [h.sizeElts, PropertiesIr.sizeElts, BitVec.toNat_setWidth, BitVec.toNat_ofNat,
      Nat.mod_eq_of_lt hs]
    omega
  have hne : p.sizeElts.setWidth 64 ≠ BitVec.intMin 64 := by
    intro heq
    have hmin : (BitVec.intMin 64).toNat = 2 ^ 63 := rfl
    rw [heq, hmin] at hsize
    omega
  have hint : (p.sizeElts.setWidth 64).toInt = ir.elts.length := by
    rw [BitVec.toInt_eq_toNat_of_lt (by omega), hsize]
  have hlast : BitField.begin_.advance (p.sizeElts.setWidth 64) =
      some (BitReference.ofPosition ir.elts.length) := by
    rw [BitReference.advance_eq (by decide) hne, hint]
    exact congrArg (fun i => some (BitReference.ofPosition i)) (Int.zero_add _)
  have hends : ∀ a, SortPermuteIter.At (between (⟨0, BitField.begin_⟩ : SortPermuteIter)
      ⟨p.ir.length, BitReference.ofPosition ir.elts.length⟩ a)
      (between (0 : Int) ir.elts.length a) := by
    intro a
    unfold between
    by_cases ha : a = 1
    · rw [if_pos ha, if_pos ha]
      exact at_ofPosition (by rw [h.length_ir])
    · rw [if_neg ha, if_neg ha]
      exact ⟨rfl, rfl, by decide⟩
  obtain ⟨z, hz, hzips⟩ := permute_simulates.exec sort.program hends
    (s := ⟨p.ir, p.actions.chunks⟩) ⟨h.elts, h.holdBits hlen⟩ (sort.exec_eq hlen)
  unfold PackedIr.sort
  simp only [hlast, hz, Option.bind_eq_bind, Option.bind_some]
  have hchunks : BitField.chunks
      { p.actions with buf := p.actions.buf.map fun _ => z.chunks } = z.chunks := by
    have hvalid := h.actions.valid.length
    have hlength := hzips.chunks.length
    unfold BitField.chunks at hvalid ⊢
    cases hbuf : p.actions.buf with
    | none =>
      rw [hbuf, Option.getD_none, List.length_nil] at hvalid
      rw [← hvalid] at hlength
      exact (List.eq_nil_of_length_eq_zero hlength).symm
    | some buf => rfl
  refine ⟨_, rfl, hzips.elts, h.properties, ⟨?_, h.actions.valid.size_lt⟩, fun i v hv => ?_⟩
  · rw [hchunks]
    exact hzips.chunks.length
  · obtain ⟨e, he, rfl⟩ := Option.map_eq_some_iff.mp hv
    rw [hchunks]
    exact hzips.chunks.bits i.toNat e he

theorem clearStorage (h : p.Packs ir) : p.clearStorage.Packs {} :=
  ⟨rfl, rfl, h.actions.valid.clearStorage, by nofun⟩

theorem actionAt (h : p.Packs ir) (hlen : ir.elts.length < 2 ^ 63) {i : BitVec s}
    {e : Elt w s × Bool} (he : ir.elts[i.toNat]? = some e) :
    p.eltAt i = some e.1 ∧ p.actionAt i = some e.2 := by
  have hlt := (List.getElem?_eq_some_iff.mp he).1
  have hi : (i.setWidth 64).toNat = i.toNat := by
    rw [BitVec.toNat_setWidth]
    omega
  constructor
  · unfold PackedIr.eltAt
    rw [h.elts, List.getElem?_map, he]
    rfl
  · unfold PackedIr.actionAt
    rw [BitField.getBitFast_eq]
    exact h.actions.bits (i.setWidth 64) e.2 (by rw [hi, he]; rfl)

/-- The loop over the indices is the loop over the list behind them. -/
theorem sweepLoop {S : Type} (h : p.Packs ir) (hlen : ir.elts.length < 2 ^ 63)
    (hs : ir.elts.length < 2 ^ s) (update : S → Elt w s → Bool → Option S) (curProperty : S → P)
    (fdup : P → P) {n : Nat} {i : BitVec s} (hn : i.toNat + n = ir.elts.length)
    (prevValue : BitVec w) (cur : S) (properties : List (Member w P)) :
    p.sweepLoop update curProperty fdup n i prevValue cur properties =
      Leeloo.sweepLoop update curProperty fdup prevValue cur properties (ir.elts.drop i.toNat) := by
  induction n generalizing i prevValue cur properties with
  | zero =>
    rw [List.drop_of_length_le (by omega)]
    rfl
  | succ n ih =>
    have hlt : i.toNat < ir.elts.length := by omega
    have hsucc : (i + 1).toNat = i.toNat + 1 := by
      rw [BitVec.toNat_add]
      have hone : (1 : BitVec s).toNat = 1 := by
        show 1 % 2 ^ s = 1
        exact Nat.mod_eq_of_lt (by omega)
      rw [hone]
      exact Nat.mod_eq_of_lt (by omega)
    obtain ⟨helt, haction⟩ := h.actionAt hlen (List.getElem?_eq_getElem hlt)
    rw [List.drop_eq_getElem_cons hlt]
    unfold PackedIr.sweepLoop Leeloo.sweepLoop
    simp only [helt, haction, Option.bind_eq_bind, Option.bind_some]
    cases update cur ir.elts[i.toNat].1 ir.elts[i.toNat].2 with
    | none => rfl
    | some cur' =>
      simp only [Option.bind_some]
      rw [ih (by omega), hsucc]

end Packs

end PackedIr

/-! ## The calls -/

namespace PackedProperties

variable {w s : Nat} {P : Type} {p : PackedProperties w s P} {l l' : ListIntervalsProperties w s P}

/-- What is stored is the list: the same segments, and the end points of
the intermediate representation with their bits. -/
structure Stores (p : PackedProperties w s P) (l : ListIntervalsProperties w s P) : Prop where
  properties : p.properties = l.properties
  ir : p.ir.Packs l.ir

theorem stores_empty : Stores ({} : PackedProperties w s P) {} := ⟨rfl, PackedIr.packs_empty⟩

theorem Stores.addProperty (h : p.Stores l) (fresh : Bool → Nat → BitVec 64) (i : Interval w)
    (prop : P) (hlen : l.ir.elts.length + 2 ≤ 2 ^ 63) :
    ∃ p', p.addProperty fresh i prop = some p' ∧ p'.Stores (l.addProperty i prop) := by
  obtain ⟨ir, hir, hpacks⟩ := h.ir.add fresh i prop hlen
  unfold PackedProperties.addProperty
  rw [hir]
  exact ⟨_, rfl, h.properties, hpacks⟩

/-- A sweep over what is stored; its updates only look properties up. -/
theorem Stores.aggregateWith {S : Type} (h : p.Stores l) (hlen : l.ir.elts.length < 2 ^ 63)
    (hs : l.ir.elts.length < 2 ^ s) (sort : EltSortProgram w s)
    (update : PropertiesIr w s P → S → Elt w s → Bool → Option S)
    (hupdate : ∀ elts properties, update ⟨elts, properties⟩ = update ⟨[], properties⟩)
    (start : P → BitVec s → S) (curProperty : S → P) (fdup : P → P)
    (hl' : l.aggregateWith sort.toSort (update l.ir) start curProperty fdup = some l') :
    ∃ p', p.aggregateWith sort.program update start curProperty fdup = some p' ∧
      p'.Stores l' := by
  have hsize := h.ir.sizeElts
  have hcount : l.ir.sizeElts.toNat = l.ir.elts.length := by
    rw [PropertiesIr.sizeElts, BitVec.toNat_ofNat, Nat.mod_eq_of_lt hs]
  unfold PackedProperties.aggregateWith
  unfold ListIntervalsProperties.aggregateWith at hl'
  rw [hsize]
  by_cases hzero : l.ir.sizeElts = 0
  · rw [if_pos hzero] at hl' ⊢
    cases hl'
    exact ⟨_, rfl, rfl, h.ir⟩
  · rw [if_neg hzero] at hl' ⊢
    by_cases heven : l.ir.sizeElts.toNat % 2 = 0
    · rw [if_pos heven] at hl' ⊢
      rw [List.take_of_length_le (by rw [sort.toSort.length_run, hcount])] at hl'
      obtain ⟨ir, hsort, hpacks⟩ := h.ir.sort hlen hs sort
      have hlength : (sort.toSort.run l.ir.elts).length = l.ir.elts.length :=
        sort.toSort.length_run _
      rw [hsort]
      cases hrun : sort.toSort.run l.ir.elts with
      | nil =>
        rw [hrun] at hl'
        cases hl'
      | cons first rest =>
        rw [hrun] at hl' hpacks hlength
        obtain ⟨firstProperty, hfirst, hl'⟩ := Option.bind_eq_some_iff.mp hl'
        obtain ⟨properties, hproperties, hl'⟩ := Option.bind_eq_some_iff.mp hl'
        cases hl'
        have hlookup : update l.ir = update ir.lookup := by
          show update ⟨l.ir.elts, l.ir.properties⟩ = update ⟨[], ir.properties⟩
          rw [hupdate, hpacks.properties]
        have hproperty : ir.lookup.property first.1 = some firstProperty := by
          rw [← hfirst]
          unfold PropertiesIr.property
          show ir.properties[_]? = _
          rw [hpacks.properties]
        obtain ⟨helt, _⟩ := hpacks.actionAt (i := 0) (e := first) (by rw [hlength]; exact hlen) rfl
        have hpos : 0 < l.ir.elts.length := by
          rw [← hlength]
          exact Nat.succ_pos _
        have hone : (1 : BitVec s).toNat = 1 := by
          show 1 % 2 ^ s = 1
          exact Nat.mod_eq_of_lt (by omega)
        have hcount' : ir.sizeElts.toNat = l.ir.elts.length := by
          rw [hpacks.sizeElts, PropertiesIr.sizeElts, hlength, BitVec.toNat_ofNat,
            Nat.mod_eq_of_lt hs]
        have hloop := hpacks.sweepLoop (by rw [hlength]; exact hlen) (by rw [hlength]; exact hs)
          (update ir.lookup) curProperty fdup (n := l.ir.elts.length - 1) (i := 1)
          (by rw [hone, hlength]; omega) first.1.x (start (fdup firstProperty) first.1.propIdx)
          p.properties
        rw [hone, List.drop_one, List.tail_cons, ← hlookup, h.properties, hproperties] at hloop
        simp only [helt, hproperty, hcount', Option.bind_eq_bind, Option.bind_some, ← hlookup,
          h.properties, hloop]
        exact ⟨_, rfl, rfl, hpacks.clearStorage⟩
    · rw [if_neg heven] at hl'
      cases hl'

/-- After an aggregation no end point is pending. -/
theorem length_aggregated {sort : EltSort w s} (h : Aggregated sort l l')
    (hs : l.ir.elts.length < 2 ^ s) : l'.ir.elts.length = 0 := by
  obtain ⟨hzero, rfl⟩ | ⟨_, hir, _⟩ := h
  · have hcount := congrArg BitVec.toNat hzero
    rw [PropertiesIr.sizeElts, BitVec.toNat_ofNat, Nat.mod_eq_of_lt hs] at hcount
    exact hcount.trans BitVec.toNat_zero
  · rw [hir]
    rfl

end PackedProperties

namespace PackedCall

open PackedProperties

variable {w s : Nat} {P : Type} [Inhabited P] {p : PackedProperties w s P}
  {l l' : ListIntervalsProperties w s P}

/-- A call on what is stored does what it does on the list. -/
theorem step_stores (c : PackedCall w s P) (h : p.Stores l) (hlen : l.ir.elts.length + 2 ≤ 2 ^ 63)
    (hs : l.ir.elts.length < 2 ^ s) (hl' : c.pairs.step l = some l') :
    ∃ p', c.step p = some p' ∧ p'.Stores l' := by
  cases c with
  | add i prop fresh =>
    cases hl'
    exact h.addProperty fresh i prop hlen
  | aggregate sort fadd fremove fdup =>
    exact h.aggregateWith (by omega) hs sort (fun ir => updateProperty ir fadd fremove)
      (fun _ _ => rfl) (fun p _ => p) id fdup hl'
  | aggregateNoRem sort fadd fdup =>
    exact h.aggregateWith (by omega) hs sort (fun ir => updateCurrent ir fadd fdup)
      (fun _ _ => rfl) (fun p i => ⟨p, [i]⟩) Current.curProperty fdup hl'

/-- The list after a call. -/
theorem exists_step (c : PackedCall w s P) (hc : c.pairs.Proper) {batch : List (Member w P)}
    (hb : HoldsBatch l batch) (hs : l.ir.elts.length < 2 ^ s) :
    ∃ l' batch', c.pairs.step l = some l' ∧ HoldsBatch l' batch' ∧
      l'.ir.elts.length = c.pending l.ir.elts.length := by
  have hagg : c.pairs.IsAggregation → ∃ l' batch', c.pairs.step l = some l' ∧
      HoldsBatch l' batch' ∧ l'.ir.elts.length = 0 := by
    intro hagg
    obtain ⟨sort, l', hstep, hout⟩ := PropertyCall.exists_step hagg hb
    obtain ⟨batch', hb'⟩ := hout.holdsBatch hb
    exact ⟨l', batch', hstep, hb', length_aggregated hout hs⟩
  cases c with
  | add i prop fresh =>
    refine ⟨_, _, rfl, hb.add hc prop, ?_⟩
    show (l.ir.elts ++ [_, _]).length = _
    rw [List.length_append]
    rfl
  | aggregate sort fadd fremove fdup => exact hagg trivial
  | aggregateNoRem sort fadd fdup => exact hagg trivial

/-- The numbers of end points fit `SizeType` and the indices of the bits,
from `n` of them on. -/
def Fits (n : Nat) : List (PackedCall w s P) → Prop
  | [] => True
  | c :: calls => n + 2 ≤ 2 ^ 63 ∧ n < 2 ^ s ∧ Fits (c.pending n) calls

theorem run_stores {calls : List (PackedCall w s P)} (hc : ∀ c ∈ calls, c.pairs.Proper)
    {batch : List (Member w P)} (hb : HoldsBatch l batch) (h : p.Stores l)
    (hfits : Fits l.ir.elts.length calls) :
    ∃ p' l', calls.foldlM step p = some p' ∧
      (calls.map pairs).foldlM PropertyCall.step l = some l' ∧ p'.Stores l' := by
  induction calls generalizing p l batch with
  | nil => exact ⟨p, l, rfl, rfl, h⟩
  | cons c calls ih =>
    obtain ⟨hlen, hs, hfits⟩ := hfits
    obtain ⟨l₁, batch₁, hl₁, hb₁, hlen₁⟩ := c.exists_step (hc c List.mem_cons_self) hb hs
    obtain ⟨p₁, hp₁, h₁⟩ := c.step_stores h hlen hs hl₁
    rw [← hlen₁] at hfits
    obtain ⟨p₂, l₂, hp₂, hl₂, h₂⟩ := ih (fun d hd => hc d (List.mem_cons_of_mem _ hd)) hb₁ h₁ hfits
    refine ⟨p₂, l₂, ?_, ?_, h₂⟩
    · rw [List.foldlM_cons, hp₁]
      exact hp₂
    · rw [List.map_cons, List.foldlM_cons, hl₁]
      exact hl₂

end PackedCall

/-- **The stored representation is the list of pairs.** A run of calls with
non-empty intervals, whatever the allocations hold and however the sorts
walk, is never undefined, and leaves the segments and the end points that
the run on the list leaves. -/
theorem packed_run {w s : Nat} {P : Type} [Inhabited P] (calls : List (PackedCall w s P))
    (hc : ∀ c ∈ calls, c.pairs.Proper) (hfits : PackedCall.Fits 0 calls) :
    ∃ p l, calls.foldlM PackedCall.step {} = some p ∧
      (calls.map PackedCall.pairs).foldlM PropertyCall.step {} = some l ∧
      p.properties = l.properties ∧ p.ir.Packs l.ir := by
  obtain ⟨p, l, hp, hl, h⟩ :=
    PackedCall.run_stores hc HoldsBatch.nil PackedProperties.stores_empty hfits
  exact ⟨p, l, hp, hl, h.properties, h.ir⟩

/-- Two batches, with allocations that are not clear. -/
theorem packed_run_sample :
    let calls : List (PackedCall 32 32 Nat) :=
      [.add ⟨10, 20⟩ 1 fun _ _ => BitVec.allOnes 64, .add ⟨15, 18⟩ 2 fun _ _ => 0,
        .aggregate (.insertion _) (· + ·) (· - ·) id, .add ⟨20, 30⟩ 3 fun _ _ => 0]
    ∃ p l, calls.foldlM PackedCall.step {} = some p ∧
      (calls.map PackedCall.pairs).foldlM PropertyCall.step {} = some l ∧
      p.properties = l.properties ∧ p.ir.Packs l.ir :=
  packed_run _ (by decide) (by simp [PackedCall.Fits, PackedCall.pending])

end Leeloo
