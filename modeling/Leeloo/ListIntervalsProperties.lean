/-
Leeloo.ListIntervalsProperties — the class `list_intervals_properties` of
`list_intervals_properties.h`, with the storage `PropertiesHorizontal`.

`w` is the width of the base type and `s` the width of `SizeType` (32 by
default); `P` is the property type. The intermediate representation keeps
the push/pop bit of an end point in a bit field at the index of the end
point, and `sort_permute_iter` moves both together, so the two vectors are
one list of pairs here. `std::sort` does not say in which order it leaves
end points of equal coordinate: a sweep takes the sort it makes as an
argument.

`none` is a failed `assert` or a read outside a vector. The search of
`property_of` has no bound in the source; it carries a fuel, and `none`
also stands for running out of it. Its result is `some none` for the null
pointer. A property handed out by reference and copied (`fdup`) is a value.
-/
import Leeloo.Interval
import Leeloo.Lib.UnstableSort

namespace Leeloo

open Leeloo.Interval

/-- `Member` of `PropertiesHorizontal`: an interval and its property. -/
abbrev Member (w : Nat) (P : Type) : Type := Interval w × P

/-- `properties_ir::elt`, an end point with the index of its property. -/
structure Elt (w s : Nat) where
  x : BitVec w
  propIdx : BitVec s
  deriving DecidableEq, Repr

/-- `std::sort` of the end points, each moved with its push/pop bit. -/
abbrev EltSort (w s : Nat) : Type := UnstableSort fun e : Elt w s × Bool => e.1.x

/-- The data members of `properties_ir`. -/
structure PropertiesIr (w s : Nat) (P : Type) where
  /-- `_ir` and `_actions`; the bit is at 1 for push, 0 for pop. -/
  elts : List (Elt w s × Bool) := []
  properties : List P := []

namespace PropertiesIr

variable {w s : Nat} {P : Type}

/-- `add(interval_type const&, property_type const&)`, with the private
`add` it calls. -/
def add (ir : PropertiesIr w s P) (it : Interval w) (prop : P) : PropertiesIr w s P :=
  let propIdx := BitVec.ofNat s ir.properties.length
  { elts := ir.elts ++ [(⟨it.lower, propIdx⟩, true), (⟨it.upper, propIdx⟩, false)]
    properties := ir.properties ++ [prop] }

/-- `size_elts`. -/
def sizeElts (ir : PropertiesIr w s P) : BitVec s := BitVec.ofNat s ir.elts.length

/-- `elt::property`, through `property_at`. -/
def property (ir : PropertiesIr w s P) (elt : Elt w s) : Option P :=
  ir.properties[elt.propIdx.toNat]?

end PropertiesIr

/-- The data members of `list_intervals_properties`. -/
structure ListIntervalsProperties (w s : Nat) (P : Type) where
  properties : List (Member w P) := []
  ir : PropertiesIr w s P := {}

/-- The loop of both sweeps over the elements `i = 1, 2, …`: the segment
that ends at an element is added with a copy of the current property, then
the element updates the state of the sweep. -/
def sweepLoop {w s : Nat} {P S : Type} (update : S → Elt w s → Bool → Option S)
    (curProperty : S → P) (fdup : P → P) (prevValue : BitVec w) (cur : S)
    (properties : List (Member w P)) : List (Elt w s × Bool) → Option (List (Member w P))
  | [] => some properties
  | (elt, action) :: rest => do
    let properties := properties ++ [(⟨prevValue, elt.x⟩, fdup (curProperty cur))]
    let cur ← update cur elt action
    sweepLoop update curProperty fdup elt.x cur properties rest

namespace ListIntervalsProperties

variable {w s : Nat} {P : Type}

/-- `add_property(interval_type const&, property_type const&)`. -/
def addProperty (l : ListIntervalsProperties w s P) (i : Interval w) (p : P) :
    ListIntervalsProperties w s P :=
  { l with ir := l.ir.add i p }

/-- What `aggregate_properties` and `aggregate_properties_no_rem` share:
the early exit, the assertion, the sort, the first end point, which gives
its property to the `start` of the sweep, and the loop over the others. -/
def aggregateWith {S : Type} (l : ListIntervalsProperties w s P) (sort : EltSort w s)
    (update : S → Elt w s → Bool → Option S) (start : P → BitVec s → S) (curProperty : S → P)
    (fdup : P → P) : Option (ListIntervalsProperties w s P) :=
  if l.ir.sizeElts = 0 then some { l with properties := [] }
  else if l.ir.sizeElts.toNat % 2 = 0 then
    match (sort.run l.ir.elts).take l.ir.sizeElts.toNat with
    | [] => none
    | (firstElt, _) :: rest => do
      let firstProperty ← l.ir.property firstElt
      let properties ← sweepLoop update curProperty fdup firstElt.x
        (start (fdup firstProperty) firstElt.propIdx) l.properties rest
      some { properties := properties }
  else none

/-- The body of the loop of `aggregate_properties` that changes
`cur_property`. -/
def updateProperty (ir : PropertiesIr w s P) (fadd fremove : P → P → P) (curProperty : P)
    (elt : Elt w s) (action : Bool) : Option P := do
  let pelt ← ir.property elt
  some (if action then fadd curProperty pelt else fremove curProperty pelt)

/-- `aggregate_properties`. -/
def aggregateProperties (l : ListIntervalsProperties w s P) (sort : EltSort w s)
    (fadd fremove : P → P → P) (fdup : P → P) : Option (ListIntervalsProperties w s P) :=
  l.aggregateWith sort (updateProperty l.ir fadd fremove) (fun p _ => p) id fdup

/-- `merge_properties`; `props` lists the properties by index. -/
def mergeProperties [Inhabited P] (ir : PropertiesIr w s P) (props : List (BitVec s))
    (fadd : P → P → P) (fdup : P → P) : Option P :=
  match props with
  | [] => some default
  | it :: rest => do
    let ret ← ir.properties[it.toNat]?
    rest.foldlM (fun ret it => do
      let p ← ir.properties[it.toNat]?
      some (fadd ret p)) (fdup ret)

/-- `cur_property` and `cur_properties` of `aggregate_properties_no_rem`.
The list holds pointers into the properties of the intermediate
representation; a pointer is the index it points at. -/
structure Current (s : Nat) (P : Type) where
  curProperty : P
  curProperties : List (BitVec s)

/-- The body of the loop of `aggregate_properties_no_rem` that changes
`cur_property` and `cur_properties`. -/
def updateCurrent [Inhabited P] (ir : PropertiesIr w s P) (fadd : P → P → P) (fdup : P → P)
    (cur : Current s P) (elt : Elt w s) (action : Bool) : Option (Current s P) := do
  let pelt ← ir.property elt
  if action then
    some {
      curProperty :=
        if cur.curProperties.length = 0 then fdup pelt else fadd cur.curProperty pelt
      curProperties := cur.curProperties ++ [elt.propIdx] }
  else if elt.propIdx ∈ cur.curProperties then do
    let curProperties := cur.curProperties.erase elt.propIdx
    let curProperty ← mergeProperties ir curProperties fadd fdup
    some { curProperty, curProperties }
  else none

/-- `aggregate_properties_no_rem`. -/
def aggregatePropertiesNoRem [Inhabited P] (l : ListIntervalsProperties w s P)
    (sort : EltSort w s) (fadd : P → P → P) (fdup : P → P) :
    Option (ListIntervalsProperties w s P) :=
  l.aggregateWith sort (updateCurrent l.ir fadd fdup) (fun p i => ⟨p, [i]⟩)
    Current.curProperty fdup

/-! ## The lookup -/

/-- The last loop of `property_of`, over `n` indices from `i` on. -/
def propertyOfScan (l : ListIntervalsProperties w s P) (v : BitVec w) :
    Nat → Nat → Option (Option P)
  | 0, _ => some none
  | n + 1, i => do
    let m ← l.properties[i]?
    if m.1.contains v then some (some m.2) else propertyOfScan l v n (i + 1)

/-- The dichotomy of `property_of`; `a`, `b` and `mid` are `size_type`s. -/
def propertyOfLoop (l : ListIntervalsProperties w s P) (v : BitVec w) :
    Nat → BitVec s → BitVec s → Option (Option P)
  | 0, _, _ => none
  | fuel + 1, a, b =>
    if 4 < (b - a).toNat then do
      let mid := (b + a) / 2
      let m ← l.properties[mid.toNat]?
      if m.1.contains v then some (some m.2)
      else if v < m.1.lower then propertyOfLoop l v fuel a mid
      else propertyOfLoop l v fuel mid b
    else propertyOfScan l v (b.toNat - a.toNat) a.toNat

/-- `property_of`, given the number of turns the dichotomy may take. -/
def propertyOf (l : ListIntervalsProperties w s P) (v : BitVec w) (fuel : Nat) :
    Option (Option P) :=
  propertyOfLoop l v fuel 0 (BitVec.ofNat s l.properties.length)

/-- `property_of(v)` ends and returns `r`. -/
def Returns (l : ListIntervalsProperties w s P) (v : BitVec w) (r : Option P) : Prop :=
  ∃ fuel, l.propertyOf v fuel = some r

/-- One call of `add_property` for each interval with its property. -/
def addProperties (l : ListIntervalsProperties w s P) (calls : List (Member w P)) :
    ListIntervalsProperties w s P :=
  calls.foldl (fun l c => l.addProperty c.1 c.2) l

end ListIntervalsProperties

end Leeloo
