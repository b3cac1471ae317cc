/-
Leeloo.IpListIntervals — `ip_list_intervals.h`: the list of intervals of
IPv4 addresses, whose own operations take closed pairs of addresses and
CIDR blocks.

A closed pair becomes a half-open interval, so an upper end of
255.255.255.255 stays as it is and the last address is left out.
-/
import Leeloo.ListIntervals
import Leeloo.Lib.Block

namespace Leeloo

/-- `ip_list_intervals`, a `list_intervals<interval<uint32_t>>`. -/
abbrev IpListIntervals : Type := ListIntervals 32 32

namespace IpListIntervals

/-- `b_`: the exclusive bound that stands for the closed end `b`. -/
def closedEnd (b : BitVec 32) : BitVec 32 := if b ≠ 0xFFFFFFFF then b + 1 else b

/-- `add(uint32_t a, uint32_t b)`. -/
def add (l : IpListIntervals) (a b : BitVec 32) : IpListIntervals :=
  ListIntervals.add l ⟨a, closedEnd b⟩

/-- `add(uint32_t a)`. -/
def addIp (l : IpListIntervals) (a : BitVec 32) : IpListIntervals :=
  if a ≠ 0xFFFFFFFF then ListIntervals.add l ⟨a, a + 1⟩ else l

/-- `remove(uint32_t a, uint32_t b)`. -/
def remove (l : IpListIntervals) (a b : BitVec 32) : IpListIntervals :=
  ListIntervals.remove l ⟨a, closedEnd b⟩

/-- `remove(uint32_t a)`. -/
def removeIp (l : IpListIntervals) (a : BitVec 32) : IpListIntervals :=
  if a ≠ 0xFFFFFFFF then ListIntervals.remove l ⟨a, a + 1⟩ else l

/-- `insert<exclude>(uint32_t a, uint32_t b)`. -/
def insert (exclude : Bool) (l : IpListIntervals) (a b : BitVec 32) : IpListIntervals :=
  if exclude then remove l a b else add l a b

/-- `cidr2mask`; `none` is a shift by a negative count. -/
def cidr2mask (cidr : Int) : Option (BitVec 32) :=
  if cidr = 0 then some 0xFFFFFFFF
  else if cidr ≤ 32 then some ((1#32 <<< (32 - cidr).toNat) - 1)
  else none

/-- `insert_cidr<exclude>`. -/
def insertCidr (exclude : Bool) (l : IpListIntervals) (baseIp : BitVec 32) (prefixSize : Int) :
    Option IpListIntervals := do
  let mask ← cidr2mask prefixSize
  some (insert exclude l (baseIp &&& ~~~mask) (baseIp ||| mask))

/-! ## The list an insertion appends to -/

/-- `l` with `ivs` behind its added or, for `exclude`, its removed
intervals. -/
def appended (exclude : Bool) (l : IpListIntervals) (ivs : List (Interval 32)) :
    IpListIntervals :=
  if exclude then { l with removedIntervals := l.removedIntervals ++ ivs }
  else { l with intervals := l.intervals ++ ivs }

theorem appended_nil (exclude : Bool) (l : IpListIntervals) : appended exclude l [] = l := by
  cases exclude <;> simp [appended]

theorem appended_appended (exclude : Bool) (l : IpListIntervals) (u v : List (Interval 32)) :
    appended exclude (appended exclude l u) v = appended exclude l (u ++ v) := by
  cases exclude <;> simp [appended]

theorem insert_eq_appended (exclude : Bool) (l : IpListIntervals) (a b : BitVec 32) :
    insert exclude l a b = appended exclude l [⟨a, closedEnd b⟩] := by
  cases exclude <;> rfl

/-- A closed pair covers its addresses except the last of the space. -/
theorem mem_closed_iff {a b v : BitVec 32} :
    v ∈ (⟨a, closedEnd b⟩ : Interval 32).toSet ↔ a ≤ v ∧ v ≤ b ∧ v ≠ 0xFFFFFFFF := by
  have hv := v.isLt
  have hb := b.isLt
  have hlast : ∀ x : BitVec 32, x = 0xFFFFFFFF ↔ x.toNat = 2 ^ 32 - 1 := by
    intro x
    rw [BitVec.toNat_eq]
    simp
  rw [HalfOpen.mem_toSet, ne_eq, hlast v]
  simp only [closedEnd, ne_eq, hlast b, BitVec.le_def, BitVec.lt_def]
  split
  · rename_i h
    have hadd : (b + 1).toNat = b.toNat + 1 := by
      rw [BitVec.toNat_add]
      show (b.toNat + 1) % 2 ^ 32 = b.toNat + 1
      omega
    rw [hadd]
    omega
  · omega

/-! ## CIDR blocks -/

theorem cidr2mask_of_le {p : Nat} (hp : p ≤ 32) :
    cidr2mask p = some (Block.lowMask 32 (32 - p)) := by
  unfold cidr2mask
  by_cases h0 : p = 0
  · subst h0
    decide
  · have hsub : (32 - (p : Int)).toNat = 32 - p := by omega
    rw [if_neg (by omega), if_pos (by omega), hsub]
    rfl

/-- The interval of a CIDR block. -/
def cidrInterval (baseIp : BitVec 32) (p : Nat) : Interval 32 :=
  ⟨baseIp &&& ~~~Block.lowMask 32 (32 - p), closedEnd (baseIp ||| Block.lowMask 32 (32 - p))⟩

theorem insertCidr_of_le (exclude : Bool) (l : IpListIntervals) (baseIp : BitVec 32) {p : Nat}
    (hp : p ≤ 32) :
    insertCidr exclude l baseIp p = some (appended exclude l [cidrInterval baseIp p]) := by
  rw [insertCidr, cidr2mask_of_le hp]
  simp only [insert_eq_appended]
  rfl

/-- A CIDR block covers the addresses that agree on the prefix. -/
theorem mem_cidrInterval_iff {baseIp v : BitVec 32} {p : Nat} (hp : p ≤ 32) :
    v ∈ (cidrInterval baseIp p).toSet ↔
      (∀ i < p, v.getMsbD i = baseIp.getMsbD i) ∧ v ≠ 0xFFFFFFFF := by
  rw [cidrInterval, mem_closed_iff, ← and_assoc, Block.between_iff_div_eq (by omega),
    Block.div_eq_iff_getMsbD hp]

end IpListIntervals

end Leeloo
