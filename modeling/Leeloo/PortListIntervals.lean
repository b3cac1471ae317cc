/-
Leeloo.PortListIntervals — `port.h`, `port_interval.h` and
`port_list_intervals.h`: the list of intervals of ports.

A port is one 32-bit number, with the protocol in its high half, so the
ports of one protocol follow each other. A closed range of ports becomes
half-open with `+ 1`. For the last port of a protocol that gives a number
of no protocol, and for the last port of `UNSUPPORTED`, which is
`0xFFFFFFFF`, it gives 0.

In runs without that last port the list keeps the protocols apart
(`Apart`); a run that adds the last port and does not remove it does not
find it again (`ports_apart`).
-/
import Leeloo.Contains

namespace Leeloo

open HalfOpen Leeloo.Interval

/-- `port::protocol_enum`. -/
inductive ProtocolEnum where
  | tcp | udp | sctp | unsupported
  deriving DecidableEq, Repr

/-- The `uint16_t` of a protocol. -/
def ProtocolEnum.toU16 : ProtocolEnum → BitVec 16
  | tcp => 0x0100
  | udp => 0x0200
  | sctp => 0x0300
  | unsupported => 0xFFFF

/-- `port`, as its `_port.i32`. The structure in the union has `value`
first, which is the low half of a little-endian number. -/
structure Port where
  i32 : BitVec 32
  deriving DecidableEq, Repr

namespace Port

/-- `port(uint16_t value, protocol_enum protocol)`. -/
def ofValue (value : BitVec 16) (protocol : ProtocolEnum) : Port := ⟨protocol.toU16 ++ value⟩

/-- `value`. -/
def value (p : Port) : BitVec 16 := p.i32.extractLsb' 0 16

/-- `protocol`. -/
def protocol (p : Port) : BitVec 16 := p.i32.extractLsb' 16 16

/-- `as_u32`. -/
def asU32 (p : Port) : BitVec 32 := p.i32

end Port

/-- `port_interval::port_lower`. -/
def portLower (i : Interval 32) : Port := ⟨i.lower⟩

/-- `port_interval::port_upper`, which shows the interval as a closed
one. -/
def portUpper (i : Interval 32) : Port := ⟨i.upper - 1⟩

/-- `port_list_intervals`, a `list_intervals<port_interval>`. -/
abbrev PortListIntervals : Type := ListIntervals 32 32

namespace PortListIntervals

/-- `add(uint16_t a, uint16_t b, port::protocol_enum protocol)`. -/
def addRange (l : PortListIntervals) (a b : BitVec 16) (protocol : ProtocolEnum) :
    PortListIntervals :=
  ListIntervals.add l ⟨(Port.ofValue a protocol).asU32, (Port.ofValue b protocol).asU32 + 1⟩

/-- `add(port const p)`. -/
def addPort (l : PortListIntervals) (p : Port) : PortListIntervals :=
  ListIntervals.add l ⟨p.asU32, p.asU32 + 1⟩

/-- `remove(uint16_t a, uint16_t b, port::protocol_enum protocol)`. -/
def removeRange (l : PortListIntervals) (a b : BitVec 16) (protocol : ProtocolEnum) :
    PortListIntervals :=
  ListIntervals.remove l ⟨(Port.ofValue a protocol).asU32, (Port.ofValue b protocol).asU32 + 1⟩

/-- `remove(port const p)`. -/
def removePort (l : PortListIntervals) (p : Port) : PortListIntervals :=
  ListIntervals.remove l ⟨p.asU32, p.asU32 + 1⟩

/-- `contains(port const p)`. -/
def contains (l : PortListIntervals) (p : Port) : Option Bool := ListIntervals.contains l p.asU32

end PortListIntervals

/-! ## The calls of a run -/

/-- A call of `add` or `remove`, with a range of ports or a single port. -/
inductive PortCall where
  | add (a b : BitVec 16) (protocol : ProtocolEnum)
  | addPort (v : BitVec 16) (protocol : ProtocolEnum)
  | remove (a b : BitVec 16) (protocol : ProtocolEnum)
  | removePort (v : BitVec 16) (protocol : ProtocolEnum)
  deriving DecidableEq, Repr

namespace PortCall

def step (l : PortListIntervals) : PortCall → PortListIntervals
  | add a b protocol => l.addRange a b protocol
  | addPort v protocol => l.addPort (Port.ofValue v protocol)
  | remove a b protocol => l.removeRange a b protocol
  | removePort v protocol => l.removePort (Port.ofValue v protocol)

def first : PortCall → BitVec 16
  | add a _ _ => a
  | addPort v _ => v
  | remove a _ _ => a
  | removePort v _ => v

def last : PortCall → BitVec 16
  | add _ b _ => b
  | addPort v _ => v
  | remove _ b _ => b
  | removePort v _ => v

def protocol : PortCall → ProtocolEnum
  | add _ _ protocol => protocol
  | addPort _ protocol => protocol
  | remove _ _ protocol => protocol
  | removePort _ protocol => protocol

def isRemove : PortCall → Bool
  | add _ _ _ => false
  | addPort _ _ => false
  | remove _ _ _ => true
  | removePort _ _ => true

/-- The range is `a <= b`. -/
def Ordered (c : PortCall) : Prop := c.first ≤ c.last

/-- The call covers a port of a protocol. -/
def Covers (c : PortCall) (v : BitVec 16) (protocol : ProtocolEnum) : Prop :=
  c.protocol = protocol ∧ c.first ≤ v ∧ v ≤ c.last

/-- The range does not end with the last port of all. -/
def Fits (c : PortCall) : Prop := ¬ (c.protocol = .unsupported ∧ c.last = 0xFFFF)

instance : DecidablePred Ordered := fun _ => inferInstanceAs (Decidable (_ ≤ _))

instance : DecidablePred Fits := fun _ => inferInstanceAs (Decidable (¬ _))

/-- The interval a call adds or queues for removal. -/
def interval (c : PortCall) : Interval 32 :=
  ⟨(Port.ofValue c.first c.protocol).asU32, (Port.ofValue c.last c.protocol).asU32 + 1⟩

theorem step_eq (l : PortListIntervals) (c : PortCall) :
    c.step l = if c.isRemove then ListIntervals.remove l c.interval
      else ListIntervals.add l c.interval := by
  cases c <;> rfl

end PortCall

/-- `add` and `remove` calls on an empty list, and `aggregate`. -/
def portRun (sorts : Sorts 32) (calls : List PortCall) : PortListIntervals :=
  (calls.foldl PortCall.step {}).aggregate sorts

/-- The list answers for each protocol by itself, and no stored interval
reaches from one protocol into another. -/
structure Apart (calls : List PortCall) (l : PortListIntervals) : Prop where
  contains_iff : ∀ v protocol, ∃ r, PortListIntervals.contains l (.ofValue v protocol) = some r ∧
    (r = true ↔ (∃ c ∈ calls, c.isRemove = false ∧ c.Covers v protocol) ∧
      ¬ ∃ c ∈ calls, c.isRemove = true ∧ c.Covers v protocol)
  same_protocol : ∀ i ∈ l.intervals, (portLower i).protocol = (portUpper i).protocol

/-! ## The numbers of a protocol -/

theorem toNat_asU32 (v : BitVec 16) (protocol : ProtocolEnum) :
    (Port.ofValue v protocol).asU32.toNat = protocol.toU16.toNat * 2 ^ 16 + v.toNat := by
  rw [Port.asU32, Port.ofValue, BitVec.toNat_append, ← Nat.shiftLeft_add_eq_or_of_lt v.isLt,
    Nat.shiftLeft_eq]

theorem toU16_inj {p q : ProtocolEnum} (h : p.toU16.toNat = q.toU16.toNat) : p = q := by
  cases p <;> cases q <;> first | rfl | exact absurd h (by decide)

theorem toNat_protocol (p : Port) : p.protocol.toNat = p.i32.toNat / 2 ^ 16 := by
  have hlt := p.i32.isLt
  rw [Port.protocol, BitVec.extractLsb'_toNat, Nat.shiftRight_eq_div_pow]
  omega

namespace PortCall

variable {c : PortCall}

theorem toNat_interval_lower (c : PortCall) :
    c.interval.lower.toNat = c.protocol.toU16.toNat * 2 ^ 16 + c.first.toNat :=
  toNat_asU32 c.first c.protocol

/-- The upper bound does not wrap. -/
theorem toNat_interval_upper (h : c.Fits) :
    c.interval.upper.toNat = c.protocol.toU16.toNat * 2 ^ 16 + c.last.toNat + 1 := by
  have hsum := toNat_asU32 c.last c.protocol
  have hlast := c.last.isLt
  have hproto := c.protocol.toU16.isLt
  have hne : ¬ (c.protocol.toU16.toNat = 2 ^ 16 - 1 ∧ c.last.toNat = 2 ^ 16 - 1) := by
    rintro ⟨hp, hl⟩
    refine h ⟨?_, BitVec.eq_of_toNat_eq hl⟩
    exact toU16_inj (q := .unsupported) hp
  rw [interval, BitVec.toNat_add, hsum]
  show (_ + 1) % 2 ^ 32 = _
  omega

theorem interval_proper (h : c.Fits) (hc : c.Ordered) : c.interval.Proper := by
  have hle : c.first.toNat ≤ c.last.toNat := hc
  show c.interval.lower < c.interval.upper
  rw [BitVec.lt_def, toNat_interval_lower, toNat_interval_upper h]
  omega

/-- The interval of a call holds the ports the call covers. -/
theorem mem_interval_iff (h : c.Fits) (v : BitVec 16) (protocol : ProtocolEnum) :
    (Port.ofValue v protocol).asU32 ∈ c.interval.toSet ↔ c.Covers v protocol := by
  have hv := v.isLt
  have hfirst := c.first.isLt
  have hlast := c.last.isLt
  have hproto : c.protocol = protocol ↔ c.protocol.toU16.toNat = protocol.toU16.toNat :=
    ⟨fun heq => heq ▸ rfl, toU16_inj⟩
  rw [mem_toSet, BitVec.le_def, BitVec.lt_def, toNat_interval_lower, toNat_interval_upper h,
    toNat_asU32, Covers, hproto, BitVec.le_def, BitVec.le_def]
  omega

/-- Every number of the interval has the protocol of the call. -/
theorem protocol_of_mem (h : c.Fits) {x : BitVec 32} (hx : x ∈ c.interval.toSet) :
    x.toNat / 2 ^ 16 = c.protocol.toU16.toNat := by
  have hlast := c.last.isLt
  have hlow : c.interval.lower.toNat ≤ x.toNat := hx.1
  have hup : x.toNat < c.interval.upper.toNat := hx.2
  rw [toNat_interval_lower] at hlow
  rw [toNat_interval_upper h] at hup
  omega

end PortCall

/-! ## Runs -/

open PortCall

/-- The list of a run before `aggregate`. -/
def queued (calls : List PortCall) : PortListIntervals where
  intervals := (calls.filter fun c => !c.isRemove).map interval
  removedIntervals := (calls.filter isRemove).map interval

theorem foldl_step (calls : List PortCall) (l : PortListIntervals) :
    calls.foldl PortCall.step l = { l with
      intervals := l.intervals ++ (calls.filter fun c => !c.isRemove).map interval
      removedIntervals := l.removedIntervals ++ (calls.filter isRemove).map interval } := by
  induction calls generalizing l with
  | nil => simp
  | cons c calls ih =>
    rw [List.foldl_cons, ih, step_eq]
    cases hc : c.isRemove <;> simp [hc, ListIntervals.add, ListIntervals.remove]

theorem portRun_eq (sorts : Sorts 32) (calls : List PortCall) :
    portRun sorts calls = (queued calls).aggregate sorts := by
  rw [portRun, foldl_step]
  simp [queued]

theorem mem_covers_calls {calls : List PortCall} (h : ∀ c ∈ calls, c.Fits)
    {p : PortCall → Bool} (v : BitVec 16) (protocol : ProtocolEnum) :
    (Port.ofValue v protocol).asU32 ∈ covers ((calls.filter p).map interval) ↔
      ∃ c ∈ calls, p c = true ∧ c.Covers v protocol := by
  constructor
  · rintro ⟨i, hi, hv⟩
    obtain ⟨c, hc, rfl⟩ := List.mem_map.mp hi
    obtain ⟨hmem, hp⟩ := List.mem_filter.mp hc
    exact ⟨c, hmem, hp, (mem_interval_iff (h c hmem) v protocol).mp hv⟩
  · rintro ⟨c, hmem, hp, hcov⟩
    exact ⟨c.interval, List.mem_map_of_mem (List.mem_filter.mpr ⟨hmem, hp⟩),
      (mem_interval_iff (h c hmem) v protocol).mpr hcov⟩

theorem allProper_calls {calls : List PortCall} (h : ∀ c ∈ calls, c.Fits)
    (hc : ∀ c ∈ calls, c.Ordered) (p : PortCall → Bool) :
    AllProper ((calls.filter p).map interval) := by
  intro i hi
  obtain ⟨c, hmem, rfl⟩ := List.mem_map.mp hi
  have hcalls := (List.mem_filter.mp hmem).1
  exact interval_proper (h c hcalls) (hc c hcalls)

/-- No protocol follows another one without a gap. -/
theorem protocol_succ_ne (p q : ProtocolEnum) : p.toU16.toNat + 1 ≠ q.toU16.toNat := by
  cases p <;> cases q <;> decide

/-- An interval made of covered numbers stays inside one protocol: between
two protocols there is a number of none. -/
theorem same_protocol_of_covers {calls : List PortCall} (h : ∀ c ∈ calls, c.Fits)
    {i : Interval 32} (hi : i.Proper)
    (hcov : ∀ x ∈ i.toSet, ∃ c ∈ calls, x ∈ c.interval.toSet) :
    (portLower i).protocol = (portUpper i).protocol := by
  have hlt : i.lower.toNat < i.upper.toNat := hi
  have hupper := i.upper.isLt
  have hlast : (i.upper - 1).toNat = i.upper.toNat - 1 := by bv_omega
  apply BitVec.eq_of_toNat_eq
  rw [toNat_protocol, toNat_protocol, portLower, portUpper, hlast]
  show i.lower.toNat / 2 ^ 16 = (i.upper.toNat - 1) / 2 ^ 16
  by_contra hne
  obtain ⟨c, hc, hlow⟩ := hcov i.lower hi.lower_mem
  have hp := protocol_of_mem (h c hc) hlow
  -- the first number behind the protocol of the lower bound
  have hnext : (BitVec.ofNat 32 ((c.protocol.toU16.toNat + 1) * 2 ^ 16)).toNat =
      (c.protocol.toU16.toNat + 1) * 2 ^ 16 := by
    rw [BitVec.toNat_ofNat, Nat.mod_eq_of_lt (by omega)]
  obtain ⟨d, hd, hmem⟩ := hcov (BitVec.ofNat 32 ((c.protocol.toU16.toNat + 1) * 2 ^ 16)) (by
    rw [mem_toSet, BitVec.le_def, BitVec.lt_def, hnext]
    omega)
  have hq := protocol_of_mem (h d hd) hmem
  rw [hnext] at hq
  exact protocol_succ_ne c.protocol d.protocol (by omega)

/-- **A run without the last port keeps the protocols apart.** -/
theorem apart_of_fits {calls : List PortCall} (hc : ∀ c ∈ calls, c.Ordered)
    (h : ∀ c ∈ calls, c.Fits) (sorts : Sorts 32) : Apart calls (portRun sorts calls) := by
  have hA := allProper_calls h hc fun c => !c.isRemove
  have hR := allProper_calls h hc isRemove
  have hn := ListIntervals.aggregate_normal sorts (l := queued calls) hA hR
  have hcovers := ListIntervals.covers_aggregate sorts (l := queued calls) hA hR
  rw [← portRun_eq] at hn hcovers
  constructor
  · intro v protocol
    obtain ⟨r, hr, hiff⟩ := contains_spec (le_refl 32) hn (Port.ofValue v protocol).asU32
    refine ⟨r, hr, ?_⟩
    rw [hiff, hcovers, Set.mem_sdiff, queued, mem_covers_calls h, mem_covers_calls h]
    simp only [Bool.not_eq_true']
  · intro i hi
    refine same_protocol_of_covers h (hn.proper i hi) fun x hx => ?_
    have hmem : x ∈ covers (portRun sorts calls).intervals := ⟨i, hi, hx⟩
    rw [hcovers] at hmem
    obtain ⟨j, hj, hxj⟩ := hmem.1
    obtain ⟨c, hcmem, rfl⟩ := List.mem_map.mp hj
    exact ⟨c, (List.mem_filter.mp hcmem).1, hxj⟩

/-- The last port is in no interval. -/
theorem not_contains_last {l : PortListIntervals} :
    PortListIntervals.contains l (.ofValue 0xFFFF .unsupported) ≠ some true := by
  intro h
  obtain ⟨i, _, hi⟩ := exists_of_contains h
  have hup : (0xFFFFFFFF : BitVec 32) < i.upper := (contains_iff.mp hi).2
  have hupper := i.upper.isLt
  have hlt : 2 ^ 32 - 1 < i.upper.toNat := hup
  omega

/-- **When the protocols are kept apart**: in every run none of whose calls
ends with the last port. With such a range added, and none removed, they
are not. -/
theorem ports_apart (calls : List PortCall) (hc : ∀ c ∈ calls, c.Ordered) (sorts : Sorts 32) :
    ((∀ c ∈ calls, c.Fits) → Apart calls (portRun sorts calls)) ∧
      ((∀ c ∈ calls, c.isRemove = true → c.Fits) →
        (Apart calls (portRun sorts calls) ↔ ∀ c ∈ calls, c.Fits)) := by
  refine ⟨fun h => apart_of_fits hc h sorts, fun hremove => ⟨fun hapart c hmem => ?_,
    fun h => apart_of_fits hc h sorts⟩⟩
  by_contra hfits
  obtain ⟨hproto, hlast⟩ := not_not.mp hfits
  obtain ⟨r, hr, hiff⟩ := hapart.contains_iff 0xFFFF .unsupported
  have hadd : c.isRemove = false := by
    rw [← Bool.not_eq_true]
    exact fun hrem => hfits (hremove c hmem hrem)
  have hadds : ∃ c ∈ calls, c.isRemove = false ∧ c.Covers 0xFFFF .unsupported :=
    ⟨c, hmem, hadd, hproto, by bv_omega, hlast ▸ le_refl _⟩
  have hnone : ¬ ∃ c ∈ calls, c.isRemove = true ∧ c.Covers 0xFFFF .unsupported := by
    rintro ⟨d, hd, hrem, hdproto, _, hdlast⟩
    exact hremove d hd hrem ⟨hdproto, by bv_omega⟩
  rw [hiff.mpr ⟨hadds, hnone⟩] at hr
  exact not_contains_last hr

theorem ports_apart_sample :
    Apart [.add 0 0xFFFF .tcp, .addPort 53 .udp, .remove 80 90 .tcp]
      (portRun (.insertion 32) [.add 0 0xFFFF .tcp, .addPort 53 .udp, .remove 80 90 .tcp]) :=
  (ports_apart [.add 0 0xFFFF .tcp, .addPort 53 .udp, .remove 80 90 .tcp] (by decide)
    (.insertion 32)).1 (by decide)

/-- The last port is not found when it is added; removed behind another
range, it makes ports of other protocols found that were never added. -/
theorem not_ports_apart :
    PortListIntervals.contains (portRun (.insertion 32) [.addPort 0xFFFF .unsupported])
        (.ofValue 0xFFFF .unsupported) = some false ∧
      ¬ Apart [.addPort 0xFFFF .unsupported]
        (portRun (.insertion 32) [.addPort 0xFFFF .unsupported]) ∧
      PortListIntervals.contains (portRun (.insertion 32) [.add 0 100 .unsupported,
        .removePort 10 .unsupported, .remove 50 0xFFFF .unsupported]) (.ofValue 80 .tcp) =
          some true := by
  refine ⟨by decide, fun h => ?_, by decide⟩
  obtain ⟨r, hr, hiff⟩ := h.contains_iff 0xFFFF .unsupported
  have hadd : (∃ c ∈ [PortCall.addPort 0xFFFF .unsupported], c.isRemove = false ∧
      c.Covers 0xFFFF .unsupported) ∧ ¬ ∃ c ∈ [PortCall.addPort 0xFFFF .unsupported],
        c.isRemove = true ∧ c.Covers 0xFFFF .unsupported := by
    simp [Covers, PortCall.isRemove, PortCall.protocol, first, last]
  rw [hiff.mpr hadd] at hr
  exact not_contains_last hr

end Leeloo
