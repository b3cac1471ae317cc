/-
Leeloo.Entry — the entries that are one interval: an address, a CIDR
block, a range of two addresses, and a range whose upper end is the last
octet alone.

`addresses` says what each of them denotes, in terms of the values written
down. `parse_ips_add` appends one interval that covers it, except that
255.255.255.255 is always left out.
-/
import Leeloo.Address

namespace Leeloo

open Text HalfOpen IpsParser
open IpListIntervals (appended closedEnd cidrInterval)

/-- An entry, as it is written. -/
inductive Entry where
  | single (a : Address) (ha : a.Full)
  | cidr (a : Address) (p : Octet) (hp : p.value ≤ 32)
  | range (a b : Address) (ha : a.Full) (hb : b.Full)
  | lastOctet (a : Address) (ha : a.Full) (d : Octet) (hd : d.Tight ∧ d.Short)

namespace Address

/-- The address with another last octet. -/
def withLast (a : Address) (d : Octet) : BitVec 32 :=
  quad (a.octet 0) (a.octet 1) (a.octet 2) d.value

theorem withLast_eq (a : Address) (d : Octet) :
    (a.value &&& 0xFFFFFF00) ||| BitVec.ofNat 32 d.value = a.withLast d :=
  quad_replace_last (a.octet_le 0) (a.octet_le 1) (a.octet_le 2) (a.octet_le 3) d.value_le

@[simp] theorem dash_notMem (a : Address) : '-' ∉ a.text := a.notMem_text (by decide) rfl rfl
@[simp] theorem slash_notMem (a : Address) : '/' ∉ a.text := a.notMem_text (by decide) rfl rfl

end Address

theorem Octet.leadingDigits_text (o : Octet) : CString.leadingDigits o.text = o.digits := by
  refine CString.leadingDigits_numeral o.before_space o.digits_digit o.digits_ne_nil ?_
  intro c hc
  have hspace : isspace c = true := List.all_eq_true.mp o.after_space c (List.mem_of_mem_head? hc)
  cases hdigit : isdigit c with
  | false => rfl
  | true => simp [isspace_of_isdigit hdigit] at hspace

/-- The prefix length that is read is the one that is written. -/
theorem Octet.cidrOf_text (o : Octet) : cidrOf o.text = o.value := by
  have hle := o.value_le
  have hlong : longOf o.text = o.value := by
    rw [longOf, o.leadingDigits_text, ← Octet.value]
    omega
  rw [cidrOf_of_lt o.dash_notMem (by omega), hlong]

namespace Entry

def text : Entry → List Char
  | single a _ => a.text
  | cidr a p _ => a.text ++ '/' :: p.text
  | range a b _ _ => a.text ++ '-' :: b.text
  | lastOctet a _ d _ => a.text ++ '-' :: d.text

/-- The addresses an entry denotes. -/
def addresses : Entry → Set (BitVec 32)
  | single a _ => {a.value}
  | cidr a p _ => {v | ∀ i < p.value, v.getMsbD i = a.value.getMsbD i}
  | range a b _ _ => Set.Icc (min a.value b.value) (max a.value b.value)
  | lastOctet a _ d _ => Set.Icc (min a.value (a.withLast d)) (max a.value (a.withLast d))

/-- The interval an entry is stored as. -/
def interval : Entry → Interval 32
  | single a _ => ⟨a.value, closedEnd a.value⟩
  | cidr a p _ => cidrInterval a.value p.value
  | range a b _ _ => rangeInterval (a.value, b.value)
  | lastOctet a _ d _ => rangeInterval (a.value, a.withLast d)

/-- The interval covers the entry, less the last address. -/
theorem interval_toSet (e : Entry) : e.interval.toSet = e.addresses \ {0xFFFFFFFF} := by
  ext v
  cases e with
  | single a =>
    simp only [interval, addresses, IpListIntervals.mem_closed_iff, Set.mem_sdiff,
      Set.mem_singleton_iff, ← and_assoc]
    refine and_congr_left fun _ => ?_
    rw [and_comm, le_antisymm_iff]
  | cidr a p hp =>
    simpa [interval, addresses] using IpListIntervals.mem_cidrInterval_iff hp
  | range a b => exact mem_rangeInterval_iff
  | lastOctet a ha d => exact mem_rangeInterval_iff

/-- **An entry appends its interval.** -/
theorem parseIps_text (e : Entry) {str : CString} (hstr : str.chars = e.text) (exclude : Bool)
    (l : IpListIntervals) :
    parseIps exclude l str = some (true, appended exclude l [e.interval]) := by
  have hdash : ∀ a : Address, a.text.count '-' = 0 := fun a =>
    List.count_eq_zero_of_not_mem a.dash_notMem
  have hslash : ∀ a : Address, a.text.count '/' = 0 := fun a =>
    List.count_eq_zero_of_not_mem a.slash_notMem
  have hodash : ∀ o : Octet, o.text.count '-' = 0 := fun o =>
    List.count_eq_zero_of_not_mem o.dash_notMem
  have hoslash : ∀ o : Octet, o.text.count '/' = 0 := fun o =>
    List.count_eq_zero_of_not_mem o.slash_notMem
  rw [parseIps_eq]
  cases e with
  | single a ha => simp [hstr, text, hdash, hslash, Address.dotted_full ha, interval]
  | cidr a p hp =>
    have hneg : ¬ (p.value : Int) < 0 := by omega
    have hbranch : parseCidr exclude l str =
        some (true, appended exclude l [cidrInterval a.value p.value]) := by
      rw [parseCidr_text exclude l hstr a.slash_notMem, p.cidrOf_text, if_neg hneg,
        a.dotted_zero]
      simp [IpListIntervals.insertCidr_of_le exclude l a.value hp]
    simp [hstr, text, hdash, hslash, hodash, hoslash, hbranch, interval]
  | range a b ha hb =>
    have hends : rangeEnds a.text b.text = some (a.value, b.value) := by
      rw [rangeEnds_of_some (Address.dotted_full ha), Address.dotted_full hb]
    have hbranch := parseRange_text exclude l hstr a.dash_notMem
    rw [hends] at hbranch
    simp [hstr, text, hdash, hslash, hbranch, interval]
  | lastOctet a ha d hd =>
    have hfew : dotted 3 d.text = none := by
      refine dotted_of_few ?_
      rw [List.splitOn_eq_singleton d.dot_notMem]
      simp
    have hle : ¬ 255 < d.value := Nat.not_lt_of_le d.value_le
    have hends : rangeEnds a.text d.text = some (a.value, a.withLast d) := by
      rw [rangeEnds_of_some (Address.dotted_full ha), hfew, Octet.digits3_of_tight hd.1 hd.2]
      simp [hle]
      exact a.withLast_eq d
    have hbranch := parseRange_text exclude l hstr a.dash_notMem
    rw [hends] at hbranch
    simp [hstr, text, hdash, hslash, hodash, hoslash, hbranch, interval]

/-- **Adding an entry appends one interval that covers what it denotes less
255.255.255.255, and removing it queues the same interval.** -/
theorem parseIps_entry (e : Entry) (str : CString) (hstr : str.chars = e.text)
    (l : IpListIntervals) :
    ∃ i : Interval 32,
      parseIpsAdd l str = some (true, { l with intervals := l.intervals ++ [i] }) ∧
      parseIpsRemove l str =
        some (true, { l with removedIntervals := l.removedIntervals ++ [i] }) ∧
      i.toSet = e.addresses \ {0xFFFFFFFF} :=
  ⟨e.interval, e.parseIps_text hstr false l, e.parseIps_text hstr true l, e.interval_toSet⟩

/-- `172.16.1.9-30`. -/
def rangeSample : Entry :=
  .lastOctet
    (.four (.plain "172".toList (by decide)) (.plain "16".toList (by decide))
      (.plain "1".toList (by decide)) (.plain "9".toList (by decide)) (by decide))
    rfl (.plain "30".toList (by decide)) ⟨by decide, by decide⟩

theorem parseIps_entry_rangeSample :
    rangeSample.text = "172.16.1.9-30".toList ∧
    ∃ i : Interval 32,
      parseIpsAdd {} ⟨"172.16.1.9-30".toList, 4096, by decide, by decide⟩ =
        some (true, { ({} : IpListIntervals) with intervals := [i] }) ∧
      i.toSet = rangeSample.addresses \ {0xFFFFFFFF} := by
  refine ⟨by decide, ?_⟩
  obtain ⟨i, hadd, -, hset⟩ := parseIps_entry rangeSample
    ⟨"172.16.1.9-30".toList, 4096, by decide, by decide⟩ (by decide) {}
  exact ⟨i, by simpa using hadd, hset⟩

end Entry

end Leeloo
