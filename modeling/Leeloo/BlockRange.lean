/-
Leeloo.BlockRange — the documented block ranges, such as
`10.4-5.8-11.0-255` and `192.168-170.4-8.0`, and which of them
`parse_ips_add` and `parse_ips_remove` read.

A block range is given by its syntax: four fields, each an octet or a pair
of octets, and the white space around each number. `text` writes it down
and `addresses` is the set it denotes; the parser model knows neither.

Which branch of `__parse_ips` a block range takes depends on its number of
dashes alone. With one dash it is read as a range of two addresses, so it
has to stand in the last field, and the number behind it is read without
trimming. With more dashes it is read field by field, and then the last
field must have one: the length of a last field without a dash is computed
from a null pointer.
-/
import Leeloo.IpsParserBranches
import Leeloo.Lib.Block

namespace Leeloo

open Text HalfOpen IpsParser
open IpListIntervals (appended closedEnd)

/-- A decimal octet, as it is written. -/
structure Octet where
  before : List Char
  digits : List Char
  after : List Char
  before_space : before.all isspace = true
  after_space : after.all isspace = true
  digits_ne_nil : digits ≠ []
  digits_digit : digits.all isdigit = true
  digits_le : decimal digits ≤ 255

namespace Octet

def text (o : Octet) : List Char := o.before ++ o.digits ++ o.after

def value (o : Octet) : Nat := decimal o.digits

theorem value_le (o : Octet) : o.value ≤ 255 := o.digits_le

/-- Written with no white space around it. -/
def Tight (o : Octet) : Prop := o.before = [] ∧ o.after = []

/-- Written with as many digits as `atoi3` takes. -/
def Short (o : Octet) : Prop := o.digits.length ≤ 3

/-- Written as its digits alone. -/
def plain (digits : List Char)
    (h : digits ≠ [] ∧ digits.all isdigit = true ∧ decimal digits ≤ 255) : Octet :=
  ⟨[], digits, [], rfl, rfl, h.1, h.2.1, h.2.2⟩

theorem notMem_text (o : Octet) {c : Char} (hspace : isspace c = false)
    (hdigit : isdigit c = false) : c ∉ o.text := by
  have hb : ∀ x ∈ o.before, isspace x = true := List.all_eq_true.mp o.before_space
  have ha : ∀ x ∈ o.after, isspace x = true := List.all_eq_true.mp o.after_space
  have hd : ∀ x ∈ o.digits, isdigit x = true := List.all_eq_true.mp o.digits_digit
  intro hmem
  simp only [text, List.mem_append] at hmem
  obtain (h | h) | h := hmem
  · simp [hb c h] at hspace
  · simp [hd c h] at hdigit
  · simp [ha c h] at hspace

@[simp] theorem dash_notMem (o : Octet) : '-' ∉ o.text := o.notMem_text rfl rfl
@[simp] theorem dot_notMem (o : Octet) : '.' ∉ o.text := o.notMem_text rfl rfl
@[simp] theorem slash_notMem (o : Octet) : '/' ∉ o.text := o.notMem_text rfl rfl

theorem trim_text (o : Octet) : trim o.text = o.digits :=
  trim_padded o.before_space o.after_space
    (fun c hc => isspace_of_isdigit (List.all_eq_true.mp o.digits_digit c hc))

theorem numeral3_of_short {o : Octet} (h : o.Short) : numeral3 o.text = some o.value := by
  rw [numeral3, trim_text, digits3_eq_some o.digits_ne_nil h o.digits_digit, value]

theorem numeral3_of_not_short {o : Octet} (h : ¬ o.Short) : numeral3 o.text = none := by
  have hlen : 4 ≤ o.digits.length := Nat.lt_of_not_le h
  rw [numeral3, trim_text, digits3_of_length (Or.inr hlen)]

theorem text_of_tight {o : Octet} (h : o.Tight) : o.text = o.digits := by
  simp [text, h.1, h.2]

/-- Untrimmed, white space is not a digit. -/
theorem digits3_of_not_tight {o : Octet} (h : ¬ o.Tight) : digits3 o.text = none := by
  have hspaced : ∀ {s : List Char}, s.all isspace = true → s ≠ [] → ∃ c ∈ s, isdigit c = false := by
    intro s hs hne
    obtain ⟨c, s, rfl⟩ := List.exists_cons_of_ne_nil hne
    have hc : isspace c = true := List.all_eq_true.mp hs c List.mem_cons_self
    refine ⟨c, List.mem_cons_self, ?_⟩
    cases hd : isdigit c with
    | false => rfl
    | true => rw [isspace_of_isdigit hd] at hc; cases hc
  have hbad : ∃ c ∈ o.text, isdigit c = false := by
    rcases not_and_or.mp h with hb | ha
    · obtain ⟨c, hc, hd⟩ := hspaced o.before_space hb
      exact ⟨c, by simp [text, hc], hd⟩
    · obtain ⟨c, hc, hd⟩ := hspaced o.after_space ha
      exact ⟨c, by simp [text, hc], hd⟩
  obtain ⟨c, hc, hd⟩ := hbad
  exact digits3_of_all_false (List.all_eq_false.mpr ⟨c, hc, by simp [hd]⟩)

theorem digits3_of_tight {o : Octet} (h : o.Tight) (hs : o.Short) :
    digits3 o.text = some o.value := by
  rw [text_of_tight h, digits3_eq_some o.digits_ne_nil hs o.digits_digit, value]

instance (o : Octet) : Decidable o.Short := inferInstanceAs (Decidable (_ ≤ _))

instance (o : Octet) : Decidable o.Tight := inferInstanceAs (Decidable (_ ∧ _))

theorem dottedTail_cons (o : Octet) {k : Nat} (hk : k < 4) (minDots value : Nat)
    (fs : List (List Char)) :
    dottedTail minDots k value (o.text :: fs) =
      if o.Short then dottedTail minDots (k + 1) (256 * value + o.value) fs else none := by
  have hle : ¬ 255 < o.value := Nat.not_lt_of_le o.value_le
  by_cases hs : o.Short
  · simp [dottedTail, Nat.ne_of_lt hk, o.numeral3_of_short hs, hle, hs]
  · simp [dottedTail_of_none (o.numeral3_of_not_short hs), hs]

end Octet

/-! ## Fields -/

/-- A field of a block range. -/
inductive Field where
  | octet (o : Octet)
  | pair (x y : Octet)

namespace Field

def text : Field → List Char
  | octet o => o.text
  | pair x y => x.text ++ '-' :: y.text

def octets : Field → List Octet
  | octet o => [o]
  | pair x y => [x, y]

def isPair : Field → Bool
  | octet _ => false
  | pair _ _ => true

/-- The octets the field stands for; a pair may be written in either
order. -/
def range : Field → Set Nat
  | octet o => Set.Icc o.value o.value
  | pair x y => Set.Icc (min x.value y.value) (max x.value y.value)

/-- Every number of the field is short. -/
def Short (f : Field) : Prop := ∀ o ∈ f.octets, o.Short

@[simp] theorem dot_notMem (f : Field) : '.' ∉ f.text := by
  cases f <;> simp [text]

@[simp] theorem slash_notMem (f : Field) : '/' ∉ f.text := by
  cases f <;> simp [text]

theorem count_dash (f : Field) : f.text.count '-' = if f.isPair then 1 else 0 := by
  cases f <;> simp [text, isPair, List.count_eq_zero_of_not_mem]

/-- The bytes the parser takes a field for. -/
def bytes : Field → ByteInterval
  | octet o => byteInterval o.value o.value
  | pair x y => byteInterval x.value y.value

instance (f : Field) : Decidable f.Short :=
  inferInstanceAs (Decidable (∀ o ∈ f.octets, o.Short))

/-- The result of reading the field. -/
def parsed (f : Field) : Option ByteInterval := if f.Short then some f.bytes else none

theorem parsed_octet (o : Octet) :
    ((numeral3 o.text).map fun n => byteInterval n n) = (octet o).parsed := by
  by_cases h : o.Short
  · simp [o.numeral3_of_short h, parsed, Short, octets, h, bytes]
  · simp [o.numeral3_of_not_short h, parsed, Short, octets, h]

theorem parsed_pair (x y : Octet) :
    ((numeral3 x.text).bind fun m => (numeral3 y.text).map fun n => byteInterval m n) =
      (pair x y).parsed := by
  by_cases hx : x.Short
  · by_cases hy : y.Short
    · simp [x.numeral3_of_short hx, y.numeral3_of_short hy, parsed, Short, octets, hx, hy, bytes]
    · simp [y.numeral3_of_not_short hy, parsed, Short, octets, hy]
  · simp [x.numeral3_of_not_short hx, parsed, Short, octets, hx]

theorem fieldBytes_text (f : Field) : fieldBytes f.text = f.parsed := by
  cases f with
  | octet o => rw [text, fieldBytes_byte o.dash_notMem, parsed_octet]
  | pair x y => rw [text, fieldBytes_pair x.dash_notMem, parsed_pair]

theorem dash_mem_iff (f : Field) : '-' ∈ f.text ↔ f.isPair = true := by
  cases f <;> simp [text, isPair]

theorem bytes_mem_iff (f : Field) (n : Nat) :
    (f.bytes.min.toNat ≤ n ∧ n ≤ f.bytes.max.toNat) ↔ n ∈ f.range := by
  have hset : ∀ x y : Octet, ((byteInterval x.value y.value).min.toNat ≤ n ∧
      n ≤ (byteInterval x.value y.value).max.toNat) ↔
        n ∈ Set.Icc (min x.value y.value) (max x.value y.value) := by
    intro x y
    have hx : x.value % 256 = x.value := Nat.mod_eq_of_lt (Nat.lt_succ_of_le x.value_le)
    have hy : y.value % 256 = y.value := Nat.mod_eq_of_lt (Nat.lt_succ_of_le y.value_le)
    simp only [byteInterval, ByteInterval.set, gt_iff_lt, BitVec.lt_def, BitVec.toNat_ofNat,
      Nat.reducePow, hx, hy, Set.mem_Icc]
    split
    · simp only [BitVec.toNat_ofNat, Nat.reducePow, hx, hy]
      omega
    · simp only [BitVec.toNat_ofNat, Nat.reducePow, hx, hy]
      omega
  cases f with
  | octet o => simpa [bytes, range] using hset o o
  | pair x y => exact hset x y

theorem range_le {f : Field} {n : Nat} (h : n ∈ f.range) : n ≤ 255 := by
  cases f with
  | octet o =>
    have hv : o.value ≤ 255 := o.value_le
    exact le_trans h.2 hv
  | pair x y =>
    have hx : x.value ≤ 255 := x.value_le
    have hy : y.value ≤ 255 := y.value_le
    exact le_trans h.2 (max_le hx hy)

end Field

/-! ## Addresses -/

/-- The address `a.b.c.d`. -/
def quad (a b c d : Nat) : BitVec 32 := BitVec.ofNat 32 (2 ^ 24 * a + 2 ^ 16 * b + 2 ^ 8 * c + d)

theorem toNat_quad {a b c d : Nat} (ha : a ≤ 255) (hb : b ≤ 255) (hc : c ≤ 255) (hd : d ≤ 255) :
    (quad a b c d).toNat = 2 ^ 24 * a + 2 ^ 16 * b + 2 ^ 8 * c + d := by
  rw [quad, BitVec.toNat_ofNat, Nat.mod_eq_of_lt (by omega)]

/-- `ip_base` with a last byte. -/
theorem ipBase_or {a b c d : Nat} (hb : b ≤ 255) (hc : c ≤ 255) (hd : d ≤ 255) :
    ipBase (BitVec.ofNat 32 a) (BitVec.ofNat 32 b) (BitVec.ofNat 32 c) ||| BitVec.ofNat 32 d =
      quad a b c d := by
  have hab : 2 ^ 24 * a + b * 2 ^ 16 = 2 ^ 16 * (2 ^ 8 * a + b) := by ring
  have habc : 2 ^ 16 * (2 ^ 8 * a + b) + c * 2 ^ 8 = 2 ^ 8 * (2 ^ 16 * a + 2 ^ 8 * b + c) := by ring
  rw [ipBase, Word.ofNat_shiftLeft, Word.ofNat_shiftLeft, Word.ofNat_shiftLeft, Nat.mul_comm a,
    Word.ofNat_or_of_lt (by omega), hab, Word.ofNat_or_of_lt (by omega), habc,
    Word.ofNat_or_of_lt (by omega), quad]
  congr 1
  ring

/-- Clearing the last octet and setting another. -/
theorem quad_replace_last {a b c d e : Nat} (ha : a ≤ 255) (hb : b ≤ 255) (hc : c ≤ 255)
    (hd : d ≤ 255) (he : e ≤ 255) :
    (quad a b c d &&& 0xFFFFFF00) ||| BitVec.ofNat 32 e = quad a b c e := by
  have hmask : (0xFFFFFF00 : BitVec 32) = ~~~Block.lowMask 32 8 := by decide
  have hclear : quad a b c d &&& 0xFFFFFF00 =
      BitVec.ofNat 32 (2 ^ 8 * (2 ^ 16 * a + 2 ^ 8 * b + c)) := by
    rw [BitVec.toNat_eq, hmask, Block.toNat_and_not_lowMask (by omega), toNat_quad ha hb hc hd,
      Block.floor, BitVec.toNat_ofNat]
    omega
  rw [hclear, Word.ofNat_or_of_lt (by omega), quad]
  congr 1
  ring

/-- The addresses between two that differ in the last octet. -/
theorem mem_quads_iff {a b c lo hi : Nat} (ha : a ≤ 255) (hb : b ≤ 255) (hc : c ≤ 255)
    (hlo : lo ≤ 255) (hhi : hi ≤ 255) {v : BitVec 32} :
    (quad a b c lo ≤ v ∧ v ≤ quad a b c hi) ↔ ∃ d, (lo ≤ d ∧ d ≤ hi) ∧ v = quad a b c d := by
  rw [BitVec.le_def, BitVec.le_def, toNat_quad ha hb hc hlo, toNat_quad ha hb hc hhi]
  constructor
  · rintro ⟨hl, hh⟩
    refine ⟨v.toNat - (2 ^ 24 * a + 2 ^ 16 * b + 2 ^ 8 * c), by omega, ?_⟩
    rw [BitVec.toNat_eq, toNat_quad ha hb hc (by omega)]
    omega
  · rintro ⟨d, ⟨hl, hh⟩, rfl⟩
    rw [toNat_quad ha hb hc (by omega)]
    omega

/-! ## Block ranges -/

/-- A block range, as it is written. -/
structure BlockRange where
  a : Field
  b : Field
  c : Field
  d : Field

namespace BlockRange

/-- The four fields separated by dots. -/
def text (r : BlockRange) : List Char :=
  r.a.text ++ '.' :: (r.b.text ++ '.' :: (r.c.text ++ '.' :: r.d.text))

def fields (r : BlockRange) : List Field := [r.a, r.b, r.c, r.d]

/-- How many fields are pairs. -/
def pairs (r : BlockRange) : Nat := r.fields.countP Field.isPair

/-- The addresses with each octet in the range of its field. -/
def addresses (r : BlockRange) : Set (BitVec 32) :=
  {v | ∃ a ∈ r.a.range, ∃ b ∈ r.b.range, ∃ c ∈ r.c.range, ∃ d ∈ r.d.range, v = quad a b c d}

/-- Every number is short. -/
def Short (r : BlockRange) : Prop := ∀ f ∈ r.fields, f.Short

instance (r : BlockRange) : Decidable r.Short :=
  inferInstanceAs (Decidable (∀ f ∈ r.fields, f.Short))

theorem count_dash (r : BlockRange) : r.text.count '-' = r.pairs := by
  simp only [text, pairs, fields, List.count_append, List.count_cons, Field.count_dash,
    List.countP_cons, List.countP_nil]
  simp
  omega

theorem count_slash (r : BlockRange) : r.text.count '/' = 0 := by
  simp [text, List.count_eq_zero]

/-- **A block range is read as a range of two addresses when it has one
pair, and field by field when it has more.** -/
theorem parseIps_text {r : BlockRange} (hpair : 0 < r.pairs) {str : CString}
    (hstr : str.chars = r.text) (exclude : Bool) (l : IpListIntervals) :
    parseIps exclude l str =
      if r.pairs = 1 then parseRange exclude l str else parseBlocks exclude l str := by
  rw [parseIps_eq, hstr, count_dash, count_slash]
  simp [Nat.ne_of_gt hpair]

/-! ## Field by field -/

/-- The interval of addresses a block range appends for each choice of its
first three octets. -/
def intervals (r : BlockRange) : List (Interval 32) :=
  blockIntervals r.a.bytes r.b.bytes r.c.bytes r.d.bytes

theorem mem_values_iff {f : Field} {x : BitVec 32} :
    x ∈ f.bytes.values ↔ ∃ n ∈ f.range, x = BitVec.ofNat 32 n := by
  simp only [ByteInterval.values, List.mem_map, List.mem_range'_1]
  constructor
  · rintro ⟨n, hn, rfl⟩
    exact ⟨n, (f.bytes_mem_iff n).mp (by omega), rfl⟩
  · rintro ⟨n, hn, rfl⟩
    have hbytes := (f.bytes_mem_iff n).mpr hn
    exact ⟨n, by omega, rfl⟩

/-- The addresses one insertion of the nested loops covers. -/
theorem mem_insertion_iff {a b c : Nat} (ha : a ≤ 255) (hb : b ≤ 255) (hc : c ≤ 255) (f : Field)
    {v : BitVec 32} :
    v ∈ (⟨ipBase (BitVec.ofNat 32 a) (BitVec.ofNat 32 b) (BitVec.ofNat 32 c) |||
        f.bytes.min.setWidth 32,
      closedEnd (ipBase (BitVec.ofNat 32 a) (BitVec.ofNat 32 b) (BitVec.ofNat 32 c) |||
        f.bytes.max.setWidth 32)⟩ : Interval 32).toSet ↔
      (∃ d ∈ f.range, v = quad a b c d) ∧ v ≠ 0xFFFFFFFF := by
  have hmin : f.bytes.min.toNat ≤ 255 := Nat.le_of_lt_succ f.bytes.min.isLt
  have hmax : f.bytes.max.toNat ≤ 255 := Nat.le_of_lt_succ f.bytes.max.isLt
  rw [IpListIntervals.mem_closed_iff, ← BitVec.ofNat_toNat, ← BitVec.ofNat_toNat,
    ipBase_or hb hc hmin, ipBase_or hb hc hmax, ← and_assoc,
    mem_quads_iff ha hb hc hmin hmax]
  simp only [f.bytes_mem_iff]

/-- The insertions cover the block range, less the last address. -/
theorem covers_intervals (r : BlockRange) :
    covers r.intervals = r.addresses \ {0xFFFFFFFF} := by
  ext v
  have hmem : v ∈ covers r.intervals ↔
      ∃ a ∈ r.a.range, ∃ b ∈ r.b.range, ∃ c ∈ r.c.range,
        (∃ d ∈ r.d.range, v = quad a b c d) ∧ v ≠ 0xFFFFFFFF := by
    constructor
    · rintro ⟨i, hi, hv⟩
      simp only [intervals, blockIntervals, List.mem_flatMap, List.mem_map] at hi
      obtain ⟨x, hx, y, hy, z, hz, rfl⟩ := hi
      obtain ⟨a, ha, rfl⟩ := mem_values_iff.mp hx
      obtain ⟨b, hb, rfl⟩ := mem_values_iff.mp hy
      obtain ⟨c, hc, rfl⟩ := mem_values_iff.mp hz
      exact ⟨a, ha, b, hb, c, hc, (mem_insertion_iff (Field.range_le ha) (Field.range_le hb)
        (Field.range_le hc) r.d).mp hv⟩
    · rintro ⟨a, ha, b, hb, c, hc, hv⟩
      refine ⟨_, ?_, (mem_insertion_iff (Field.range_le ha) (Field.range_le hb)
        (Field.range_le hc) r.d).mpr hv⟩
      simp only [intervals, blockIntervals, List.mem_flatMap, List.mem_map]
      exact ⟨_, mem_values_iff.mpr ⟨a, ha, rfl⟩, _, mem_values_iff.mpr ⟨b, hb, rfl⟩,
        _, mem_values_iff.mpr ⟨c, hc, rfl⟩, rfl⟩
  rw [hmem]
  simp only [addresses, Set.mem_sdiff, Set.mem_ofPred_eq, Set.mem_singleton_iff]
  tauto

theorem splitOn_text (r : BlockRange) :
    r.text.splitOn '.' = [r.a.text, r.b.text, r.c.text, r.d.text] := by
  rw [text, List.splitOn_append_cons_self_of_not_mem r.a.dot_notMem,
    List.splitOn_append_cons_self_of_not_mem r.b.dot_notMem,
    List.splitOn_append_cons_self_of_not_mem r.c.dot_notMem,
    List.splitOn_eq_singleton r.d.dot_notMem]

/-- The result of the block by block part. Without a dash in the last field
it reads outside the string, unless a field before it is already
rejected. -/
theorem parseBlocks_text {r : BlockRange} {str : CString} (hstr : str.chars = r.text)
    (exclude : Bool) (l : IpListIntervals) :
    parseBlocks exclude l str =
      r.a.parsed.elim (some (false, l)) fun i0 => r.b.parsed.elim (some (false, l)) fun i1 =>
        r.c.parsed.elim (some (false, l)) fun i2 =>
          if r.d.isPair then
            r.d.parsed.elim (some (false, l)) fun i3 =>
              some (true, appended exclude l (blockIntervals i0 i1 i2 i3))
          else none := by
  rw [parseBlocks_four (by rw [hstr, splitOn_text]), blocksOf]
  simp only [Field.fieldBytes_text, Field.dash_mem_iff]

/-! ## One pair -/

/-- A dash that fewer than three dots precede is rejected. -/
theorem parseRange_of_few {str : CString} {t u : List Char} (hstr : str.chars = t ++ '-' :: u)
    (ht : '-' ∉ t) (hfew : (t.splitOn '.').length ≤ 3) (exclude : Bool) (l : IpListIntervals) :
    parseRange exclude l str = some (false, l) := by
  rw [parseRange_text exclude l hstr ht, rangeEnds_of_none (dotted_of_few hfew)]

theorem splitOn_octet_cons (o : Octet) (t : List Char) :
    (o.text ++ '.' :: t).splitOn '.' = o.text :: t.splitOn '.' :=
  List.splitOn_append_cons_self_of_not_mem o.dot_notMem t

theorem splitOn_octet (o : Octet) : o.text.splitOn '.' = [o.text] :=
  List.splitOn_eq_singleton o.dot_notMem

/-- The text in front of the dash of a last field. -/
theorem dotted_four {oa ob oc x : Octet} :
    dotted 3 (oa.text ++ '.' :: (ob.text ++ '.' :: (oc.text ++ '.' :: x.text))) =
      if oa.Short ∧ ob.Short ∧ oc.Short ∧ x.Short then
        some (quad oa.value ob.value oc.value x.value)
      else none := by
  rw [dotted, splitOn_octet_cons, splitOn_octet_cons, splitOn_octet_cons, splitOn_octet]
  rw [oa.dottedTail_cons (by omega), ob.dottedTail_cons (by omega),
    oc.dottedTail_cons (by omega), x.dottedTail_cons (by omega)]
  have hlast : dottedTail 3 4 (256 * (256 * (256 * (256 * 0 + oa.value) + ob.value) + oc.value) +
      x.value) [] = some (quad oa.value ob.value oc.value x.value) := by
    simp only [dottedTail, quad]
    rw [if_pos (by omega)]
    congr 2
    ring
  rw [hlast]
  simp only [ite_and]

/-- The interval of a range whose ends differ in the last octet. -/
theorem rangeInterval_quads {a b c d e : Nat} (ha : a ≤ 255) (hb : b ≤ 255) (hc : c ≤ 255)
    (hd : d ≤ 255) (he : e ≤ 255) :
    rangeInterval (quad a b c d, quad a b c e) =
      ⟨quad a b c (min d e), closedEnd (quad a b c (max d e))⟩ := by
  have hle : quad a b c d ≤ quad a b c e ↔ d ≤ e := by
    rw [BitVec.le_def, toNat_quad ha hb hc hd, toNat_quad ha hb hc he]
    omega
  rw [rangeInterval]
  rcases le_total d e with h | h
  · rw [min_eq_left h, max_eq_right h, min_eq_left (hle.mpr h), max_eq_right (hle.mpr h)]
  · have hge : quad a b c e ≤ quad a b c d := by
      rw [BitVec.le_def, toNat_quad ha hb hc hd, toNat_quad ha hb hc he]
      omega
    rw [min_eq_right h, max_eq_left h, min_eq_right hge, max_eq_left hge]

/-- The result of the one-dash branch when the pair is the last field. -/
theorem parseRange_last {oa ob oc x y : Octet} {str : CString}
    (hstr : str.chars = (⟨.octet oa, .octet ob, .octet oc, .pair x y⟩ : BlockRange).text)
    (exclude : Bool) (l : IpListIntervals) :
    parseRange exclude l str =
      some (if (oa.Short ∧ ob.Short ∧ oc.Short ∧ x.Short) ∧ y.Short ∧ y.Tight then
        (true, appended exclude l
          [⟨quad oa.value ob.value oc.value (min x.value y.value),
            closedEnd (quad oa.value ob.value oc.value (max x.value y.value))⟩])
        else (false, l)) := by
  have hsplit : str.chars =
      (oa.text ++ '.' :: (ob.text ++ '.' :: (oc.text ++ '.' :: x.text))) ++ '-' :: y.text := by
    simp [hstr, text, Field.text]
  have hfew : dotted 3 y.text = none := dotted_of_few (by simp [splitOn_octet])
  have hle : ¬ 255 < y.value := Nat.not_lt_of_le y.value_le
  rw [parseRange_text exclude l hsplit (by simp)]
  by_cases hshort : oa.Short ∧ ob.Short ∧ oc.Short ∧ x.Short
  · by_cases htight : y.Tight
    · by_cases hy : y.Short
      · have hends : rangeEnds (oa.text ++ '.' :: (ob.text ++ '.' :: (oc.text ++ '.' :: x.text)))
            y.text = some (quad oa.value ob.value oc.value x.value,
              quad oa.value ob.value oc.value y.value) := by
          simp [rangeEnds, dotted_four, hshort, hfew, y.digits3_of_tight htight hy, hle]
          exact quad_replace_last oa.value_le ob.value_le oc.value_le x.value_le y.value_le
        rw [hends, if_pos ⟨hshort, hy, htight⟩]
        show some (true, appended exclude l [rangeInterval _]) = _
        rw [rangeInterval_quads oa.value_le ob.value_le oc.value_le x.value_le y.value_le]
      · have hnone : digits3 y.text = none := by
          rw [y.text_of_tight htight]
          exact digits3_of_length (Or.inr (Nat.lt_of_not_le hy))
        simp [rangeEnds, hfew, hnone, hy]
    · have hnone : digits3 y.text = none := y.digits3_of_not_tight htight
      simp [rangeEnds, hfew, hnone, htight]
  · have hnone : dotted 3 (oa.text ++ '.' :: (ob.text ++ '.' :: (oc.text ++ '.' :: x.text))) =
        none := by
      rw [dotted_four, if_neg hshort]
    rw [rangeEnds_of_none hnone, if_neg (fun h => hshort h.1)]

/-- The only pair stands last, or behind fewer than three dots. -/
theorem pairs_eq_one {r : BlockRange} (h : r.pairs = 1) :
    (∃ oa ob oc x y, r = ⟨.octet oa, .octet ob, .octet oc, .pair x y⟩) ∨
      (r.d.isPair = false ∧
        ∃ t u, r.text = t ++ '-' :: u ∧ '-' ∉ t ∧ (t.splitOn '.').length ≤ 3) := by
  obtain ⟨a, b, c, d⟩ := r
  have hcount : (if a.isPair then 1 else 0) + (if b.isPair then 1 else 0) +
      (if c.isPair then 1 else 0) + (if d.isPair then 1 else 0) = 1 := by
    simp only [pairs, fields, List.countP_cons, List.countP_nil] at h
    omega
  cases d with
  | pair x y =>
    cases a <;> cases b <;> cases c <;> simp [Field.isPair] at hcount
    exact Or.inl ⟨_, _, _, _, _, rfl⟩
  | octet od =>
    refine Or.inr ⟨rfl, ?_⟩
    cases a with
    | pair x y =>
      exact ⟨x.text, y.text ++ '.' :: (b.text ++ '.' :: (c.text ++ '.' :: od.text)),
        by simp [text, Field.text], by simp, by simp [splitOn_octet]⟩
    | octet oa =>
      cases b with
      | pair x y =>
        exact ⟨oa.text ++ '.' :: x.text, y.text ++ '.' :: (c.text ++ '.' :: od.text),
          by simp [text, Field.text], by simp, by simp [splitOn_octet, splitOn_octet_cons]⟩
      | octet ob =>
        cases c with
        | pair x y =>
          exact ⟨oa.text ++ '.' :: (ob.text ++ '.' :: x.text), y.text ++ '.' :: od.text,
            by simp [text, Field.text], by simp, by simp [splitOn_octet, splitOn_octet_cons]⟩
        | octet oc => simp [Field.isPair] at hcount

/-! ## Which block ranges are read -/

/-- What the documentation promises of a block range: it is accepted, it
adds exactly its addresses less 255.255.255.255, and removing it queues the
same intervals. -/
def ParsedCompletely (r : BlockRange) (str : CString) (l : IpListIntervals) : Prop :=
  ∃ ivs : List (Interval 32),
    parseIpsAdd l str = some (true, { l with intervals := l.intervals ++ ivs }) ∧
    parseIpsRemove l str =
      some (true, { l with removedIntervals := l.removedIntervals ++ ivs }) ∧
    covers ivs = r.addresses \ {0xFFFFFFFF}

theorem parsedCompletely_of_appended {r : BlockRange} {str : CString} {l : IpListIntervals}
    (ivs : List (Interval 32))
    (hparse : ∀ exclude, parseIps exclude l str = some (true, appended exclude l ivs))
    (hcovers : covers ivs = r.addresses \ {0xFFFFFFFF}) : r.ParsedCompletely str l :=
  ⟨ivs, hparse false, hparse true, hcovers⟩

theorem not_parsedCompletely_of_false {r : BlockRange} {str : CString} {l : IpListIntervals}
    (h : parseIps false l str = some (false, l) ∨ parseIps false l str = none) :
    ¬ r.ParsedCompletely str l := by
  rintro ⟨ivs, hadd, -⟩
  rw [parseIpsAdd] at hadd
  cases h with
  | inl h => simp [h] at hadd
  | inr h => simp [h] at hadd

/-- One pair, in the last field. -/
theorem parsedCompletely_last_iff {oa ob oc x y : Octet} {str : CString}
    (hstr : str.chars = (⟨.octet oa, .octet ob, .octet oc, .pair x y⟩ : BlockRange).text)
    (l : IpListIntervals) :
    (⟨.octet oa, .octet ob, .octet oc, .pair x y⟩ : BlockRange).ParsedCompletely str l ↔
      (oa.Short ∧ ob.Short ∧ oc.Short ∧ x.Short) ∧ y.Short ∧ y.Tight := by
  have hparse : ∀ exclude, parseIps exclude l str = parseRange exclude l str := by
    intro exclude
    rw [parseIps_text (by simp [pairs, fields, Field.isPair]) hstr exclude l,
      if_pos (by simp [pairs, fields, Field.isPair])]
  by_cases h : (oa.Short ∧ ob.Short ∧ oc.Short ∧ x.Short) ∧ y.Short ∧ y.Tight
  · refine iff_of_true (parsedCompletely_of_appended
      [⟨quad oa.value ob.value oc.value (min x.value y.value),
        closedEnd (quad oa.value ob.value oc.value (max x.value y.value))⟩]
      (fun exclude => ?_) ?_) h
    · rw [hparse, parseRange_last hstr, if_pos h]
    · ext v
      have hlo : min x.value y.value ≤ 255 := le_trans (min_le_left _ _) x.value_le
      have hhi : max x.value y.value ≤ 255 := max_le x.value_le y.value_le
      have hmem : v ∈ covers [(⟨quad oa.value ob.value oc.value (min x.value y.value),
          closedEnd (quad oa.value ob.value oc.value (max x.value y.value))⟩ : Interval 32)] ↔
          (∃ d, (min x.value y.value ≤ d ∧ d ≤ max x.value y.value) ∧
            v = quad oa.value ob.value oc.value d) ∧ v ≠ 0xFFFFFFFF := by
        rw [← mem_quads_iff oa.value_le ob.value_le oc.value_le hlo hhi, and_assoc,
          ← IpListIntervals.mem_closed_iff]
        simp [covers]
      rw [hmem]
      simp [addresses, Field.range]
  · refine iff_of_false (not_parsedCompletely_of_false (Or.inl ?_)) h
    rw [hparse, parseRange_last hstr, if_neg h]

theorem parseIps_blocks {r : BlockRange} (hpairs : 2 ≤ r.pairs) {str : CString}
    (hstr : str.chars = r.text) (exclude : Bool) (l : IpListIntervals) :
    parseIps exclude l str = parseBlocks exclude l str := by
  rw [parseIps_text (by omega) hstr exclude l, if_neg (by omega)]

/-- Short numbers and a pair as the last field: the intervals are
appended. -/
theorem parseIps_intervals {r : BlockRange} (hpairs : 2 ≤ r.pairs) {str : CString}
    (hstr : str.chars = r.text) (hs : r.Short) (hd : r.d.isPair = true) (exclude : Bool)
    (l : IpListIntervals) :
    parseIps exclude l str = some (true, appended exclude l r.intervals) := by
  have hsome : ∀ f ∈ r.fields, f.parsed = some f.bytes := fun f hf => if_pos (hs f hf)
  rw [parseIps_blocks hpairs hstr, parseBlocks_text hstr, hsome r.a (by simp [fields]),
    hsome r.b (by simp [fields]), hsome r.c (by simp [fields]), hsome r.d (by simp [fields]), hd]
  rfl

/-- Two pairs or more. -/
theorem parsedCompletely_blocks_iff {r : BlockRange} (hpairs : 2 ≤ r.pairs) {str : CString}
    (hstr : str.chars = r.text) (l : IpListIntervals) :
    r.ParsedCompletely str l ↔ r.Short ∧ r.d.isPair = true := by
  have hshort : r.Short ↔ r.a.Short ∧ r.b.Short ∧ r.c.Short ∧ r.d.Short := by
    simp [BlockRange.Short, fields]
  have hsome : ∀ f : Field, f.Short → f.parsed = some f.bytes := fun f hf => if_pos hf
  have hnone : ∀ f : Field, ¬ f.Short → f.parsed = none := fun f hf => if_neg hf
  by_cases h : r.Short ∧ r.d.isPair = true
  · exact iff_of_true (parsedCompletely_of_appended r.intervals
      (fun exclude => parseIps_intervals hpairs hstr h.1 h.2 exclude l) r.covers_intervals) h
  · refine iff_of_false (not_parsedCompletely_of_false ?_) h
    rw [parseIps_blocks hpairs hstr, parseBlocks_text hstr]
    cases hd : r.d.isPair with
    | false => cases r.a.parsed <;> cases r.b.parsed <;> cases r.c.parsed <;> simp
    | true =>
      have hs : ¬ (r.a.Short ∧ r.b.Short ∧ r.c.Short ∧ r.d.Short) := fun hs =>
        h ⟨hshort.mpr hs, hd⟩
      by_cases ha : r.a.Short
      · by_cases hb : r.b.Short
        · by_cases hc : r.c.Short
          · have hds : ¬ r.d.Short := fun hds => hs ⟨ha, hb, hc, hds⟩
            simp [hsome _ ha, hsome _ hb, hsome _ hc, hnone _ hds]
          · simp [hsome _ ha, hsome _ hb, hnone _ hc]
        · simp [hsome _ ha, hnone _ hb]
      · simp [hnone _ ha]

/-- **A block range is parsed completely exactly when its numbers have at
most three digits, its last field is a pair, and either another field is a
pair too or the number behind the dash has no white space around it.** -/
theorem parsedCompletely_iff (r : BlockRange) (hpair : 0 < r.pairs) (str : CString)
    (hstr : str.chars = r.text) (l : IpListIntervals) :
    r.ParsedCompletely str l ↔
      r.Short ∧ ∃ x y, r.d = .pair x y ∧ (2 ≤ r.pairs ∨ y.Tight) := by
  rcases Nat.lt_or_ge r.pairs 2 with hone | htwo
  · have hpairs : r.pairs = 1 := by omega
    cases pairs_eq_one hpairs with
    | inl hlast =>
      obtain ⟨oa, ob, oc, x, y, rfl⟩ := hlast
      rw [parsedCompletely_last_iff hstr, hpairs]
      simp [BlockRange.Short, fields, Field.Short, Field.octets]
      tauto
    | inr hother =>
      obtain ⟨hd, t, u, htext, ht, hfew⟩ := hother
      refine iff_of_false (not_parsedCompletely_of_false (Or.inl ?_)) ?_
      · rw [parseIps_text hpair hstr, if_pos hpairs,
          parseRange_of_few (hstr.trans htext) ht hfew]
      · rintro ⟨-, x, y, hxy, -⟩
        rw [hxy] at hd
        cases hd
  · rw [parsedCompletely_blocks_iff htwo hstr]
    refine and_congr_right fun _ => ?_
    constructor
    · intro hd
      cases hxy : r.d with
      | octet o => simp [hxy, Field.isPair] at hd
      | pair x y => exact ⟨x, y, rfl, Or.inl htwo⟩
    · rintro ⟨x, y, hxy, -⟩
      rw [hxy]
      rfl

/-- `10.4-5.8-11.0-255`, the format of the comment in `__parse_ips`. -/
def commentSample : BlockRange :=
  ⟨.octet (.plain "10".toList (by decide)),
    .pair (.plain "4".toList (by decide)) (.plain "5".toList (by decide)),
    .pair (.plain "8".toList (by decide)) (.plain "11".toList (by decide)),
    .pair (.plain "0".toList (by decide)) (.plain "255".toList (by decide))⟩

theorem parsedCompletely_commentSample :
    commentSample.text = "10.4-5.8-11.0-255".toList ∧
    commentSample.ParsedCompletely ⟨"10.4-5.8-11.0-255".toList, 4096, by decide, by decide⟩ {} :=
  ⟨by decide, (parsedCompletely_iff commentSample (by decide) _ (by decide) _).mpr
    ⟨by decide, _, _, rfl, Or.inl (by decide)⟩⟩

/-- `192.168-170.4-8.0`, the format of the help text. -/
def usageSample : BlockRange :=
  ⟨.octet (.plain "192".toList (by decide)),
    .pair (.plain "168".toList (by decide)) (.plain "170".toList (by decide)),
    .pair (.plain "4".toList (by decide)) (.plain "8".toList (by decide)),
    .octet (.plain "0".toList (by decide))⟩

/-- The help text's own example is read outside its string. -/
theorem usageSample_overruns :
    usageSample.text = "192.168-170.4-8.0".toList ∧
    parseIpsAdd {} ⟨"192.168-170.4-8.0".toList, 4096, by decide, by decide⟩ = none ∧
    ¬ usageSample.ParsedCompletely
      ⟨"192.168-170.4-8.0".toList, 4096, by decide, by decide⟩ {} := by
  have hnone : parseIpsAdd {} ⟨"192.168-170.4-8.0".toList, 4096, by decide, by decide⟩ = none := by
    decide
  exact ⟨by decide, hnone, not_parsedCompletely_of_false (Or.inr hnone)⟩

end BlockRange

end Leeloo
