/-
Leeloo.ParserLanguage — the language of `__parse_ips`: the strings it
accepts with the addresses each of them stands for, the strings on which it
is undefined, and the rest, which it refuses.

`Phrase` is the syntax of an accepted string and `Phrase.addresses` its
meaning. Three forms are those the comment of `__parse_ips` lists; the
other two take in more than it says. A field of a block range is stored in
a byte, so its number counts modulo 256, and nothing is checked behind the
number of a prefix length, which is narrowed to an `int`.
-/
import Leeloo.ParserBounds
import Leeloo.IpRuns

namespace Leeloo

open CString Text HalfOpen IpsParser
open IpListIntervals (appended closedEnd cidrInterval)

/-! ## Fields -/

/-- A number as a field takes it: one to three digits between white
space. -/
structure Numeral where
  before : List Char
  digits : List Char
  after : List Char
  before_space : before.all isspace = true
  after_space : after.all isspace = true
  digits_ne_nil : digits ≠ []
  digits_digit : digits.all isdigit = true
  digits_le : digits.length ≤ 3

namespace Numeral

def text (n : Numeral) : List Char := n.before ++ n.digits ++ n.after

def value (n : Numeral) : Nat := decimal n.digits

/-- What a byte keeps of the number. -/
def byte (n : Numeral) : Nat := n.value % 256

theorem notMem_text (n : Numeral) {c : Char} (hspace : isspace c = false)
    (hdigit : isdigit c = false) : c ∉ n.text := by
  intro hc
  simp only [text, List.mem_append] at hc
  obtain (hc | hc) | hc := hc
  · simp [List.all_eq_true.mp n.before_space c hc] at hspace
  · simp [List.all_eq_true.mp n.digits_digit c hc] at hdigit
  · simp [List.all_eq_true.mp n.after_space c hc] at hspace

@[simp] theorem dash_notMem (n : Numeral) : '-' ∉ n.text := n.notMem_text rfl rfl

@[simp] theorem dot_notMem (n : Numeral) : '.' ∉ n.text := n.notMem_text rfl rfl

@[simp] theorem slash_notMem (n : Numeral) : '/' ∉ n.text := n.notMem_text rfl rfl

theorem numeral3_text (n : Numeral) : numeral3 n.text = some n.value := by
  have htrim : trim n.text = n.digits :=
    trim_padded n.before_space n.after_space fun c hc =>
      isspace_of_isdigit (List.all_eq_true.mp n.digits_digit c hc)
  rw [numeral3, htrim]
  exact digits3_eq_some n.digits_ne_nil n.digits_le n.digits_digit

/-- A text that is read as a number is one. -/
theorem exists_of_numeral3 {t : List Char} {v : Nat} (h : numeral3 t = some v) :
    ∃ n : Numeral, n.text = t ∧ n.value = v := by
  obtain ⟨a, b, ha, hb, ht⟩ := exists_padding t
  simp only [numeral3, digits3] at h
  split at h
  · rename_i hd
    obtain ⟨hne, hlen, hall⟩ := hd
    cases h
    exact ⟨⟨a, trim t, b, ha, hb, hne, hall, hlen⟩, ht.symm, rfl⟩
  · cases h

end Numeral

/-- A field of a block range, as it is written: a number, or two of them
joined by a dash. -/
inductive ByteField where
  | byte (n : Numeral)
  | pair (m n : Numeral)

namespace ByteField

def text : ByteField → List Char
  | byte n => n.text
  | pair m n => m.text ++ '-' :: n.text

def isPair : ByteField → Bool
  | byte _ => false
  | pair _ _ => true

/-- The bytes a field stands for. -/
def range : ByteField → Set Nat
  | byte n => Set.Icc n.byte n.byte
  | pair m n => Set.Icc (min m.byte n.byte) (max m.byte n.byte)

/-- The bytes the parser takes it for. -/
def bytes : ByteField → ByteInterval
  | byte n => byteInterval n.value n.value
  | pair m n => byteInterval m.value n.value

@[simp] theorem dot_notMem (f : ByteField) : '.' ∉ f.text := by
  cases f <;> simp [text]

@[simp] theorem slash_notMem (f : ByteField) : '/' ∉ f.text := by
  cases f <;> simp [text]

theorem count_dash (f : ByteField) : f.text.count '-' = if f.isPair then 1 else 0 := by
  cases f <;> simp [text, isPair, List.count_eq_zero_of_not_mem]

theorem fieldBytes_text (f : ByteField) : fieldBytes f.text = some f.bytes := by
  cases f with
  | byte n => simp [text, fieldBytes_byte n.dash_notMem, n.numeral3_text, bytes]
  | pair m n => simp [text, fieldBytes_pair m.dash_notMem, m.numeral3_text, n.numeral3_text, bytes]

/-- A text that is read as a field is one. -/
theorem exists_of_fieldBytes {t : List Char} {i : ByteInterval} (h : fieldBytes t = some i) :
    ∃ f : ByteField, f.text = t ∧ f.bytes = i := by
  by_cases hd : '-' ∈ t
  · obtain ⟨u, v, rfl, hu⟩ := List.eq_append_cons_of_mem hd
    rw [fieldBytes_pair hu] at h
    cases hm : numeral3 u with
    | none => simp [hm] at h
    | some m =>
      cases hn : numeral3 v with
      | none => simp [hm, hn] at h
      | some n =>
        simp only [hm, hn, Option.bind_some, Option.map_some, Option.some.injEq] at h
        obtain ⟨x, rfl, rfl⟩ := Numeral.exists_of_numeral3 hm
        obtain ⟨y, rfl, rfl⟩ := Numeral.exists_of_numeral3 hn
        exact ⟨.pair x y, rfl, h⟩
  · rw [fieldBytes_byte hd] at h
    cases hn : numeral3 t with
    | none => simp [hn] at h
    | some n =>
      simp only [hn, Option.map_some, Option.some.injEq] at h
      obtain ⟨x, rfl, rfl⟩ := Numeral.exists_of_numeral3 hn
      exact ⟨.byte x, rfl, h⟩

theorem bytes_mem_iff (f : ByteField) (v : Nat) :
    (f.bytes.min.toNat ≤ v ∧ v ≤ f.bytes.max.toNat) ↔ v ∈ f.range := by
  have hset : ∀ m n : Numeral, ((byteInterval m.value n.value).min.toNat ≤ v ∧
      v ≤ (byteInterval m.value n.value).max.toNat) ↔
        v ∈ Set.Icc (min m.byte n.byte) (max m.byte n.byte) := by
    intro m n
    simp only [byteInterval, ByteInterval.set, gt_iff_lt, BitVec.lt_def, BitVec.toNat_ofNat,
      Nat.reducePow, Numeral.byte, Set.mem_Icc]
    split
    · simp only [BitVec.toNat_ofNat, Nat.reducePow]
      omega
    · simp only [BitVec.toNat_ofNat, Nat.reducePow]
      omega
  cases f with
  | byte n => simpa [bytes, range] using hset n n
  | pair m n => exact hset m n

theorem range_le {f : ByteField} {v : Nat} (h : v ∈ f.range) : v ≤ 255 := by
  have hv := ((f.bytes_mem_iff v).mpr h).2
  have hmax := f.bytes.max.isLt
  omega

theorem mem_values_iff {f : ByteField} {x : BitVec 32} :
    x ∈ f.bytes.values ↔ ∃ v ∈ f.range, x = BitVec.ofNat 32 v := by
  simp only [ByteInterval.values, List.mem_map, List.mem_range'_1]
  constructor
  · rintro ⟨v, hv, rfl⟩
    exact ⟨v, (f.bytes_mem_iff v).mp (by omega), rfl⟩
  · rintro ⟨v, hv, rfl⟩
    have hbytes := (f.bytes_mem_iff v).mpr hv
    exact ⟨v, by omega, rfl⟩

/-- The addresses of one insertion of the nested loops. -/
theorem mem_insertion_iff {a b c : Nat} (ha : a ≤ 255) (hb : b ≤ 255) (hc : c ≤ 255)
    (f : ByteField) {v : BitVec 32} :
    v ∈ (⟨ipBase (BitVec.ofNat 32 a) (BitVec.ofNat 32 b) (BitVec.ofNat 32 c) |||
        f.bytes.min.setWidth 32,
      closedEnd (ipBase (BitVec.ofNat 32 a) (BitVec.ofNat 32 b) (BitVec.ofNat 32 c) |||
        f.bytes.max.setWidth 32)⟩ : Interval 32).toSet ↔
      (∃ d ∈ f.range, v = quad a b c d) ∧ v ≠ lastIp := by
  have hmin : f.bytes.min.toNat ≤ 255 := Nat.le_of_lt_succ f.bytes.min.isLt
  have hmax : f.bytes.max.toNat ≤ 255 := Nat.le_of_lt_succ f.bytes.max.isLt
  rw [IpListIntervals.mem_closed_iff, ← BitVec.ofNat_toNat, ← BitVec.ofNat_toNat,
    ipBase_or hb hc hmin, ipBase_or hb hc hmax, ← and_assoc,
    mem_quads_iff ha hb hc hmin hmax]
  simp only [f.bytes_mem_iff, lastIp]

end ByteField

/-! ## Phrases -/

/-- The number a prefix length is read as: a `long`, narrowed to 32 bits. -/
def prefixOf (u : List Char) : Nat := longOf u % 2 ^ 32

theorem cidrOf_eq_prefixOf {u : List Char} (h : '-' ∉ u) (hlt : prefixOf u < 2 ^ 31) :
    cidrOf u = prefixOf u := by
  unfold prefixOf at *
  rw [cidrOf, strtol_of_notMem h, ← longOf, BitVec.toInt_ofInt, Int.bmod_def]
  omega

/-- An accepted string, as it is written. -/
inductive Phrase where
  | single (a : Address) (ha : a.Full)
  | cidr (a : Address) (u : List Char) (hu : '-' ∉ u ∧ '/' ∉ u) (hp : prefixOf u ≤ 32)
  | range (a b : Address) (ha : a.Full) (hb : b.Full)
  | lastOctet (a : Address) (ha : a.Full) (d : Octet) (hd : d.Tight ∧ d.Short)
  | blocks (f g h : ByteField) (hpair : f.isPair ∨ g.isPair ∨ h.isPair) (m n : Numeral)

namespace Phrase

def text : Phrase → List Char
  | single a _ => a.text
  | cidr a u _ _ => a.text ++ '/' :: u
  | range a b _ _ => a.text ++ '-' :: b.text
  | lastOctet a _ d _ => a.text ++ '-' :: d.text
  | blocks f g h _ m n =>
    f.text ++ '.' :: (g.text ++ '.' :: (h.text ++ '.' :: (ByteField.pair m n).text))

/-- The addresses a phrase stands for. -/
def addresses : Phrase → Set (BitVec 32)
  | single a _ => {a.value}
  | cidr a u _ _ => {v | ∀ i < prefixOf u, v.getMsbD i = a.value.getMsbD i}
  | range a b _ _ => Set.Icc (min a.value b.value) (max a.value b.value)
  | lastOctet a _ d _ => Set.Icc (min a.value (a.withLast d)) (max a.value (a.withLast d))
  | blocks f g h _ m n =>
    {v | ∃ a ∈ f.range, ∃ b ∈ g.range, ∃ c ∈ h.range, ∃ d ∈ (ByteField.pair m n).range,
      v = quad a b c d}

/-- The intervals it is stored as. -/
def intervals : Phrase → List (Interval 32)
  | single a _ => [⟨a.value, closedEnd a.value⟩]
  | cidr a u _ _ => [cidrInterval a.value (prefixOf u)]
  | range a b _ _ => [rangeInterval (a.value, b.value)]
  | lastOctet a _ d _ => [rangeInterval (a.value, a.withLast d)]
  | blocks f g h _ m n => blockIntervals f.bytes g.bytes h.bytes (ByteField.pair m n).bytes

/-- The nested loops cover the block range, less the last address. -/
theorem covers_blocks (f g h k : ByteField) :
    covers (blockIntervals f.bytes g.bytes h.bytes k.bytes) =
      {v | ∃ a ∈ f.range, ∃ b ∈ g.range, ∃ c ∈ h.range, ∃ d ∈ k.range, v = quad a b c d} \
        {lastIp} := by
  ext v
  have hmem : v ∈ covers (blockIntervals f.bytes g.bytes h.bytes k.bytes) ↔
      ∃ a ∈ f.range, ∃ b ∈ g.range, ∃ c ∈ h.range,
        (∃ d ∈ k.range, v = quad a b c d) ∧ v ≠ lastIp := by
    constructor
    · rintro ⟨i, hi, hv⟩
      simp only [blockIntervals, List.mem_flatMap, List.mem_map] at hi
      obtain ⟨x, hx, y, hy, z, hz, rfl⟩ := hi
      obtain ⟨a, ha, rfl⟩ := ByteField.mem_values_iff.mp hx
      obtain ⟨b, hb, rfl⟩ := ByteField.mem_values_iff.mp hy
      obtain ⟨c, hc, rfl⟩ := ByteField.mem_values_iff.mp hz
      exact ⟨a, ha, b, hb, c, hc, (ByteField.mem_insertion_iff (ByteField.range_le ha)
        (ByteField.range_le hb) (ByteField.range_le hc) k).mp hv⟩
    · rintro ⟨a, ha, b, hb, c, hc, hv⟩
      refine ⟨_, ?_, (ByteField.mem_insertion_iff (ByteField.range_le ha)
        (ByteField.range_le hb) (ByteField.range_le hc) k).mpr hv⟩
      simp only [blockIntervals, List.mem_flatMap, List.mem_map]
      exact ⟨_, ByteField.mem_values_iff.mpr ⟨a, ha, rfl⟩, _,
        ByteField.mem_values_iff.mpr ⟨b, hb, rfl⟩, _, ByteField.mem_values_iff.mpr ⟨c, hc, rfl⟩,
        rfl⟩
  rw [hmem]
  simp only [Set.mem_sdiff, Set.mem_ofPred_eq, Set.mem_singleton_iff]
  tauto

/-- **A phrase is stored as the addresses it stands for, less
255.255.255.255.** -/
theorem covers_intervals (p : Phrase) : covers p.intervals = p.addresses \ {lastIp} := by
  cases p with
  | single a ha => exact (covers_singleton _).trans (Entry.interval_toSet (.single a ha))
  | cidr a u hu hp =>
    ext v
    rw [intervals, covers_singleton, IpListIntervals.mem_cidrInterval_iff hp]
    rfl
  | range a b ha hb => exact (covers_singleton _).trans (Entry.interval_toSet (.range a b ha hb))
  | lastOctet a ha d hd =>
    exact (covers_singleton _).trans (Entry.interval_toSet (.lastOctet a ha d hd))
  | blocks f g h hpair m n => exact covers_blocks f g h (.pair m n)

/-- **A phrase is accepted, and its intervals are appended.** -/
theorem parseIps_text (p : Phrase) {str : CString} (hstr : str.chars = p.text) (exclude : Bool)
    (l : IpListIntervals) :
    parseIps exclude l str = some (true, appended exclude l p.intervals) := by
  cases p with
  | single a ha => exact (Entry.single a ha).parseIps_text hstr exclude l
  | range a b ha hb => exact (Entry.range a b ha hb).parseIps_text hstr exclude l
  | lastOctet a ha d hd => exact (Entry.lastOctet a ha d hd).parseIps_text hstr exclude l
  | cidr a u hu hp =>
    have hbranch : parseCidr exclude l str =
        some (true, appended exclude l [cidrInterval a.value (prefixOf u)]) := by
      have hneg : ¬ (prefixOf u : Int) < 0 := by omega
      rw [parseCidr_text exclude l hstr a.slash_notMem, cidrOf_eq_prefixOf hu.1 (by omega),
        if_neg hneg, a.dotted_zero]
      simp [IpListIntervals.insertCidr_of_le exclude l a.value hp]
    rw [parseIps_eq]
    simp [hstr, text, hbranch, intervals, List.count_eq_zero_of_not_mem a.dash_notMem,
      List.count_eq_zero_of_not_mem a.slash_notMem, List.count_eq_zero_of_not_mem hu.1,
      List.count_eq_zero_of_not_mem hu.2]
  | blocks f g h hpair m n =>
    have hsplit : str.chars.splitOn '.' =
        [f.text, g.text, h.text, (ByteField.pair m n).text] := by
      rw [hstr, text, List.splitOn_append_cons_self_of_not_mem f.dot_notMem,
        List.splitOn_append_cons_self_of_not_mem g.dot_notMem,
        List.splitOn_append_cons_self_of_not_mem h.dot_notMem,
        List.splitOn_eq_singleton (ByteField.pair m n).dot_notMem]
    have hslash : str.chars.count '/' = 0 := by
      rw [hstr]
      refine List.count_eq_zero_of_not_mem ?_
      simp [text]
    have hdash : 2 ≤ str.chars.count '-' := by
      have hone : 1 ≤ f.text.count '-' + g.text.count '-' + h.text.count '-' := by
        simp only [ByteField.count_dash]
        obtain hp | hp | hp := hpair <;> simp only [hp, if_true] <;> omega
      have hlast : (ByteField.pair m n).text.count '-' = 1 := ByteField.count_dash _
      rw [hstr, text]
      simp only [List.count_append, List.count_cons]
      omega
    have hmem : '-' ∈ (ByteField.pair m n).text := by simp [ByteField.text]
    rw [parseIps_eq, if_neg (by omega), if_neg (by omega), if_neg (by omega), if_neg (by omega),
      parseBlocks_four hsplit, blocksOf]
    simp only [ByteField.fieldBytes_text, Option.elim_some, hmem, if_true, intervals]

end Phrase

/-! ## Refusals -/

/-- The pair of a last field. -/
theorem ByteField.exists_pair {t : List Char} {i : ByteInterval} (h : fieldBytes t = some i)
    (hd : '-' ∈ t) : ∃ m n : Numeral, (pair m n).text = t ∧ (pair m n).bytes = i := by
  obtain ⟨f, rfl, hi⟩ := exists_of_fieldBytes h
  cases f with
  | byte n => exact absurd hd n.dash_notMem
  | pair m n => exact ⟨m, n, rfl, hi⟩

namespace IpsParser

/-- The string is a phrase. -/
def IsPhrase (s : List Char) : Prop := ∃ p : Phrase, p.text = s

/-- A string on which the parser is undefined: a last field without
a dash behind two dashes, or a prefix length above 32. -/
inductive Trap : List Char → Prop
  | lastField (f g h : ByteField) (u : List Char)
      (hpairs : 2 ≤ (f.text ++ g.text ++ h.text).count '-')
      (hdash : '-' ∉ u) (hdot : '.' ∉ u) (hslash : u.count '/' ≤ 1) :
      Trap (f.text ++ '.' :: (g.text ++ '.' :: (h.text ++ '.' :: u)))
  | shift (a : Address) (u : List Char) (hu : '-' ∉ u ∧ '/' ∉ u) (hp : 32 < prefixOf u)
      (hpos : prefixOf u < 2 ^ 31) : Trap (a.text ++ '/' :: u)

theorem insertCidr_of_gt (exclude : Bool) (l : IpListIntervals) (baseIp : BitVec 32) {p : Int}
    (hp : 32 < p) : IpListIntervals.insertCidr exclude l baseIp p = none := by
  rw [IpListIntervals.insertCidr, IpListIntervals.cidr2mask, if_neg (by omega), if_neg (by omega)]
  rfl

/-- **The parser is undefined on a trap.** -/
theorem parseIps_trap {str : CString} (h : Trap str.chars) (exclude : Bool)
    (l : IpListIntervals) : parseIps exclude l str = none := by
  generalize hstr : str.chars = s at h
  cases h with
  | lastField f g h u hpairs hdash hdot hslash =>
    have hsplit : str.chars.splitOn '.' = [f.text, g.text, h.text, u] := by
      rw [hstr, List.splitOn_append_cons_self_of_not_mem f.dot_notMem,
        List.splitOn_append_cons_self_of_not_mem g.dot_notMem,
        List.splitOn_append_cons_self_of_not_mem h.dot_notMem, List.splitOn_eq_singleton hdot]
    have hcount : str.chars.count '/' ≤ 1 := by
      rw [hstr]
      simpa [List.count_eq_zero_of_not_mem] using hslash
    have hpairs : 2 ≤ str.chars.count '-' := by
      rw [hstr]
      simp only [List.count_append, List.count_cons] at hpairs ⊢
      omega
    rw [parseIps_eq, if_neg (by omega), if_neg (by omega), if_neg (by omega), if_neg (by omega),
      parseBlocks_four hsplit, blocksOf]
    simp only [ByteField.fieldBytes_text, Option.elim_some, hdash, if_false]
  | shift a u hu hp hpos =>
    have hbranch : parseCidr exclude l str = none := by
      rw [parseCidr_text exclude l hstr a.slash_notMem, cidrOf_eq_prefixOf hu.1 hpos,
        if_neg (by omega), a.dotted_zero]
      simp [insertCidr_of_gt exclude l a.value (p := (prefixOf u : Int)) (by omega)]
    rw [parseIps_eq]
    simp [hstr, hbranch, List.count_eq_zero_of_not_mem a.dash_notMem,
      List.count_eq_zero_of_not_mem a.slash_notMem, List.count_eq_zero_of_not_mem hu.1,
      List.count_eq_zero_of_not_mem hu.2]

/-- Both calls refuse the string, whatever the list. -/
def Refuses (str : CString) : Prop := ∀ exclude l, parseIps exclude l str = some (false, l)

/-- One address. -/
theorem single_cases {str : CString} (hslash : str.chars.count '/' = 0)
    (hdash : str.chars.count '-' = 0) : IsPhrase str.chars ∨ Refuses str := by
  cases hd : dotted 3 str.chars with
  | none =>
    refine Or.inr fun exclude l => ?_
    rw [parseIps_eq, if_pos ⟨hslash, hdash⟩, hd]
  | some ip =>
    obtain ⟨a, ha, hfull, -⟩ := Address.dotted_eq_some_iff.mp hd
    exact Or.inl ⟨.single a (Nat.le_antisymm a.length_le hfull), ha⟩

/-- A range of two addresses. -/
theorem range_cases {str : CString} (hslash : str.chars.count '/' = 0)
    (hdash : str.chars.count '-' = 1) : IsPhrase str.chars ∨ Refuses str := by
  obtain ⟨t, u, hstr, ht, hu⟩ := exists_split_of_count_one hdash
  cases hends : rangeEnds t u with
  | none =>
    refine Or.inr fun exclude l => ?_
    rw [parseIps_eq, if_neg (by omega), if_pos hdash, if_neg (by omega),
      parseRange_text exclude l hstr ht, hends]
  | some ends =>
    refine Or.inl ?_
    cases ha : dotted 3 t with
    | none => simp [rangeEnds_of_none ha] at hends
    | some va =>
      obtain ⟨a, rfl, hafull, rfl⟩ := Address.dotted_eq_some_iff.mp ha
      have hafull : a.Full := Nat.le_antisymm a.length_le hafull
      rw [rangeEnds_of_some ha] at hends
      cases hb : dotted 3 u with
      | some vb =>
        obtain ⟨b, rfl, hbfull, rfl⟩ := Address.dotted_eq_some_iff.mp hb
        exact ⟨.range a b hafull (Nat.le_antisymm b.length_le hbfull), hstr.symm⟩
      | none =>
        -- behind the dash stands a number
        rw [hb] at hends
        cases hn : digits3 u with
        | none => simp [hn] at hends
        | some n =>
          have hle : ¬ 255 < n := by
            intro hlt
            simp [hn, hlt] at hends
          simp only [digits3] at hn
          split at hn
          · rename_i hd
            obtain ⟨hne, hlen, hall⟩ := hd
            cases hn
            refine ⟨.lastOctet a hafull (.plain u ⟨hne, hall, by omega⟩) ⟨⟨rfl, rfl⟩, hlen⟩, ?_⟩
            rw [hstr]
            simp [Phrase.text, Octet.text, Octet.plain]
          · cases hn

/-- A CIDR block. -/
theorem cidr_cases {str : CString} (hslash : str.chars.count '/' = 1)
    (hdash : str.chars.count '-' = 0) : IsPhrase str.chars ∨ Trap str.chars ∨ Refuses str := by
  obtain ⟨t, u, hstr, ht, hu⟩ := exists_split_of_count_one hslash
  have hudash : '-' ∉ u := fun h =>
    List.count_eq_zero.mp hdash (by simp [hstr, h])
  have hparse : ∀ exclude l, parseIps exclude l str = parseCidr exclude l str := by
    intro exclude l
    rw [parseIps_eq]
    simp [hslash, hdash]
  by_cases hneg : 2 ^ 31 ≤ prefixOf u
  · refine Or.inr (Or.inr fun exclude l => ?_)
    rw [hparse, parseCidr_text exclude l hstr ht, if_pos ((cidrOf_neg_iff hudash).mpr hneg)]
  · cases hd : dotted 0 t with
    | none =>
      refine Or.inr (Or.inr fun exclude l => ?_)
      rw [hparse, parseCidr_text exclude l hstr ht, hd]
      split <;> rfl
    | some ip =>
      obtain ⟨a, rfl, -, -⟩ := Address.dotted_eq_some_iff.mp hd
      by_cases hp : prefixOf u ≤ 32
      · exact Or.inl ⟨.cidr a u ⟨hudash, hu⟩ hp, hstr.symm⟩
      · rw [hstr]
        exact Or.inr (Or.inl (.shift a u ⟨hudash, hu⟩ (by omega) (by omega)))

/-- A block range. -/
theorem blocks_cases {str : CString} (hslash : str.chars.count '/' ≤ 1)
    (hdash : 2 ≤ str.chars.count '-') : IsPhrase str.chars ∨ Trap str.chars ∨ Refuses str := by
  have hparse : ∀ exclude l, parseIps exclude l str = parseBlocks exclude l str := by
    intro exclude l
    rw [parseIps_eq, if_neg (by omega), if_neg (by omega), if_neg (by omega), if_neg (by omega)]
  by_cases hlen : (str.chars.splitOn '.').length = 4
  · obtain ⟨f0, f1, f2, f3, hsplit⟩ := List.length_eq_four.mp hlen
    have hstr := eq_of_splitOn_four hsplit
    have hblocks : ∀ exclude l, parseIps exclude l str = blocksOf exclude l f0 f1 f2 f3 := by
      intro exclude l
      rw [hparse, parseBlocks_four hsplit]
    have hdot : '.' ∉ f3 := notMem_of_mem_splitOn (by rw [hsplit]; simp)
    cases h0 : fieldBytes f0 with
    | none => exact Or.inr (Or.inr fun exclude l => by simp [hblocks, blocksOf, h0])
    | some i0 =>
      cases h1 : fieldBytes f1 with
      | none => exact Or.inr (Or.inr fun exclude l => by simp [hblocks, blocksOf, h0, h1])
      | some i1 =>
        cases h2 : fieldBytes f2 with
        | none => exact Or.inr (Or.inr fun exclude l => by simp [hblocks, blocksOf, h0, h1, h2])
        | some i2 =>
          obtain ⟨f, rfl, -⟩ := ByteField.exists_of_fieldBytes h0
          obtain ⟨g, rfl, -⟩ := ByteField.exists_of_fieldBytes h1
          obtain ⟨h, rfl, -⟩ := ByteField.exists_of_fieldBytes h2
          rw [hstr] at hdash hslash
          simp only [List.count_append, List.count_cons] at hdash hslash
          by_cases h3 : '-' ∈ f3
          · cases h3' : fieldBytes f3 with
            | none =>
              refine Or.inr (Or.inr fun exclude l => ?_)
              simp [hblocks, blocksOf, h0, h1, h2, h3, h3']
            | some i3 =>
              obtain ⟨m, n, rfl, -⟩ := ByteField.exists_pair h3' h3
              refine Or.inl ⟨.blocks f g h ?_ m n, hstr.symm⟩
              have hlast : (ByteField.pair m n).text.count '-' = 1 := ByteField.count_dash _
              simp only [ByteField.count_dash f, ByteField.count_dash g, ByteField.count_dash h,
                hlast] at hdash
              by_contra hnone
              simp only [not_or, Bool.not_eq_true] at hnone
              simp [hnone] at hdash
          · refine Or.inr (Or.inl ?_)
            have hzero := List.count_eq_zero_of_not_mem h3
            rw [hstr]
            refine .lastField f g h f3 ?_ h3 hdot ?_
            · simp only [List.count_append]
              simp at hdash
              omega
            · simp at hslash
              omega
  · exact Or.inr (Or.inr fun exclude l => by rw [hparse, parseBlocks_of_length_ne hlen])

/-- **Every string is a phrase, a trap, or refused.** -/
theorem parseIps_cases (str : CString) :
    IsPhrase str.chars ∨ Trap str.chars ∨ Refuses str := by
  by_cases hone : str.chars.count '-' = 1
  · by_cases hslash : str.chars.count '/' = 0
    · exact (range_cases hslash hone).imp_right Or.inr
    · refine Or.inr (Or.inr fun exclude l => ?_)
      rw [parseIps_eq, if_neg (by omega), if_pos hone, if_pos (by omega)]
  · by_cases htwo : 1 < str.chars.count '/'
    · refine Or.inr (Or.inr fun exclude l => ?_)
      rw [parseIps_eq, if_neg (by omega), if_neg hone, if_pos htwo]
    · by_cases hzero : str.chars.count '-' = 0
      · by_cases hslash : str.chars.count '/' = 0
        · exact (single_cases hslash hzero).imp_right Or.inr
        · exact cidr_cases (by omega) hzero
      · exact blocks_cases (by omega) (by omega)

end IpsParser

/-- **The language of the parser.** A string is accepted exactly when it is
a phrase, and then the intervals of the phrase are appended, which cover
what it stands for less 255.255.255.255; the parser is undefined exactly on
the traps; and it refuses every other string and leaves the list as it
was. -/
theorem parser_language (exclude : Bool) (l l' : IpListIntervals) (str : CString) :
    (parseIps exclude l str = some (true, l') ↔
        ∃ p : Phrase, p.text = str.chars ∧ l' = appended exclude l p.intervals) ∧
      (parseIps exclude l str = none ↔ Trap str.chars) ∧
      (parseIps exclude l str = some (false, l') ↔
        l' = l ∧ ¬ IsPhrase str.chars ∧ ¬ Trap str.chars) ∧
      ∀ p : Phrase, covers p.intervals = p.addresses \ {lastIp} := by
  have hphrase : ∀ p : Phrase, p.text = str.chars →
      parseIps exclude l str = some (true, appended exclude l p.intervals) :=
    fun p hp => p.parseIps_text hp.symm exclude l
  have htrap : Trap str.chars → parseIps exclude l str = none := fun h => parseIps_trap h exclude l
  refine ⟨⟨?_, ?_⟩, ⟨?_, htrap⟩, ⟨?_, ?_⟩, Phrase.covers_intervals⟩
  · intro h
    obtain ⟨p, hp⟩ | ht | hr := parseIps_cases str
    · rw [hphrase p hp] at h
      exact ⟨p, hp, by cases h; rfl⟩
    · rw [htrap ht] at h
      cases h
    · rw [hr exclude l] at h
      cases h
  · rintro ⟨p, hp, rfl⟩
    exact hphrase p hp
  · intro h
    obtain ⟨p, hp⟩ | ht | hr := parseIps_cases str
    · rw [hphrase p hp] at h
      cases h
    · exact ht
    · rw [hr exclude l] at h
      cases h
  · intro h
    refine ⟨?_, ?_, ?_⟩
    · obtain ⟨p, hp⟩ | ht | hr := parseIps_cases str
      · rw [hphrase p hp] at h
        cases h
      · rw [htrap ht] at h
        cases h
      · rw [hr exclude l] at h
        cases h
        rfl
    · rintro ⟨p, hp⟩
      rw [hphrase p hp] at h
      cases h
    · intro ht
      rw [htrap ht] at h
      cases h
  · rintro ⟨rfl, hp, ht⟩
    obtain h | h | hr := parseIps_cases str
    · exact absurd h hp
    · exact absurd h ht
    · exact hr exclude l'

end Leeloo
