/-
Leeloo.BitReference — `bit_reference` of `bit_field.h`, which the iterators
of a bit field walk with.

A reference is a pointer to a chunk and a bit of it. The pointer is the
number of chunks from the start of the buffer to it, in either direction.
`position` reads a reference as one integer, and every integer is the
position of exactly one reference whose bit is a bit of its chunk
(`ofPosition`). `advance` is addition of integers (`advance_eq`), and
`distance_to` subtraction, in the 64 bits of a `ssize_t`
(`distanceTo_eq`).

A reference reads and writes the bit that `get_bit` and `set_bit` have at
its position (`toBool_eq`, `setValue_spec`).
-/
import Leeloo.BitField

namespace Leeloo

open BitChunks

/-- `bit_reference`. -/
structure BitReference where
  chunk : Int
  bit : BitVec 8
  deriving DecidableEq, Repr

namespace BitReference

/-- `operator==`. -/
def opEq (r o : BitReference) : Bool := decide (r.chunk = o.chunk) && decide (r.bit = o.bit)

/-- `increment`. -/
def increment (r : BitReference) : BitReference :=
  if r.bit = 63 then ⟨r.chunk + 1, 0⟩ else { r with bit := r.bit + 1 }

/-- `decrement`. -/
def decrement (r : BitReference) : BitReference :=
  if r.bit = 0 then ⟨r.chunk - 1, 63⟩ else { r with bit := r.bit - 1 }

/-- The end of `advance`: the `int` `new_bit` is brought back into a chunk.
Its sums with `bits_per_chunk` are made in a `size_t`. -/
def carry (chunk : Int) (newBit : BitVec 32) : BitReference :=
  if (64 : BitVec 64).sle (newBit.signExtend 64) then
    ⟨chunk + 1, (newBit.signExtend 64 - 64).setWidth 8⟩
  else if newBit.slt 0 then ⟨chunk - 1, (64 + newBit.signExtend 64).setWidth 8⟩
  else ⟨chunk, newBit.setWidth 8⟩

/-- `advance`; `none` is an overflow of `-n`. The mask is a `size_t`, so
the sum with `_bit` is one, and `new_bit` takes its low half. -/
def advance (r : BitReference) (n : BitVec 64) : Option BitReference :=
  let chunk := r.chunk + (n.sdiv 64).toInt
  if n.slt 0 then
    if n = BitVec.intMin 64 then none
    else some (carry chunk ((r.bit.setWidth 64 - (-n &&& 63)).setWidth 32))
  else some (carry chunk ((r.bit.setWidth 64 + (n &&& 63)).setWidth 32))

/-- `distance_to`. The difference of the pointers is a `ssize_t`, and that
of the bits an `int`. -/
def distanceTo (r o : BitReference) : BitVec 64 :=
  (BitVec.ofInt 64 (o.chunk - r.chunk) <<< 6) +
    (o.bit.setWidth 32 - r.bit.setWidth 32).signExtend 64

/-- `*_chunk`, for a buffer of these chunks. -/
def deref (r : BitReference) (chunks : List (BitVec 64)) : Option (BitVec 64) :=
  if r.chunk < 0 then none else chunks[r.chunk.toNat]?

/-- `operator bool`. -/
def toBool (r : BitReference) (chunks : List (BitVec 64)) : Option Bool := do
  let c ← r.deref chunks
  some (decide (c &&& 1#64 <<< r.bit ≠ 0))

/-- `set_value`: the chunks after it. -/
def setValue (r : BitReference) (v : Bool) (chunks : List (BitVec 64)) :
    Option (List (BitVec 64)) := do
  let c ← r.deref chunks
  let c := if v then c ||| 1#64 <<< r.bit else c &&& ~~~(1#64 <<< r.bit)
  some (chunks.set r.chunk.toNat c)

/-! ## Positions -/

/-- The bit is a bit of the chunk. -/
def InChunk (r : BitReference) : Prop := r.bit.toNat < 64

instance : DecidablePred InChunk := fun _ => inferInstanceAs (Decidable (_ < _))

/-- A reference as an integer. -/
def position (r : BitReference) : Int := 64 * r.chunk + r.bit.toNat

/-- The reference at a position. -/
def ofPosition (p : Int) : BitReference := ⟨p / 64, BitVec.ofInt 8 (p % 64)⟩

theorem toNat_bit_ofPosition (p : Int) : ((ofPosition p).bit.toNat : Int) = p % 64 := by
  rw [ofPosition, BitVec.toNat_ofInt]
  omega

theorem inChunk_ofPosition (p : Int) : (ofPosition p).InChunk := by
  have hbit := toNat_bit_ofPosition p
  unfold InChunk
  omega

@[simp] theorem position_ofPosition (p : Int) : (ofPosition p).position = p := by
  rw [position, toNat_bit_ofPosition]
  exact Int.mul_ediv_add_emod p 64

/-- A position belongs to one reference. -/
theorem position_inj {r o : BitReference} (hr : r.InChunk) (ho : o.InChunk) :
    r.position = o.position ↔ r = o := by
  constructor
  · intro h
    have hr' : r.bit.toNat < 64 := hr
    have ho' : o.bit.toNat < 64 := ho
    unfold position at h
    obtain ⟨chunk, bit⟩ := r
    obtain ⟨chunk', bit'⟩ := o
    have hchunk : chunk = chunk' := by simp only at h hr' ho'; omega
    have hbit : bit = bit' := BitVec.eq_of_toNat_eq (by simp only at h hr' ho'; omega)
    rw [hchunk, hbit]
  · rintro rfl
    rfl

theorem ofPosition_position {r : BitReference} (hr : r.InChunk) : ofPosition r.position = r :=
  (position_inj (inChunk_ofPosition _) hr).mp (position_ofPosition _)

/-- A reference is known by its position. -/
theorem eq_ofPosition {r : BitReference} (hr : r.InChunk) {p : Int} (hp : r.position = p) :
    r = ofPosition p := by
  rw [← hp, ofPosition_position hr]

theorem opEq_iff {r o : BitReference} (hr : r.InChunk) (ho : o.InChunk) :
    r.opEq o = true ↔ r.position = o.position := by
  rw [position_inj hr ho, opEq, Bool.and_eq_true, decide_eq_true_eq, decide_eq_true_eq,
    BitReference.mk.injEq]

/-! ## Steps -/

/-- `increment` is the next position. -/
theorem increment_eq {r : BitReference} (hr : r.InChunk) :
    r.increment = ofPosition (r.position + 1) := by
  have hbit : r.bit.toNat < 64 := hr
  unfold increment
  by_cases h : r.bit = 63
  · have h63 : r.bit.toNat = 63 := congrArg BitVec.toNat h
    rw [if_pos h]
    refine eq_ofPosition ?_ ?_
    · show (0 : BitVec 8).toNat < 64
      decide
    · show 64 * (r.chunk + 1) + 0 = 64 * r.chunk + (r.bit.toNat : Int) + 1
      omega
  · have h63 : r.bit.toNat ≠ 63 := fun heq => h (BitVec.eq_of_toNat_eq heq)
    have hsucc : (r.bit + 1).toNat = r.bit.toNat + 1 := by bv_omega
    rw [if_neg h]
    refine eq_ofPosition ?_ ?_
    · show (r.bit + 1).toNat < 64
      omega
    · simp only [position, hsucc]
      omega

/-- `decrement` is the position before. -/
theorem decrement_eq {r : BitReference} (hr : r.InChunk) :
    r.decrement = ofPosition (r.position - 1) := by
  have hbit : r.bit.toNat < 64 := hr
  unfold decrement
  by_cases h : r.bit = 0
  · have h0 : r.bit.toNat = 0 := congrArg BitVec.toNat h
    rw [if_pos h]
    refine eq_ofPosition ?_ ?_
    · show (63 : BitVec 8).toNat < 64
      decide
    · show 64 * (r.chunk - 1) + 63 = 64 * r.chunk + (r.bit.toNat : Int) - 1
      omega
  · have h0 : r.bit.toNat ≠ 0 := fun heq => h (BitVec.eq_of_toNat_eq heq)
    have hpred : (r.bit - 1).toNat = r.bit.toNat - 1 := by bv_omega
    rw [if_neg h]
    refine eq_ofPosition ?_ ?_
    · show (r.bit - 1).toNat < 64
      omega
    · simp only [position, hpred]
      omega

/-- One carry brings back a bit that is less than a chunk away. -/
theorem carry_eq (chunk : Int) {newBit : BitVec 32} (hlow : -64 < newBit.toInt)
    (hhigh : newBit.toInt < 128) : carry chunk newBit = ofPosition (64 * chunk + newBit.toInt) := by
  have hwide : (newBit.signExtend 64).toInt = newBit.toInt :=
    BitVec.toInt_signExtend_of_le (by decide)
  have hcond := BitVec.toInt_eq_toNat_cond (newBit.signExtend 64)
  have hcond32 := BitVec.toInt_eq_toNat_cond newBit
  have h64 : (64 : BitVec 64).toNat = 64 := rfl
  have hsle : (64 : BitVec 64).sle (newBit.signExtend 64) = true ↔ 64 ≤ newBit.toInt := by
    rw [BitVec.sle_iff_toInt_le, hwide]
    rfl
  have hslt : newBit.slt 0 = true ↔ newBit.toInt < 0 := BitVec.slt_iff_toInt_lt
  unfold carry
  split_ifs with habove hbelow
  · have hge := hsle.mp habove
    have hbit : (((newBit.signExtend 64 - 64).setWidth 8).toNat : Int) = newBit.toInt - 64 := by
      rw [BitVec.toNat_setWidth, BitVec.toNat_sub, h64]
      omega
    refine eq_ofPosition ?_ ?_
    · show ((newBit.signExtend 64 - 64).setWidth 8).toNat < 64
      omega
    · rw [position, hbit]
      ring
  · have hneg := hslt.mp hbelow
    have hbit : (((64 + newBit.signExtend 64).setWidth 8).toNat : Int) = 64 + newBit.toInt := by
      rw [BitVec.toNat_setWidth, BitVec.toNat_add, h64]
      omega
    refine eq_ofPosition ?_ ?_
    · show ((64 + newBit.signExtend 64).setWidth 8).toNat < 64
      omega
    · rw [position, hbit]
      ring
  · have hlt := mt hsle.mpr habove
    have hnonneg := mt hslt.mpr hbelow
    have hbit : ((newBit.setWidth 8).toNat : Int) = newBit.toInt := by
      rw [BitVec.toNat_setWidth]
      omega
    refine eq_ofPosition ?_ ?_
    · show (newBit.setWidth 8).toNat < 64
      omega
    · rw [position, hbit]

theorem toInt_sdiv_bits (n : BitVec 64) : (n.sdiv 64).toInt = n.toInt.tdiv 64 :=
  BitVec.toInt_sdiv_of_ne_or_ne n 64 (.inr (by decide))

/-- The quotient and the masked bits of a step forward. -/
theorem split_nonneg {n : BitVec 64} (h : 0 ≤ n.toInt) :
    n.toInt = 64 * (n.sdiv 64).toInt + (n &&& 63).toNat := by
  have hcond := BitVec.toInt_eq_toNat_cond n
  rw [toInt_sdiv_bits, Int.tdiv_eq_ediv_of_nonneg h, BitField.toNat_and_mask]
  omega

/-- The quotient of a step back is cut towards zero, so the masked bits of
`-n` are what it leaves. -/
theorem split_neg {n : BitVec 64} (h : n.toInt < 0) (hn : n ≠ BitVec.intMin 64) :
    n.toInt = 64 * (n.sdiv 64).toInt - (-n &&& 63).toNat := by
  have hneg : (-n).toInt = -n.toInt := BitVec.toInt_neg_of_ne_intMin hn
  have hcond := BitVec.toInt_eq_toNat_cond (-n)
  have hquot : n.toInt.tdiv 64 = -(-n.toInt / 64) := by
    rw [← Int.tdiv_eq_ediv_of_nonneg (by omega), Int.neg_tdiv, Int.neg_neg]
  rw [toInt_sdiv_bits, hquot, BitField.toNat_and_mask]
  omega

/-- **`advance` adds `n` to the position.** -/
theorem advance_eq {r : BitReference} (hr : r.InChunk) {n : BitVec 64}
    (hn : n ≠ BitVec.intMin 64) : r.advance n = some (ofPosition (r.position + n.toInt)) := by
  have hbit : r.bit.toNat < 64 := hr
  have hslt : n.slt 0 = true ↔ n.toInt < 0 := BitVec.slt_iff_toInt_lt
  unfold advance
  by_cases h : n.slt 0 = true
  · have hsplit := split_neg (hslt.mp h) hn
    have hlow : (-n &&& 63).toNat < 64 := by
      rw [BitField.toNat_and_mask]
      omega
    have hcond := BitVec.toInt_eq_toNat_cond ((r.bit.setWidth 64 - (-n &&& 63)).setWidth 32)
    rw [BitVec.toNat_setWidth, BitVec.toNat_sub, BitVec.toNat_setWidth] at hcond
    rw [if_pos h, if_neg hn, carry_eq _ (by omega) (by omega)]
    congr 2
    unfold position
    omega
  · have hsplit := split_nonneg (not_lt.mp (mt hslt.mpr h))
    have hlow : (n &&& 63).toNat < 64 := by
      rw [BitField.toNat_and_mask]
      omega
    have hcond := BitVec.toInt_eq_toNat_cond ((r.bit.setWidth 64 + (n &&& 63)).setWidth 32)
    rw [BitVec.toNat_setWidth, BitVec.toNat_add, BitVec.toNat_setWidth] at hcond
    rw [if_neg h, carry_eq _ (by omega) (by omega)]
    congr 2
    unfold position
    omega

/-- **`distance_to` subtracts the positions**, in the 64 bits of its
result. -/
theorem distanceTo_eq (r o : BitReference) :
    r.distanceTo o = BitVec.ofInt 64 (o.position - r.position) := by
  have hr := r.bit.isLt
  have ho := o.bit.isLt
  have hchunks : BitVec.ofInt 64 (o.chunk - r.chunk) <<< 6 =
      BitVec.ofInt 64 ((o.chunk - r.chunk) * 64) := by
    rw [BitVec.shiftLeft_eq_mul_twoPow, BitVec.ofInt_mul]
    rfl
  have hcond := BitVec.toInt_eq_toNat_cond (o.bit.setWidth 32 - r.bit.setWidth 32)
  rw [BitVec.toNat_sub, BitVec.toNat_setWidth, BitVec.toNat_setWidth] at hcond
  have hbits : (o.bit.setWidth 32 - r.bit.setWidth 32).toInt = o.bit.toNat - r.bit.toNat := by
    omega
  rw [distanceTo, hchunks, BitVec.signExtend, hbits, ← BitVec.ofInt_add]
  congr 1
  unfold position
  ring

/-- Two steps are one step by their sum. -/
theorem advance_advance {r : BitReference} (hr : r.InChunk) {m n : BitVec 64}
    (hm : m ≠ BitVec.intMin 64) (hn : n ≠ BitVec.intMin 64) (hmn : m + n ≠ BitVec.intMin 64)
    (hsum : (m + n).toInt = m.toInt + n.toInt) :
    ((r.advance m).bind fun r => r.advance n) = r.advance (m + n) := by
  rw [advance_eq hr hm, advance_eq hr hmn, Option.bind_some,
    advance_eq (inChunk_ofPosition _) hn, position_ofPosition, hsum]
  congr 2
  ring

/-- **A reference behaves as its position**: `advance(n)` moves it by `n`,
`increment` and `decrement` by one, `distance_to` is the difference, and
steps add up. A distance is a `ssize_t`, so it is the integer where it
fits. -/
theorem position_laws {r : BitReference} (hr : r.InChunk) :
    (∀ n, n ≠ BitVec.intMin 64 → ∃ r', r.advance n = some r' ∧
        r'.position = r.position + n.toInt ∧ r'.InChunk) ∧
      (r.increment.position = r.position + 1 ∧ r.increment.InChunk) ∧
      (r.decrement.position = r.position - 1 ∧ r.decrement.InChunk) ∧
      (∀ o, o.InChunk → r.distanceTo o = BitVec.ofInt 64 (o.position - r.position) ∧
        (-2 ^ 63 ≤ o.position - r.position → o.position - r.position < 2 ^ 63 →
          (r.distanceTo o).toInt = o.position - r.position)) ∧
      ∀ m n, m ≠ BitVec.intMin 64 → n ≠ BitVec.intMin 64 → m + n ≠ BitVec.intMin 64 →
        (m + n).toInt = m.toInt + n.toInt →
        ((r.advance m).bind fun r => r.advance n) = r.advance (m + n) := by
  refine ⟨fun n hn => ?_, ?_, ?_, fun o _ => ?_, fun m n => advance_advance hr⟩
  · exact ⟨_, advance_eq hr hn, position_ofPosition _, inChunk_ofPosition _⟩
  · rw [increment_eq hr]
    exact ⟨position_ofPosition _, inChunk_ofPosition _⟩
  · rw [decrement_eq hr]
    exact ⟨position_ofPosition _, inChunk_ofPosition _⟩
  · refine ⟨distanceTo_eq r o, fun hlow hhigh => ?_⟩
    rw [distanceTo_eq, BitVec.toInt_ofInt_eq_self (by decide) hlow hhigh]

/-- Back over two chunk ends from bit 3 of chunk 5, and on again. -/
theorem position_laws_back :
    let r : BitReference := ⟨5, 3⟩
    r.advance (-70) = some ⟨3, 61⟩ ∧
      ((r.advance (-70)).bind fun r => r.advance 200) = r.advance 130 ∧
      ((⟨3, 61⟩ : BitReference).distanceTo r).toInt = 70 :=
  ⟨by decide, (position_laws (by decide)).2.2.2.2 (-70) 200 (by decide) (by decide) (by decide)
      (by decide),
    ((position_laws (by decide)).2.2.2.1 ⟨5, 3⟩ (by decide)).2 (by decide) (by decide)⟩

/-! ## The bits of a bit field -/

theorem deref_eq {r : BitReference} (hr : r.InChunk) (hp : 0 ≤ r.position)
    (chunks : List (BitVec 64)) :
    r.deref chunks = chunks[r.position.toNat / 64]? ∧ r.bit.toNat = r.position.toNat % 64 ∧
      r.chunk.toNat = r.position.toNat / 64 := by
  have hbit : r.bit.toNat < 64 := hr
  unfold position at hp ⊢
  have hchunk : r.chunk.toNat = (64 * r.chunk + r.bit.toNat).toNat / 64 := by omega
  refine ⟨?_, by omega, hchunk⟩
  rw [deref, if_neg (by omega), hchunk]

/-- A reference reads the bit at its position. -/
theorem toBool_eq {r : BitReference} (hr : r.InChunk) (hp : 0 ≤ r.position)
    (chunks : List (BitVec 64)) : r.toBool chunks = bitAt chunks r.position.toNat := by
  obtain ⟨hderef, hbit, -⟩ := deref_eq hr hp chunks
  unfold toBool bitAt
  rw [hderef]
  cases chunks[r.position.toNat / 64]? with
  | none => rfl
  | some c =>
    simp only [Option.bind_eq_bind, Option.bind_some, Option.map_some]
    rw [BitVec.shiftLeft_eq', hbit]
    exact congrArg some (BitField.decide_and_bit_ne_zero c (Nat.mod_lt _ (by omega)))

/-- A reference writes the bit at its position, and no other. -/
theorem setValue_spec {r : BitReference} (hr : r.InChunk) (hp : 0 ≤ r.position)
    {chunks : List (BitVec 64)} (hlt : r.position.toNat / 64 < chunks.length) (v : Bool) :
    ∃ chunks', r.setValue v chunks = some chunks' ∧
      ∀ j, bitAt chunks' j = if j = r.position.toNat then some v else bitAt chunks j := by
  obtain ⟨hderef, hbit, hchunk⟩ := deref_eq hr hp chunks
  have hc := List.getElem?_eq_getElem hlt
  unfold setValue
  rw [hderef, hc]
  refine ⟨_, rfl, fun j => ?_⟩
  rw [hchunk, BitVec.shiftLeft_eq', hbit]
  cases v with
  | false => exact bitAt_set_andNot (by omega) hc j
  | true => exact bitAt_set_or (by omega) hc j

end BitReference

namespace BitField

open BitReference

/-- `begin`. -/
def begin_ : BitReference := ⟨0, 0⟩

/-- `end`. -/
def end_ (b : BitField) : BitReference := ⟨b.size.toNat, 0⟩

/-- The iterator that is `i` steps from the first reads bit `i`. -/
theorem begin_advance_toBool (b : BitField) {i : BitVec 64} (hi : i.toNat < 2 ^ 63) :
    (begin_.advance i).bind (fun r => r.toBool b.chunks) = b.getBitFast i := by
  have hcond := BitVec.toInt_eq_toNat_cond i
  have hne : i ≠ BitVec.intMin 64 := by
    rintro rfl
    exact absurd hi (by decide)
  have hzero : begin_.position = 0 := rfl
  have hpos : begin_.position + i.toInt = i.toNat := by omega
  rw [advance_eq (by decide) hne, Option.bind_some, hpos,
    toBool_eq (inChunk_ofPosition _) (by rw [position_ofPosition]; omega), position_ofPosition,
    Int.toNat_natCast, getBitFast_eq]

/-- The iterators are `size_bits()` apart. -/
theorem begin_distanceTo_end (b : BitField) : begin_.distanceTo b.end_ = b.sizeBits := by
  have hpos : b.end_.position - begin_.position = b.size.toNat * 64 := by
    show 64 * (b.size.toNat : Int) + 0 - 0 = _
    omega
  rw [distanceTo_eq, hpos, sizeBits, BitVec.ofInt_mul, BitVec.ofInt_natCast, BitVec.ofNat_toNat,
    BitVec.setWidth_eq]
  rfl

end BitField

end Leeloo
