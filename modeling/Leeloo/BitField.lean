/-
Leeloo.BitField — the class `bit_field` of `bit_field.h`, the storage of
the push/pop bits of the properties.

`_buf` is the null pointer or a buffer of chunks. What an allocation holds
before it is written is arbitrary: each call that may allocate takes it as
`fresh`, by index. An allocation of no chunks is not null, so a copy of an
empty bit field takes the second path of `reserve` from then on. `none` is
an access outside a buffer.

`Holds` says that a bit field stores a map of written bits; one call keeps
it for the map after the call (`BitFieldCall.step_holds`), and so do all
the calls of a run (`getBit_run`).
-/
import Leeloo.Lib.BitChunks
import Leeloo.Lib.Word

namespace Leeloo

open BitChunks

/-- The data members of `bit_field`; `integer_type` has 64 bits. -/
structure BitField where
  buf : Option (List (BitVec 64)) := none
  size : BitVec 64 := 0
  deriving DecidableEq, Repr

namespace BitField

/-- `bit_index_to_chunk`. -/
def bitIndexToChunk (n : BitVec 64) : BitVec 64 := n >>> 6

/-- `bit_index_to_chunk_bit`. -/
def bitIndexToChunkBit (n : BitVec 64) : BitVec 64 := n &&& 63

/-- `bit_count_to_chunk_count`. -/
def bitCountToChunkCount (nbits : BitVec 64) : BitVec 64 := (nbits + 64 - 1) / 64

/-- `size_bits`. -/
def sizeBits (b : BitField) : BitVec 64 := b.size * 64

/-- `allocate(n)`: `n` chunks with what they held before. -/
def allocate (fresh : Nat → BitVec 64) (n : BitVec 64) : List (BitVec 64) :=
  (List.range n.toNat).map fresh

/-- `memcpy` of `n` chunks. -/
def memcpy (dst src : List (BitVec 64)) (n : Nat) : Option (List (BitVec 64)) :=
  if n ≤ dst.length ∧ n ≤ src.length then some (src.take n ++ dst.drop n) else none

/-- `clear_storage`. -/
def clearStorage (b : BitField) : BitField := if b.buf.isSome then {} else b

/-- `reserve`. -/
def reserve (b : BitField) (fresh : Nat → BitVec 64) (nbits : BitVec 64) : Option BitField :=
  let reqSize := bitCountToChunkCount nbits
  if reqSize ≤ b.size then some b
  else
    match b.buf with
    | none => some { buf := some (allocate fresh reqSize), size := reqSize }
    | some buf => do
      let newSize := max (b.size + 64) reqSize
      let newBuf ← memcpy (allocate fresh newSize) buf b.size.toNat
      some { buf := some newBuf, size := newSize }

/-- `chunk_at`. -/
def chunkAt (b : BitField) (n : BitVec 64) : Option (BitVec 64) := do
  let buf ← b.buf
  buf[n.toNat]?

/-- `chunk_at(n) = c`. -/
def setChunk (b : BitField) (n c : BitVec 64) : BitField :=
  { b with buf := b.buf.map fun buf => buf.set n.toNat c }

/-- `set_bit_fast`. -/
def setBitFast (b : BitField) (idx : BitVec 64) : Option BitField := do
  let c ← b.chunkAt (bitIndexToChunk idx)
  some (b.setChunk (bitIndexToChunk idx) (c ||| 1#64 <<< bitIndexToChunkBit idx))

/-- `clear_bit_fast`. -/
def clearBitFast (b : BitField) (idx : BitVec 64) : Option BitField := do
  let c ← b.chunkAt (bitIndexToChunk idx)
  some (b.setChunk (bitIndexToChunk idx) (c &&& ~~~(1#64 <<< bitIndexToChunkBit idx)))

/-- `get_bit_fast`. -/
def getBitFast (b : BitField) (idx : BitVec 64) : Option Bool := do
  let c ← b.chunkAt (bitIndexToChunk idx)
  some (decide (c &&& 1#64 <<< bitIndexToChunkBit idx ≠ 0))

/-- `set_bit`. -/
def setBit (b : BitField) (fresh : Nat → BitVec 64) (idx : BitVec 64) : Option BitField := do
  let b ← b.reserve fresh (idx + 1)
  b.setBitFast idx

/-- `clear_bit`. -/
def clearBit (b : BitField) (fresh : Nat → BitVec 64) (idx : BitVec 64) : Option BitField := do
  let b ← b.reserve fresh (idx + 1)
  b.clearBitFast idx

/-- `get_bit`. -/
def getBit (b : BitField) (idx : BitVec 64) : Option Bool :=
  if b.sizeBits ≤ idx then some false else b.getBitFast idx

/-- `copy(o)`; the buffer of an empty `o` is null, and no chunk of it is
read. -/
def copy (o : BitField) (fresh : Nat → BitVec 64) : Option BitField := do
  let buf ← memcpy (allocate fresh o.size) (o.buf.getD []) o.size.toNat
  some { buf := some buf, size := o.size }

end BitField

/-- A call on a bit field, with what the chunks it allocates hold. After
`copy` the run goes on with the copy. -/
inductive BitFieldCall where
  | setBit (idx : BitVec 64) (fresh : Nat → BitVec 64)
  | clearBit (idx : BitVec 64) (fresh : Nat → BitVec 64)
  | reserve (nbits : BitVec 64) (fresh : Nat → BitVec 64)
  | clearStorage
  | copy (fresh : Nat → BitVec 64)

namespace BitFieldCall

def step (b : BitField) : BitFieldCall → Option BitField
  | setBit idx fresh => b.setBit fresh idx
  | clearBit idx fresh => b.clearBit fresh idx
  | reserve nbits fresh => b.reserve fresh nbits
  | clearStorage => some b.clearStorage
  | copy fresh => b.copy fresh

/-- The indices are below `2^63`. -/
def InRange : BitFieldCall → Prop
  | setBit idx _ => idx.toNat < 2 ^ 63
  | clearBit idx _ => idx.toNat < 2 ^ 63
  | reserve nbits _ => nbits.toNat ≤ 2 ^ 63
  | clearStorage => True
  | copy _ => True

/-- What each index was last written with since the last `clear_storage`,
after the call. -/
def written (m : BitVec 64 → Option Bool) : BitFieldCall → BitVec 64 → Option Bool
  | setBit idx _, i => if i = idx then some true else m i
  | clearBit idx _, i => if i = idx then some false else m i
  | reserve _ _, i => m i
  | clearStorage, _ => none
  | copy _, i => m i

end BitFieldCall

/-! ## Chunks and bits -/

namespace BitField

variable {b : BitField}

theorem toNat_bitIndexToChunk (n : BitVec 64) : (bitIndexToChunk n).toNat = n.toNat / 64 := by
  rw [bitIndexToChunk, BitVec.toNat_ushiftRight, Nat.shiftRight_eq_div_pow]

/-- `mask_chunk_bit` keeps the bit in the chunk. -/
theorem toNat_and_mask (n : BitVec 64) : (n &&& 63).toNat = n.toNat % 64 := by
  rw [BitVec.toNat_and]
  exact Nat.and_two_pow_sub_one_eq_mod n.toNat 6

theorem toNat_bitIndexToChunkBit (n : BitVec 64) :
    (bitIndexToChunkBit n).toNat = n.toNat % 64 :=
  toNat_and_mask n

/-- A chunk tested against one bit. -/
theorem decide_and_bit_ne_zero (c : BitVec 64) {k : Nat} (hk : k < 64) :
    decide (c &&& 1#64 <<< k ≠ 0) = c.getLsbD k := by
  have hne : ¬ BitVec.twoPow 64 k = 0#64 := by
    intro h0
    have hbit := congrArg (·.getLsbD k) h0
    simp [hk] at hbit
  rw [← BitVec.twoPow_eq, BitVec.and_twoPow]
  cases c.getLsbD k <;> simp [hne]

/-- The chunks, none for the null pointer. -/
def chunks (b : BitField) : List (BitVec 64) := b.buf.getD []

theorem chunkAt_eq (b : BitField) (n : BitVec 64) : b.chunkAt n = b.chunks[n.toNat]? := by
  unfold chunkAt chunks
  cases b.buf <;> rfl

theorem chunks_setChunk (b : BitField) (n c : BitVec 64) :
    (b.setChunk n c).chunks = b.chunks.set n.toNat c := by
  unfold setChunk chunks
  cases b.buf <;> rfl

/-- What the code keeps: `_size` counts the chunks, which are few enough
for `size_bits` not to wrap. -/
structure Valid (b : BitField) : Prop where
  length : b.chunks.length = b.size.toNat
  size_lt : b.size.toNat < 2 ^ 57 + 64

theorem valid_empty : Valid {} := ⟨rfl, by decide⟩

theorem Valid.toNat_sizeBits (h : Valid b) : b.sizeBits.toNat = b.size.toNat * 64 := by
  have hlt := h.size_lt
  rw [sizeBits, BitVec.toNat_mul]
  change b.size.toNat * 64 % 2 ^ 64 = _
  omega

theorem getBitFast_eq (b : BitField) (idx : BitVec 64) :
    b.getBitFast idx = bitAt b.chunks idx.toNat := by
  unfold getBitFast bitAt
  rw [chunkAt_eq, toNat_bitIndexToChunk]
  cases b.chunks[idx.toNat / 64]? with
  | none => rfl
  | some c =>
    simp only [Option.bind_eq_bind, Option.bind_some, Option.map_some, BitVec.shiftLeft_eq',
      toNat_bitIndexToChunkBit]
    exact congrArg some (decide_and_bit_ne_zero c (Nat.mod_lt _ (by omega)))

/-- `get_bit` reads a bit that is there. -/
theorem Valid.getBit_of_bitAt (h : Valid b) {idx : BitVec 64} {v : Bool}
    (hv : bitAt b.chunks idx.toNat = some v) : b.getBit idx = some v := by
  have hlt := lt_of_bitAt hv
  have hlen := h.length
  have hbits := h.toNat_sizeBits
  unfold getBit
  rw [if_neg, getBitFast_eq, hv]
  rw [BitVec.le_def]
  omega

/-! ## One call -/

theorem length_allocate (fresh : Nat → BitVec 64) (n : BitVec 64) :
    (allocate fresh n).length = n.toNat := by
  simp [allocate]

/-- Copying all of a buffer into an allocation as large. -/
theorem memcpy_all {src : List (BitVec 64)} {n : Nat} (hn : src.length = n)
    (fresh : Nat → BitVec 64) {m : BitVec 64} (hm : n ≤ m.toNat) :
    memcpy (allocate fresh m) src n = some (src ++ (allocate fresh m).drop n) := by
  subst hn
  rw [memcpy, if_pos ⟨by rw [length_allocate]; exact hm, le_refl _⟩, List.take_length]

theorem toNat_bitCountToChunkCount {nbits : BitVec 64} (hn : nbits.toNat ≤ 2 ^ 63) :
    (bitCountToChunkCount nbits).toNat = (nbits.toNat + 63) / 64 := by
  have hsum : (nbits + 64 - 1).toNat = nbits.toNat + 63 := by bv_omega
  rw [bitCountToChunkCount, BitVec.toNat_udiv, hsum]
  rfl

/-- `reserve` keeps the chunks and puts others behind them, as many as the
bits need. -/
theorem Valid.reserve (h : Valid b) (fresh : Nat → BitVec 64) {nbits : BitVec 64}
    (hn : nbits.toNat ≤ 2 ^ 63) :
    ∃ b', b.reserve fresh nbits = some b' ∧ Valid b' ∧
      (∃ rest, b'.chunks = b.chunks ++ rest) ∧ (nbits.toNat + 63) / 64 ≤ b'.size.toNat := by
  have hlen := h.length
  have hlt := h.size_lt
  have hreq := toNat_bitCountToChunkCount hn
  unfold BitField.reserve
  by_cases hle : bitCountToChunkCount nbits ≤ b.size
  · rw [if_pos hle]
    refine ⟨b, rfl, h, ⟨[], (List.append_nil _).symm⟩, ?_⟩
    rw [← hreq]
    exact hle
  · have hgrow : b.size.toNat < (bitCountToChunkCount nbits).toNat := not_le.mp hle
    simp only [if_neg hle]
    cases hbuf : b.buf with
    | none =>
      have hnil : b.chunks = [] := by rw [chunks, hbuf]; rfl
      refine ⟨_, rfl, ⟨length_allocate _ _, ?_⟩, ⟨_, by rw [hnil]; rfl⟩, by rw [hreq]⟩
      show (bitCountToChunkCount nbits).toNat < _
      omega
    | some buf =>
      have hchunks : b.chunks = buf := by rw [chunks, hbuf]; rfl
      have hmore : (b.size + 64).toNat = b.size.toNat + 64 := by bv_omega
      have hmax : (max (b.size + 64) (bitCountToChunkCount nbits)).toNat =
          max (b.size.toNat + 64) (bitCountToChunkCount nbits).toNat := by
        rw [Word.toNat_max, hmore]
      have hcopied : buf.length = b.size.toNat := hchunks ▸ hlen
      have hcopy := memcpy_all hcopied fresh
        (m := max (b.size + 64) (bitCountToChunkCount nbits)) (by omega)
      simp only [hcopy, Option.bind_eq_bind, Option.bind_some]
      refine ⟨_, rfl, ⟨?_, ?_⟩, ⟨_, by rw [hchunks]; rfl⟩, ?_⟩
      · show (buf ++ _).length = (max _ _ : BitVec 64).toNat
        rw [List.length_append, List.length_drop, length_allocate, ← hchunks, hlen]
        omega
      · show (max _ _ : BitVec 64).toNat < _
        omega
      · show _ ≤ (max _ _ : BitVec 64).toNat
        omega

/-- A change of a chunk that is there. -/
theorem Valid.setChunk (h : Valid b) (n c : BitVec 64) : Valid (b.setChunk n c) := by
  constructor
  · rw [chunks_setChunk, List.length_set]
    exact h.length
  · exact h.size_lt

/-- A change of the chunk of one bit, where the chunk is there. -/
theorem Valid.changeChunk (h : Valid b) {idx : BitVec 64} (hlt : idx.toNat / 64 < b.size.toNat)
    {op : BitVec 64 → BitVec 64} {v : Bool}
    (hop : ∀ {c}, b.chunks[idx.toNat / 64]? = some c → ∀ j,
      bitAt (b.chunks.set (idx.toNat / 64) (op c)) j =
        if j = idx.toNat then some v else bitAt b.chunks j) :
    ∃ b', ((b.chunkAt (bitIndexToChunk idx)).bind fun c =>
        some (b.setChunk (bitIndexToChunk idx) (op c))) = some b' ∧ Valid b' ∧
      ∀ j, bitAt b'.chunks j = if j = idx.toNat then some v else bitAt b.chunks j := by
  have hlen : idx.toNat / 64 < b.chunks.length := by rwa [h.length]
  have hc := List.getElem?_eq_getElem hlen
  refine ⟨b.setChunk (bitIndexToChunk idx) (op b.chunks[idx.toNat / 64]), ?_, h.setChunk _ _,
    fun j => ?_⟩
  · rw [chunkAt_eq, toNat_bitIndexToChunk, hc, Option.bind_some]
  · rw [chunks_setChunk, toNat_bitIndexToChunk]
    exact hop hc j

/-- `set_bit_fast` sets the bit and no other. -/
theorem Valid.setBitFast (h : Valid b) {idx : BitVec 64} (hlt : idx.toNat / 64 < b.size.toNat) :
    ∃ b', b.setBitFast idx = some b' ∧ Valid b' ∧
      ∀ j, bitAt b'.chunks j = if j = idx.toNat then some true else bitAt b.chunks j := by
  refine h.changeChunk hlt fun hc j => ?_
  rw [BitVec.shiftLeft_eq', toNat_bitIndexToChunkBit]
  exact bitAt_set_or (by omega) hc j

/-- `clear_bit_fast` clears the bit and no other. -/
theorem Valid.clearBitFast (h : Valid b) {idx : BitVec 64}
    (hlt : idx.toNat / 64 < b.size.toNat) :
    ∃ b', b.clearBitFast idx = some b' ∧ Valid b' ∧
      ∀ j, bitAt b'.chunks j = if j = idx.toNat then some false else bitAt b.chunks j := by
  refine h.changeChunk hlt fun hc j => ?_
  rw [BitVec.shiftLeft_eq', toNat_bitIndexToChunkBit]
  exact bitAt_set_andNot (by omega) hc j

/-- `copy` has the chunks. -/
theorem Valid.copy (h : Valid b) (fresh : Nat → BitVec 64) :
    ∃ b', b.copy fresh = some b' ∧ Valid b' ∧ b'.chunks = b.chunks := by
  have hcopy := memcpy_all h.length fresh (m := b.size) (le_refl _)
  have hdrop : (allocate fresh b.size).drop b.size.toNat = [] :=
    List.drop_of_length_le (length_allocate fresh b.size).le
  rw [hdrop, List.append_nil] at hcopy
  unfold BitField.copy
  unfold chunks at hcopy
  simp only [hcopy, Option.bind_eq_bind, Option.bind_some]
  exact ⟨_, rfl, ⟨h.length, h.size_lt⟩, rfl⟩

theorem Valid.clearStorage (h : Valid b) : Valid b.clearStorage := by
  unfold BitField.clearStorage
  split
  · exact valid_empty
  · exact h

/-! ## The map of written bits -/

/-- The bit field stores a map of written bits. -/
structure Holds (b : BitField) (m : BitVec 64 → Option Bool) : Prop where
  valid : Valid b
  bits : ∀ i v, m i = some v → bitAt b.chunks i.toNat = some v

/-- A bit written behind a `reserve` that makes room for it. -/
theorem Holds.write {m : BitVec 64 → Option Bool} (h : Holds b m) {idx : BitVec 64}
    (hidx : idx.toNat < 2 ^ 63) (fresh : Nat → BitVec 64) (v : Bool)
    {fast : BitField → BitVec 64 → Option BitField}
    (hfast : ∀ {b : BitField}, Valid b → idx.toNat / 64 < b.size.toNat →
      ∃ b', fast b idx = some b' ∧ Valid b' ∧
        ∀ j, bitAt b'.chunks j = if j = idx.toNat then some v else bitAt b.chunks j) :
    ∃ b', ((b.reserve fresh (idx + 1)).bind fun b => fast b idx) = some b' ∧
      Holds b' fun i => if i = idx then some v else m i := by
  have hsucc : (idx + 1).toNat = idx.toNat + 1 := by bv_omega
  have hreq : (idx + 1).toNat ≤ 2 ^ 63 := by omega
  obtain ⟨b₁, hreserve, hvalid, ⟨rest, hrest⟩, hsize⟩ := h.valid.reserve fresh hreq
  obtain ⟨b₂, hwrite, hvalid', hbits⟩ := hfast hvalid (by omega)
  refine ⟨b₂, by rw [hreserve]; exact hwrite, hvalid', fun i v' hv' => ?_⟩
  rw [hbits]
  by_cases hi : i = idx
  · rw [if_pos hi] at hv'
    rw [if_pos (congrArg _ hi), hv']
  · rw [if_neg hi] at hv'
    rw [if_neg (fun heq => hi (BitVec.eq_of_toNat_eq heq)), hrest]
    exact bitAt_append (h.bits i v' hv')

end BitField

open BitField

/-- **One call** ends, and the bit field stores what is written after it. -/
theorem BitFieldCall.step_holds {b : BitField} {m : BitVec 64 → Option Bool} (h : Holds b m)
    {c : BitFieldCall} (hc : c.InRange) : ∃ b', c.step b = some b' ∧ Holds b' (c.written m) := by
  cases c with
  | setBit idx fresh => exact h.write hc fresh true fun hv hlt => hv.setBitFast hlt
  | clearBit idx fresh => exact h.write hc fresh false fun hv hlt => hv.clearBitFast hlt
  | reserve nbits fresh =>
    obtain ⟨b', hb', hvalid, ⟨rest, hrest⟩, _⟩ := h.valid.reserve fresh hc
    refine ⟨b', hb', hvalid, fun i v hv => ?_⟩
    rw [hrest]
    exact bitAt_append (h.bits i v hv)
  | clearStorage => exact ⟨_, rfl, h.valid.clearStorage, fun i v hv => by cases hv⟩
  | copy fresh =>
    obtain ⟨b', hb', hvalid, hchunks⟩ := h.valid.copy fresh
    refine ⟨b', hb', hvalid, fun i v hv => ?_⟩
    rw [hchunks]
    exact h.bits i v hv

/-- The calls of a run, one after the other. -/
theorem run_holds {b : BitField} {m : BitVec 64 → Option Bool} (h : Holds b m)
    {calls : List BitFieldCall} (hc : ∀ c ∈ calls, c.InRange) :
    ∃ b', calls.foldlM BitFieldCall.step b = some b' ∧
      Holds b' (calls.foldl BitFieldCall.written m) := by
  induction calls generalizing b m with
  | nil => exact ⟨b, rfl, h⟩
  | cons c calls ih =>
    obtain ⟨b₁, hb₁, h₁⟩ := c.step_holds h (hc c List.mem_cons_self)
    obtain ⟨b₂, hb₂, h₂⟩ := ih h₁ fun d hd => hc d (List.mem_cons_of_mem _ hd)
    exact ⟨b₂, by rw [List.foldlM_cons, hb₁]; exact hb₂, h₂⟩

/-- **`get_bit` returns the last write** since the last `clear_storage`, in
every run with indices below `2^63`. -/
theorem getBit_run (calls : List BitFieldCall) (hc : ∀ c ∈ calls, c.InRange) :
    ∃ b, calls.foldlM BitFieldCall.step {} = some b ∧
      ∀ i v, calls.foldl BitFieldCall.written (fun _ => none) i = some v →
        b.getBit i = some v := by
  obtain ⟨b, hb, h⟩ := run_holds (m := fun _ => none)
    ⟨valid_empty, fun i v hv => by cases hv⟩ hc
  exact ⟨b, hb, fun i v hv => h.valid.getBit_of_bitAt (h.bits i v hv)⟩

/-- Two reallocations and a copy, with chunks that are not cleared. -/
theorem getBit_run_sample :
    let dirty : Nat → BitVec 64 := fun _ => BitVec.allOnes 64
    ∃ b, [BitFieldCall.setBit 0 dirty, .clearBit 70 dirty, .copy dirty, .setBit 5000 dirty,
        .setBit 70 dirty, .clearBit 0 dirty].foldlM BitFieldCall.step {} = some b ∧
      b.getBit 0 = some false ∧ b.getBit 70 = some true ∧ b.getBit 5000 = some true := by
  obtain ⟨b, hb, hbits⟩ := getBit_run [.setBit 0 fun _ => BitVec.allOnes 64,
    .clearBit 70 fun _ => BitVec.allOnes 64, .copy fun _ => BitVec.allOnes 64,
    .setBit 5000 fun _ => BitVec.allOnes 64, .setBit 70 fun _ => BitVec.allOnes 64,
    .clearBit 0 fun _ => BitVec.allOnes 64] (by simp [BitFieldCall.InRange])
  exact ⟨b, hb, hbits 0 false (by decide), hbits 70 true (by decide), hbits 5000 true (by decide)⟩

end Leeloo
