/-
Leeloo.BitFieldMemory — `bit_field` objects that own their buffers.

The objects of a program (`BitFieldWorld`) point into one heap. An
allocation fails or gives an address that is not in use, with arbitrary
chunks there (`Answer`). A deallocation of what is not live, or with
another count than the one allocated, and every access outside a live
buffer, is `undefined`; so is a call on an object that is not there.

Each call acts on the objects as the functions of `BitField` act on
values: the heap stays in order, and no object changes through another
(`step_ends`). A throwing call leaves every object as it was, with one
exception: `copy` frees the buffer before it asks for another one, and an
assignment that fails there leaves a pointer to the freed buffer
(`DanglingAssign`).
-/
import Leeloo.BitField
import Leeloo.Lib.OwnedHeap

namespace Leeloo

open OwnedHeap BitChunks BitField

/-- `memset` of one byte: a chunk of it. -/
def byteChunk (byte : BitVec 8) : BitVec 64 :=
  byte ++ byte ++ byte ++ byte ++ byte ++ byte ++ byte ++ byte

/-- `memset` over all chunks: `clear_all`, `set_all`, `set_all_odd` and
`set_all_even`, on a value. -/
def BitField.fill (byte : BitVec 8) (b : BitField) : BitField :=
  { b with buf := b.buf.map fun chunks => List.replicate chunks.length (byteChunk byte) }

/-- A `bit_field` in memory: the address of its buffer, and `_size`. -/
structure BitFieldObj where
  buf : Option Nat := none
  size : BitVec 64 := 0
  deriving DecidableEq

/-- How a call ends: as it should, by `std::bad_alloc`, or not at all. -/
inductive Outcome (α : Type*) where
  | done (a : α)
  | badAlloc (a : α)
  | undefined

namespace Outcome

variable {α β : Type*}

def ofOption : Option α → Outcome α
  | none => undefined
  | some a => done a

def bind (x : Outcome α) (f : α → Outcome β) (g : α → β) : Outcome β :=
  match x with
  | done a => f a
  | badAlloc a => badAlloc (g a)
  | undefined => undefined

end Outcome

/-- What the allocator answers: nothing, or an address and the chunks that
are there. -/
abbrev Answer : Type := Option (Nat × (Nat → BitVec 64))

namespace BitFieldObj

/-- `allocate(n)`. -/
def allocate (h : Heap (BitVec 64)) (answer : Answer) (n : BitVec 64) :
    Option (Nat × Heap (BitVec 64)) :=
  answer.map fun a => (a.1, Function.update h a.1 (some (BitField.allocate a.2 n)))

/-- `deallocate(p, n)`. -/
def deallocate (h : Heap (BitVec 64)) (p : Nat) (n : BitVec 64) : Option (Heap (BitVec 64)) := do
  let block ← h p
  if block.length = n.toNat then some (Function.update h p none) else none

/-- `memcpy` of `n` chunks. -/
def memcpy (h : Heap (BitVec 64)) (dst src : Nat) (n : BitVec 64) :
    Option (Heap (BitVec 64)) := do
  let target ← h dst
  let source ← h src
  let block ← BitField.memcpy target source n.toNat
  some (Function.update h dst (some block))

/-- `if (_buf) deallocate(_buf, _size)`. -/
def freeBuf (o : BitFieldObj) (h : Heap (BitVec 64)) : Option (Heap (BitVec 64)) :=
  match o.buf with
  | none => some h
  | some p => deallocate h p o.size

/-- `clear_storage`. -/
def clearStorage (o : BitFieldObj) (h : Heap (BitVec 64)) :
    Option (Heap (BitVec 64) × BitFieldObj) := do
  match o.buf with
  | none => some (h, o)
  | some p =>
    let h ← deallocate h p o.size
    some (h, {})

/-- `reserve`. -/
def reserve (o : BitFieldObj) (h : Heap (BitVec 64)) (answer : Answer) (nbits : BitVec 64) :
    Outcome (Heap (BitVec 64) × BitFieldObj) :=
  let reqSize := bitCountToChunkCount nbits
  if reqSize ≤ o.size then .done (h, o)
  else
    match o.buf with
    | none =>
      match allocate h answer reqSize with
      | none => .badAlloc (h, o)
      | some (p, h) => .done (h, ⟨some p, reqSize⟩)
    | some old =>
      let newSize := max (o.size + 64) reqSize
      match allocate h answer newSize with
      | none => .badAlloc (h, o)
      | some (p, h) => .ofOption do
        let h ← memcpy h p old o.size
        let h ← deallocate h old o.size
        some (h, ⟨some p, newSize⟩)

/-- `chunk_at(n) = op(chunk_at(n))`, for the chunk of an index. -/
def changeChunk (o : BitFieldObj) (h : Heap (BitVec 64)) (idx : BitVec 64)
    (op : BitVec 64 → BitVec 64) : Option (Heap (BitVec 64)) := do
  let p ← o.buf
  let block ← h p
  let c ← block[(bitIndexToChunk idx).toNat]?
  some (Function.update h p (some (block.set (bitIndexToChunk idx).toNat (op c))))

/-- `set_bit_fast`. -/
def setBitFast (o : BitFieldObj) (h : Heap (BitVec 64)) (idx : BitVec 64) :
    Option (Heap (BitVec 64)) :=
  o.changeChunk h idx fun c => c ||| 1#64 <<< bitIndexToChunkBit idx

/-- `clear_bit_fast`. -/
def clearBitFast (o : BitFieldObj) (h : Heap (BitVec 64)) (idx : BitVec 64) :
    Option (Heap (BitVec 64)) :=
  o.changeChunk h idx fun c => c &&& ~~~(1#64 <<< bitIndexToChunkBit idx)

/-- `reserve(idx + 1)` with one of the two behind it. -/
def writeBit (fast : BitFieldObj → Heap (BitVec 64) → BitVec 64 → Option (Heap (BitVec 64)))
    (o : BitFieldObj) (h : Heap (BitVec 64)) (answer : Answer) (idx : BitVec 64) :
    Outcome (Heap (BitVec 64) × BitFieldObj) :=
  (o.reserve h answer (idx + 1)).bind
    (fun r => .ofOption ((fast r.2 r.1 idx).map fun h => (h, r.2))) id

/-- `set_bit`. -/
def setBit : BitFieldObj → Heap (BitVec 64) → Answer → BitVec 64 →
    Outcome (Heap (BitVec 64) × BitFieldObj) := writeBit setBitFast

/-- `clear_bit`. -/
def clearBit : BitFieldObj → Heap (BitVec 64) → Answer → BitVec 64 →
    Outcome (Heap (BitVec 64) × BitFieldObj) := writeBit clearBitFast

/-- `get_bit`. -/
def getBit (o : BitFieldObj) (h : Heap (BitVec 64)) (idx : BitVec 64) : Option Bool :=
  if o.size * 64 ≤ idx then some false
  else do
    let p ← o.buf
    let block ← h p
    let c ← block[(bitIndexToChunk idx).toNat]?
    some (decide (c &&& 1#64 <<< bitIndexToChunkBit idx ≠ 0))

/-- `memset` over `_size` chunks, unless there is none. -/
def fill (byte : BitVec 8) (o : BitFieldObj) (h : Heap (BitVec 64)) :
    Option (Heap (BitVec 64)) :=
  match o.buf with
  | none => some h
  | some p =>
    if o.size = 0 then some h
    else do
      let block ← h p
      if o.size.toNat ≤ block.length then
        some (Function.update h p (some
          (List.replicate o.size.toNat (byteChunk byte) ++ block.drop o.size.toNat)))
      else none

/-- `clear_all`. -/
def clearAll : BitFieldObj → Heap (BitVec 64) → Option (Heap (BitVec 64)) := fill 0x00

/-- `set_all`. -/
def setAll : BitFieldObj → Heap (BitVec 64) → Option (Heap (BitVec 64)) := fill 0xFF

/-- `set_all_odd`. -/
def setAllOdd : BitFieldObj → Heap (BitVec 64) → Option (Heap (BitVec 64)) := fill 0xAA

/-- `set_all_even`. -/
def setAllEven : BitFieldObj → Heap (BitVec 64) → Option (Heap (BitVec 64)) := fill 0x55

/-- `copy(o)` into `this`. When the allocation throws, `_buf` keeps the
address that was just freed. -/
def copy (this o : BitFieldObj) (h : Heap (BitVec 64)) (answer : Answer) :
    Outcome (Heap (BitVec 64) × BitFieldObj) :=
  match this.freeBuf h with
  | none => .undefined
  | some h =>
    match allocate h answer o.size with
    | none => .badAlloc (h, this)
    | some (p, h) => .ofOption do
      let h ← match o.buf with
        | none => if o.size = 0 then some h else none
        | some src => memcpy h p src o.size
      some (h, ⟨some p, o.size⟩)

/-- `move(o)` into `this`, which leaves `o` without a buffer. -/
def move (this o : BitFieldObj) (h : Heap (BitVec 64)) :
    Option (Heap (BitVec 64) × BitFieldObj) := do
  let h ← this.freeBuf h
  some (h, ⟨o.buf, o.size⟩)

end BitFieldObj

/-- The objects of a program, by variable, and the heap. -/
structure BitFieldWorld (ι : Type) where
  heap : Heap (BitVec 64) := fun _ => none
  obj : ι → Option BitFieldObj := fun _ => none

/-- A call on the objects. -/
inductive BitFieldOp (ι : Type) where
  | construct (v : ι)
  | constructBits (v : ι) (nbits : BitVec 64)
  | constructCopy (v o : ι)
  | constructMove (v o : ι)
  | assign (v o : ι)
  | assignMove (v o : ι)
  | destroy (v : ι)
  | reserve (v : ι) (nbits : BitVec 64)
  | setBit (v : ι) (idx : BitVec 64)
  | clearBit (v : ι) (idx : BitVec 64)
  | clearStorage (v : ι)
  /-- `clear_all`, `set_all`, `set_all_odd` or `set_all_even`. -/
  | fill (v : ι) (byte : BitVec 8)

namespace BitFieldWorld

variable {ι : Type} [DecidableEq ι]

/-- The world after a change of one object. -/
def put (w : BitFieldWorld ι) (v : ι) (r : Heap (BitVec 64) × BitFieldObj) : BitFieldWorld ι :=
  ⟨r.1, Function.update w.obj v (some r.2)⟩

/-- The world after the end of one object. -/
def erase (w : BitFieldWorld ι) (v : ι) (h : Heap (BitVec 64)) : BitFieldWorld ι :=
  ⟨h, Function.update w.obj v none⟩

/-- A member function that does not throw, on the object of `v`. -/
def call (w : BitFieldWorld ι) (v : ι)
    (f : BitFieldObj → Option (Heap (BitVec 64) × BitFieldObj)) : Outcome (BitFieldWorld ι) :=
  .ofOption ((w.obj v).bind fun o => (f o).map (w.put v))

/-- A member function that may throw, on the object of `v`. -/
def callThrowing (w : BitFieldWorld ι) (v : ι)
    (f : BitFieldObj → Outcome (Heap (BitVec 64) × BitFieldObj)) : Outcome (BitFieldWorld ι) :=
  match w.obj v with
  | none => .undefined
  | some o => (f o).bind (fun r => .done (w.put v r)) (w.put v)

/-- A constructor, which starts from the null pointer. When it throws there
is no object. -/
def constructWith (w : BitFieldWorld ι) (v : ι)
    (f : BitFieldObj → Outcome (Heap (BitVec 64) × BitFieldObj)) : Outcome (BitFieldWorld ι) :=
  if (w.obj v).isSome then .undefined
  else (f {}).bind (fun r => .done (w.put v r)) fun r => w.erase v r.1

/-- The effect of a call; `answer` is that of the allocator, should the call
ask it. -/
def step (w : BitFieldWorld ι) (answer : Answer) : BitFieldOp ι → Outcome (BitFieldWorld ι)
  | .construct v => w.constructWith v fun o => .done (w.heap, o)
  | .constructBits v nbits => w.constructWith v fun o => o.reserve w.heap answer nbits
  | .constructCopy v o =>
    match w.obj o with
    | none => .undefined
    | some source => w.constructWith v fun this => this.copy source w.heap answer
  | .constructMove v o =>
    match w.obj o with
    | none => .undefined
    | some source =>
      (w.constructWith v fun this => .ofOption (this.move source w.heap)).bind
        (fun w => .done (w.put o (w.heap, {}))) id
  | .assign v o =>
    match w.obj o with
    | none => .undefined
    | some source =>
      w.callThrowing v fun this =>
        if v = o then .done (w.heap, this) else this.copy source w.heap answer
  | .assignMove v o =>
    match w.obj o with
    | none => .undefined
    | some source =>
      if v = o then .done w
      else (w.call v fun this => this.move source w.heap).bind
        (fun w => .done (w.put o (w.heap, {}))) id
  | .destroy v => .ofOption ((w.obj v).bind fun o => (o.freeBuf w.heap).map (w.erase v))
  | .reserve v nbits => w.callThrowing v fun o => o.reserve w.heap answer nbits
  | .setBit v idx => w.callThrowing v fun o => o.setBit w.heap answer idx
  | .clearBit v idx => w.callThrowing v fun o => o.clearBit w.heap answer idx
  | .clearStorage v => w.call v fun o => o.clearStorage w.heap
  | .fill v byte => w.call v fun o => (o.fill byte w.heap).map fun h => (h, o)

/-- `get_bit` on the object of `v`. -/
def getBit (w : BitFieldWorld ι) (v : ι) (idx : BitVec 64) : Option Bool :=
  (w.obj v).bind fun o => o.getBit w.heap idx

end BitFieldWorld

/-! ## One object -/

/-- The chunks an allocation finds. -/
def freshOf (answer : Answer) : Nat → BitVec 64 :=
  match answer with
  | none => fun _ => 0
  | some a => a.2

namespace BitFieldObj

/-- The value of an object. -/
def value (o : BitFieldObj) (h : Heap (BitVec 64)) : BitField := ⟨o.buf.bind h, o.size⟩

/-- The heap without the buffer of an object. -/
def freed (o : BitFieldObj) (h : Heap (BitVec 64)) : Heap (BitVec 64) :=
  match o.buf with
  | none => h
  | some p => Function.update h p none

/-- The buffer is live, with `_size` chunks. -/
def Backed (o : BitFieldObj) (h : Heap (BitVec 64)) : Prop :=
  ∀ p, o.buf = some p → ∃ block, h p = some block ∧ block.length = o.size.toNat

/-- How a call changes an object into one of value `b'`: not at all, in its
buffer, with another buffer for the old one, or without a buffer; or it
throws and changes nothing. -/
inductive Change (o : BitFieldObj) (h : Heap (BitVec 64)) (answer : Answer) (b' : BitField) :
    Outcome (Heap (BitVec 64) × BitFieldObj) → Prop
  | same : b' = o.value h → Change o h answer b' (.done (h, o))
  | written {p : Nat} {block : List (BitVec 64)} : o.buf = some p → b' = ⟨some block, o.size⟩ →
      Change o h answer b' (.done (Function.update h p (some block), o))
  | fresh {p : Nat} {fresh : Nat → BitVec 64} {block : List (BitVec 64)} {size : BitVec 64}
      {h' : Heap (BitVec 64)} : answer = some (p, fresh) → b' = ⟨some block, size⟩ →
      h' = Function.update (o.freed h) p (some block) →
      Change o h answer b' (.done (h', ⟨some p, size⟩))
  | null {size : BitVec 64} {h' : Heap (BitVec 64)} : b' = ⟨none, size⟩ → h' = o.freed h →
      Change o h answer b' (.done (h', ⟨none, size⟩))
  | threw : answer = none → Change o h answer b' (.badAlloc (h, o))

variable {o : BitFieldObj} {h : Heap (BitVec 64)} {answer : Answer}

theorem value_of_buf {p : Nat} {block : List (BitVec 64)} (hp : o.buf = some p)
    (hblock : h p = some block) : o.value h = ⟨some block, o.size⟩ := by
  unfold value
  rw [hp, Option.bind_some, hblock]

theorem freed_of_buf {p : Nat} (hp : o.buf = some p) :
    o.freed h = Function.update h p none := by
  unfold freed
  rw [hp]

theorem deallocate_eq {p : Nat} {block : List (BitVec 64)} {n : BitVec 64}
    (hblock : h p = some block) (hlen : block.length = n.toNat) :
    deallocate h p n = some (Function.update h p none) := by
  unfold deallocate
  simp only [hblock, Option.bind_eq_bind, Option.bind_some]
  rw [if_pos hlen]

/-- The destructor, and the first line of `copy` and `move`. -/
theorem Backed.freeBuf_eq (hb : o.Backed h) : o.freeBuf h = some (o.freed h) := by
  unfold freeBuf freed
  cases hp : o.buf with
  | none => rfl
  | some p =>
    obtain ⟨block, hblock, hlen⟩ := hb p hp
    exact deallocate_eq hblock hlen

theorem Backed.clearStorage_change (hb : o.Backed h) :
    ∃ r, o.clearStorage h = some r ∧ o.Change h answer (o.value h).clearStorage (.done r) := by
  unfold BitFieldObj.clearStorage BitField.clearStorage value
  cases hp : o.buf with
  | none => exact ⟨_, rfl, .same (by simp [value, hp])⟩
  | some p =>
    obtain ⟨block, hblock, hlen⟩ := hb p hp
    simp only [deallocate_eq hblock hlen, Option.bind_eq_bind, Option.bind_some, hblock]
    exact ⟨_, rfl, .null rfl (freed_of_buf hp).symm⟩

/-- A block that was just allocated, filled from the old one, which is then
freed. -/
theorem memcpy_deallocate {p old : Nat} {target block result : List (BitVec 64)} {n : BitVec 64}
    (hp : h p = none) (hold : h old = some block) (hlen : block.length = n.toNat)
    (hcopy : BitField.memcpy target block n.toNat = some result) :
    ((memcpy (Function.update h p (some target)) p old n).bind fun h => deallocate h old n) =
      some (Function.update (Function.update h old none) p (some result)) := by
  have hne : old ≠ p := by
    rintro rfl
    rw [hp] at hold
    cases hold
  unfold memcpy
  simp only [Function.update_self, Function.update_of_ne hne, hold, Option.bind_eq_bind,
    Option.bind_some, hcopy, Function.update_idem]
  rw [deallocate_eq (by rw [Function.update_of_ne hne]; exact hold) hlen,
    Function.update_comm hne.symm]

/-- The chunks of an object, where it has a buffer. -/
theorem chunks_value {p : Nat} {block : List (BitVec 64)} (hp : o.buf = some p)
    (hblock : h p = some block) : (o.value h).chunks = block := by
  rw [value_of_buf hp hblock]
  rfl

theorem reserve_change (hb : o.Backed h)
    (hanswer : ∀ p fresh, answer = some (p, fresh) → h p = none) (nbits : BitVec 64) :
    ∀ b', (o.value h).reserve (freshOf answer) nbits = some b' →
      o.Change h answer b' (o.reserve h answer nbits) := by
  intro b' hb'
  unfold BitField.reserve at hb'
  unfold BitFieldObj.reserve
  by_cases hle : bitCountToChunkCount nbits ≤ o.size
  · rw [if_pos (show _ ≤ (o.value h).size from hle)] at hb'
    rw [if_pos hle]
    exact .same (Option.some.inj hb').symm
  · rw [if_neg (show ¬ _ ≤ (o.value h).size from hle)] at hb'
    rw [if_neg hle]
    cases hp : o.buf with
    | none =>
      have hbuf : (o.value h).buf = none := by simp [value, hp]
      rw [hbuf] at hb'
      cases ha : answer with
      | none => exact .threw rfl
      | some a =>
        obtain ⟨p, fresh⟩ := a
        subst ha
        cases hb'
        exact .fresh rfl rfl (by simp [freed, hp, freshOf])
    | some old =>
      obtain ⟨block, hblock, hlen⟩ := hb old hp
      rw [value_of_buf hp hblock] at hb'
      cases ha : answer with
      | none => exact .threw rfl
      | some a =>
        obtain ⟨p, fresh⟩ := a
        subst ha
        obtain ⟨result, hcopy, hb'⟩ := Option.bind_eq_some_iff.mp hb'
        cases hb'
        have hmove : ((memcpy (Function.update h p (some (BitField.allocate fresh
            (max (o.size + 64) (bitCountToChunkCount nbits))))) p old o.size).bind
              fun h => deallocate h old o.size) = _ :=
          memcpy_deallocate (hanswer p fresh rfl) hblock hlen hcopy
        show Change _ _ _ _ (.ofOption ((memcpy _ _ _ _).bind fun h =>
          (deallocate h old o.size).bind fun h => some (h, _)))
        rw [← Option.bind_assoc, hmove]
        exact .fresh rfl rfl (by rw [freed_of_buf hp])

/-- A write into a chunk that the value has. -/
theorem changeChunk_eq {idx : BitVec 64} {op : BitVec 64 → BitVec 64} {b' : BitField}
    (h' : (((o.value h).chunkAt (bitIndexToChunk idx)).bind fun c =>
      some ((o.value h).setChunk (bitIndexToChunk idx) (op c))) = some b') :
    ∃ p block, o.buf = some p ∧
      o.changeChunk h idx op = some (Function.update h p (some block)) ∧
      b' = ⟨some block, o.size⟩ := by
  unfold value BitField.chunkAt BitField.setChunk at h'
  unfold changeChunk
  cases hp : o.buf with
  | none =>
    rw [hp] at h'
    cases h'
  | some p =>
    rw [hp, Option.bind_some] at h'
    cases hblock : h p with
    | none =>
      rw [hblock] at h'
      cases h'
    | some block =>
      simp only [hblock, Option.bind_eq_bind, Option.bind_some, Option.map_some] at h' ⊢
      cases hc : block[(bitIndexToChunk idx).toNat]? with
      | none =>
        rw [hc] at h'
        cases h'
      | some c =>
        rw [hc, Option.bind_some, Option.some.injEq] at h'
        exact ⟨p, _, rfl, rfl, h'.symm⟩

/-- `set_bit` and `clear_bit`: the write goes into the buffer that `reserve`
leaves. -/
theorem writeBit_change
    {fast : BitFieldObj → Heap (BitVec 64) → BitVec 64 → Option (Heap (BitVec 64))}
    {fastValue : BitField → BitVec 64 → Option BitField} {idx : BitVec 64}
    (hfast : ∀ {o : BitFieldObj} {h : Heap (BitVec 64)} {b' : BitField},
      fastValue (o.value h) idx = some b' → ∃ p block, o.buf = some p ∧
        fast o h idx = some (Function.update h p (some block)) ∧ b' = ⟨some block, o.size⟩)
    (hb : o.Backed h) (hanswer : ∀ p fresh, answer = some (p, fresh) → h p = none) {b' : BitField}
    (hb' : (((o.value h).reserve (freshOf answer) (idx + 1)).bind fun b => fastValue b idx) =
      some b') : o.Change h answer b' (writeBit fast o h answer idx) := by
  obtain ⟨b₁, hreserve, hwrite⟩ := Option.bind_eq_some_iff.mp hb'
  have hchange := reserve_change hb hanswer (idx + 1) b₁ hreserve
  unfold writeBit
  generalize o.reserve h answer (idx + 1) = r at hchange
  cases hchange with
  | same hsame =>
    subst hsame
    obtain ⟨p, block, hp, hput, hval⟩ := hfast hwrite
    simp only [Outcome.bind, hput, Option.map_some]
    exact .written hp hval
  | @written p block hp hsame =>
    have hvalue : o.value (Function.update h p (some block)) = ⟨some block, o.size⟩ :=
      value_of_buf hp (Function.update_self ..)
    rw [hsame, ← hvalue] at hwrite
    obtain ⟨p', block', hp', hput, hval⟩ := hfast hwrite
    obtain rfl : p' = p := Option.some.inj (hp'.symm.trans hp)
    simp only [Outcome.bind, hput, Option.map_some, Function.update_idem]
    exact .written hp hval
  | @fresh p fresh block size h₁ ha hsame hh₁ =>
    have hvalue : (⟨some p, size⟩ : BitFieldObj).value h₁ = ⟨some block, size⟩ :=
      value_of_buf rfl (by rw [hh₁, Function.update_self])
    rw [hsame, ← hvalue] at hwrite
    obtain ⟨p', block', hp', hput, hval⟩ := hfast hwrite
    obtain rfl : p' = p := (Option.some.inj hp').symm
    simp only [Outcome.bind, hput, Option.map_some]
    exact .fresh ha hval (by rw [hh₁, Function.update_idem])
  | @null size h₁ hsame hh₁ =>
    have hvalue : (⟨none, size⟩ : BitFieldObj).value h₁ = ⟨none, size⟩ := rfl
    rw [hsame, ← hvalue] at hwrite
    obtain ⟨p, _, hp, _⟩ := hfast hwrite
    cases hp
  | threw ha => exact .threw ha

/-- `memset` over a buffer of `_size` chunks is `memset` over all of it. -/
theorem Backed.fill_change (hb : o.Backed h) (byte : BitVec 8) :
    ∃ h', o.fill byte h = some h' ∧
      o.Change h answer ((o.value h).fill byte) (.done (h', o)) := by
  unfold BitFieldObj.fill BitField.fill
  cases hp : o.buf with
  | none => exact ⟨h, rfl, .same (by simp [value, hp])⟩
  | some p =>
    obtain ⟨block, hblock, hlen⟩ := hb p hp
    rw [value_of_buf hp hblock, Option.map_some, hlen]
    by_cases hsize : o.size = 0
    · have hnil : block = [] := List.eq_nil_of_length_eq_zero (by rw [hlen, hsize]; rfl)
      simp only [if_pos hsize]
      refine ⟨h, rfl, .same ?_⟩
      rw [value_of_buf hp hblock, hnil, hsize]
      rfl
    · simp only [if_neg hsize, hblock, Option.bind_eq_bind, Option.bind_some]
      rw [if_pos (le_of_eq hlen.symm), List.drop_of_length_le (le_of_eq hlen), List.append_nil]
      exact ⟨_, rfl, .written hp rfl⟩

/-- `copy` from another object, which has another buffer. It keeps the
object when it throws, if there was no buffer to free. -/
theorem copy_change {this : BitFieldObj} (hthis : this.Backed h) (hb : o.Backed h)
    (hvalid : (o.value h).Valid) (hother : ∀ p, this.buf = some p → o.buf ≠ some p)
    (hanswer : ∀ p fresh, answer = some (p, fresh) → h p = none)
    (hsafe : answer = none → this.buf = none) {b' : BitField}
    (hb' : (o.value h).copy (freshOf answer) = some b') :
    this.Change h answer b' (this.copy o h answer) := by
  unfold BitFieldObj.copy
  rw [hthis.freeBuf_eq]
  cases ha : answer with
  | none =>
    have hfreed : this.freed h = h := by simp [freed, hsafe ha]
    simp only [allocate, Option.map_none, hfreed]
    exact .threw rfl
  | some a =>
    obtain ⟨p, fresh⟩ := a
    subst ha
    have hp := hanswer p fresh rfl
    obtain ⟨result, hcopy, hb'⟩ := Option.bind_eq_some_iff.mp hb'
    cases hb'
    simp only [allocate, Option.map_some]
    cases hbuf : o.buf with
    | none =>
      have hsize : o.size = 0 := by
        have hlen := hvalid.length
        have hchunks : (o.value h).chunks = [] := by simp [value, hbuf, chunks]
        rw [hchunks] at hlen
        exact BitVec.eq_of_toNat_eq hlen.symm
      have hresult : BitField.allocate fresh o.size = result := by
        simp only [value, hbuf, hsize] at hcopy
        rw [hsize]
        exact Option.some.inj hcopy
      simp only [if_pos hsize, Option.bind_eq_bind, Option.bind_some]
      exact .fresh rfl rfl (by rw [hresult])
    | some src =>
      obtain ⟨block, hblock, hlen⟩ := hb src hbuf
      have hlive : this.freed h src = some block := by
        cases hold : this.buf with
        | none => rw [freed, hold]; exact hblock
        | some old =>
          have hne : src ≠ old := by
            rintro rfl
            exact hother src hold hbuf
          rw [freed_of_buf hold, Function.update_of_ne hne]
          exact hblock
      have hne : src ≠ p := by
        rintro rfl
        rw [hp] at hblock
        cases hblock
      rw [value_of_buf hbuf hblock] at hcopy
      have hmem : memcpy
          (Function.update (this.freed h) p (some (BitField.allocate fresh o.size))) p src o.size =
          some (Function.update (this.freed h) p (some result)) := by
        unfold memcpy
        simp only [Function.update_self, Function.update_of_ne hne, hlive, Option.bind_eq_bind,
          Option.bind_some, Function.update_idem]
        have hcopy' : BitField.memcpy (BitField.allocate fresh o.size) block o.size.toNat =
            some result := hcopy
        rw [hcopy', Option.bind_some]
      simp only [hmem, Option.bind_eq_bind, Option.bind_some]
      exact .fresh rfl rfl rfl

end BitFieldObj

/-! ## All objects -/

/-- Bit fields by variable: the values of the objects that are there. -/
abbrev BitFieldStore (ι : Type) : Type := ι → Option BitField

namespace BitFieldStore

variable {ι : Type} [DecidableEq ι]

/-- A new object, made from an empty one. -/
def construct (s : BitFieldStore ι) (v : ι) (f : BitField → Option BitField) :
    Option (BitFieldStore ι) := do
  guard (s v).isNone
  let b ← f {}
  some (Function.update s v (some b))

/-- A change of one object. -/
def change (s : BitFieldStore ι) (v : ι) (f : BitField → Option BitField) :
    Option (BitFieldStore ι) := do
  let b ← f (← s v)
  some (Function.update s v (some b))

end BitFieldStore

namespace BitFieldOp

variable {ι : Type} [DecidableEq ι]

/-- What a call does to the values, with no heap. -/
def apply (fresh : Nat → BitVec 64) (s : BitFieldStore ι) :
    BitFieldOp ι → Option (BitFieldStore ι)
  | construct v => s.construct v some
  | constructBits v nbits => s.construct v fun b => b.reserve fresh nbits
  | constructCopy v o => do
    let source ← s o
    s.construct v fun _ => source.copy fresh
  | constructMove v o => do
    let source ← s o
    let s ← s.construct v fun _ => some source
    some (Function.update s o (some {}))
  | assign v o => do
    let source ← s o
    s.change v fun b => if v = o then some b else source.copy fresh
  | assignMove v o => do
    let source ← s o
    if v = o then some s
    else
      let s ← s.change v fun _ => some source
      some (Function.update s o (some {}))
  | destroy v => do
    let _ ← s v
    some (Function.update s v none)
  | reserve v nbits => s.change v fun b => b.reserve fresh nbits
  | setBit v idx => s.change v fun b => b.setBit fresh idx
  | clearBit v idx => s.change v fun b => b.clearBit fresh idx
  | clearStorage v => s.change v fun b => some b.clearStorage
  | fill v byte => s.change v fun b => some (b.fill byte)

/-- A call that a program may make: on objects that are there, or on one
that is not there yet, with indices below `2^63`. -/
def Legal (s : BitFieldStore ι) : BitFieldOp ι → Prop
  | construct v => s v = none
  | constructBits v nbits => s v = none ∧ nbits.toNat ≤ 2 ^ 63
  | constructCopy v o | constructMove v o => s v = none ∧ (s o).isSome
  | assign v o | assignMove v o => (s v).isSome ∧ (s o).isSome
  | destroy v | clearStorage v | fill v _ => (s v).isSome
  | reserve v nbits => (s v).isSome ∧ nbits.toNat ≤ 2 ^ 63
  | setBit v idx | clearBit v idx => (s v).isSome ∧ idx.toNat < 2 ^ 63

/-- What each index of each object was last written with, after the call on
the values `s`: copies and moves carry it along, and `memset` writes every
bit of the buffer. -/
def written (s : BitFieldStore ι) (m : ι → BitVec 64 → Option Bool) :
    BitFieldOp ι → ι → BitVec 64 → Option Bool
  | construct v | constructBits v _ => Function.update m v fun _ => none
  | constructCopy v o | assign v o => Function.update m v (m o)
  | constructMove v o => Function.update (Function.update m v (m o)) o fun _ => none
  | assignMove v o =>
    if v = o then m else Function.update (Function.update m v (m o)) o fun _ => none
  | destroy _ | reserve _ _ => m
  | setBit v idx => Function.update m v fun i => if i = idx then some true else m v i
  | clearBit v idx => Function.update m v fun i => if i = idx then some false else m v i
  | clearStorage v => Function.update m v fun _ => none
  | fill v byte => Function.update m v fun i =>
    if (s v).any fun b => decide (i < b.sizeBits) then some (byte.getLsbD (i.toNat % 8)) else m v i

end BitFieldOp

/-! ## The values and their bits -/

theorem getLsbD_byteChunk (byte : BitVec 8) {k : Nat} (hk : k < 64) :
    (byteChunk byte).getLsbD k = byte.getLsbD (k % 8) := by
  unfold byteChunk
  simp only [BitVec.getLsbD_append]
  split_ifs
  all_goals
    congr 1
    omega

namespace BitField

variable {b : BitField} {m : BitVec 64 → Option Bool}

theorem holds_empty : Holds {} fun _ => none := ⟨valid_empty, by nofun⟩

/-- `memset` writes the bit of its byte over each bit of the buffer. -/
theorem Holds.fill (h : Holds b m) (byte : BitVec 8) :
    Holds (b.fill byte) fun i =>
      if i < b.sizeBits then some (byte.getLsbD (i.toNat % 8)) else m i := by
  have hchunks : (b.fill byte).chunks = List.replicate b.chunks.length (byteChunk byte) := by
    unfold BitField.fill chunks
    cases b.buf <;> rfl
  refine ⟨⟨?_, h.valid.size_lt⟩, fun i v hv => ?_⟩
  · rw [hchunks, List.length_replicate]
    exact h.valid.length
  · have hbits := h.valid.toNat_sizeBits
    have hlen := h.valid.length
    by_cases hin : i < b.sizeBits
    · have hlt : i.toNat < b.sizeBits.toNat := hin
      rw [if_pos hin, Option.some.injEq] at hv
      have hget : (List.replicate b.chunks.length (byteChunk byte))[i.toNat / 64]? =
          some (byteChunk byte) := by
        rw [List.getElem?_replicate, if_pos (by omega)]
      rw [hchunks, bitAt_of_getElem? hget, getLsbD_byteChunk byte (Nat.mod_lt _ (by omega)),
        Nat.mod_mod_of_dvd _ (by decide), hv]
    · -- what was written is in the buffer
      rw [if_neg hin] at hv
      have hlt := lt_of_bitAt (h.bits i v hv)
      refine absurd ?_ hin
      rw [BitVec.lt_def]
      omega

end BitField

namespace BitFieldStore

variable {ι : Type} [DecidableEq ι] {s : BitFieldStore ι} {m : ι → BitVec 64 → Option Bool}

/-- Each object stores its map of written bits. -/
def Holds (s : BitFieldStore ι) (m : ι → BitVec 64 → Option Bool) : Prop :=
  ∀ v b, s v = some b → b.Holds (m v)

theorem Holds.update (h : s.Holds m) (v : ι) {b : BitField} {bits : BitVec 64 → Option Bool}
    (hb : b.Holds bits) :
    Holds (Function.update s v (some b)) (Function.update m v bits) := by
  intro v' b' hv'
  by_cases hvv : v' = v
  · subst hvv
    rw [Function.update_self] at hv' ⊢
    rwa [← Option.some.inj hv']
  · rw [Function.update_of_ne hvv] at hv' ⊢
    exact h v' b' hv'

theorem construct_eq_some {v : ι} {f : BitField → Option BitField} {s' : BitFieldStore ι}
    (h : s.construct v f = some s') :
    s v = none ∧ ∃ b, f {} = some b ∧ s' = Function.update s v (some b) := by
  unfold BitFieldStore.construct at h
  cases hv : s v with
  | some b =>
    rw [hv] at h
    cases h
  | none =>
    rw [hv] at h
    obtain ⟨b, hf, hs'⟩ := Option.bind_eq_some_iff (x := f {}).mp h
    exact ⟨rfl, b, hf, (Option.some.inj hs').symm⟩

theorem change_eq_some {v : ι} {f : BitField → Option BitField} {s' : BitFieldStore ι}
    (h : s.change v f = some s') :
    ∃ b b', s v = some b ∧ f b = some b' ∧ s' = Function.update s v (some b') := by
  obtain ⟨b, hb, h⟩ := Option.bind_eq_some_iff.mp h
  obtain ⟨b', hf, hs'⟩ := Option.bind_eq_some_iff.mp h
  exact ⟨b, b', hb, hf, (Option.some.inj hs').symm⟩

theorem Holds.construct (h : s.Holds m) {v : ι} (hv : s v = none)
    {f : BitField → Option BitField} {bits : BitVec 64 → Option Bool}
    (hf : ∃ b, f {} = some b ∧ b.Holds bits) :
    ∃ s', s.construct v f = some s' ∧ Holds s' (Function.update m v bits) := by
  obtain ⟨b, hfb, hb⟩ := hf
  refine ⟨_, ?_, h.update v hb⟩
  unfold BitFieldStore.construct
  rw [hv]
  show (f {}).bind _ = _
  rw [hfb]
  rfl

theorem Holds.change (h : s.Holds m) {v : ι} (hv : (s v).isSome)
    {f : BitField → Option BitField} {bits : BitVec 64 → Option Bool}
    (hf : ∀ b, s v = some b → b.Holds (m v) → ∃ b', f b = some b' ∧ b'.Holds bits) :
    ∃ s', s.change v f = some s' ∧ Holds s' (Function.update m v bits) := by
  obtain ⟨b, hb⟩ := Option.isSome_iff_exists.mp hv
  obtain ⟨b', hfb, hb'⟩ := hf b hb (h v b hb)
  refine ⟨_, ?_, h.update v hb'⟩
  simp [BitFieldStore.change, hb, hfb]

end BitFieldStore

namespace BitFieldOp

variable {ι : Type} [DecidableEq ι] {s : BitFieldStore ι} {m : ι → BitVec 64 → Option Bool}

/-- **One call on the values** ends, and each object stores what is written
in it after the call. -/
theorem apply_holds (h : s.Holds m) (op : BitFieldOp ι) (hop : op.Legal s)
    (fresh : Nat → BitVec 64) :
    ∃ s', op.apply fresh s = some s' ∧ s'.Holds (op.written s m) := by
  cases op with
  | construct v => exact h.construct hop ⟨_, rfl, holds_empty⟩
  | constructBits v nbits =>
    exact h.construct hop.1 (f := fun b => b.reserve fresh nbits)
      (BitFieldCall.step_holds holds_empty (c := .reserve nbits fresh) hop.2)
  | constructCopy v o =>
    obtain ⟨source, ho⟩ := Option.isSome_iff_exists.mp hop.2
    simp only [apply, ho, Option.bind_eq_bind, Option.bind_some]
    exact h.construct hop.1 (f := fun _ => source.copy fresh)
      (BitFieldCall.step_holds (h o source ho) (c := .copy fresh) trivial)
  | constructMove v o =>
    obtain ⟨source, ho⟩ := Option.isSome_iff_exists.mp hop.2
    obtain ⟨s', hs', hh⟩ := h.construct hop.1 (f := fun _ => some source) ⟨_, rfl, h o source ho⟩
    refine ⟨_, ?_, hh.update o holds_empty⟩
    simp only [apply, ho, hs', Option.bind_eq_bind, Option.bind_some]
  | assign v o =>
    obtain ⟨source, ho⟩ := Option.isSome_iff_exists.mp hop.2
    simp only [apply, ho, Option.bind_eq_bind, Option.bind_some]
    refine h.change hop.1 (f := fun b => if v = o then some b else source.copy fresh)
      fun b _ hb => ?_
    by_cases hvo : v = o
    · exact ⟨b, if_pos hvo, hvo ▸ hb⟩
    · rw [if_neg hvo]
      exact BitFieldCall.step_holds (h o source ho) (c := .copy fresh) trivial
  | assignMove v o =>
    obtain ⟨source, ho⟩ := Option.isSome_iff_exists.mp hop.2
    by_cases hvo : v = o
    · refine ⟨s, ?_, ?_⟩
      · simp only [apply, ho, if_pos hvo, Option.bind_eq_bind, Option.bind_some]
      · simp only [written, if_pos hvo]
        exact h
    · obtain ⟨s', hs', hh⟩ := h.change hop.1 (f := fun _ => some source)
        fun _ _ _ => ⟨_, rfl, h o source ho⟩
      refine ⟨Function.update s' o (some {}), ?_, ?_⟩
      · simp only [apply, ho, if_neg hvo, hs', Option.bind_eq_bind, Option.bind_some]
      · simp only [written, if_neg hvo]
        exact hh.update o holds_empty
  | destroy v =>
    obtain ⟨b, hb⟩ := Option.isSome_iff_exists.mp hop
    refine ⟨Function.update s v none, by simp [apply, hb], fun v' b' hv' => ?_⟩
    by_cases hvv : v' = v
    · rw [hvv, Function.update_self] at hv'
      cases hv'
    · rw [Function.update_of_ne hvv] at hv'
      exact h v' b' hv'
  | reserve v nbits =>
    obtain ⟨s', hs', hh⟩ := h.change hop.1 fun b _ hb =>
      BitFieldCall.step_holds hb (c := .reserve nbits fresh) hop.2
    refine ⟨s', hs', ?_⟩
    have hkeep : (BitFieldCall.reserve nbits fresh).written (m v) = m v := rfl
    rwa [hkeep, Function.update_eq_self] at hh
  | setBit v idx =>
    exact h.change hop.1 fun b _ hb => BitFieldCall.step_holds hb (c := .setBit idx fresh) hop.2
  | clearBit v idx =>
    exact h.change hop.1 fun b _ hb => BitFieldCall.step_holds hb (c := .clearBit idx fresh) hop.2
  | clearStorage v =>
    exact h.change hop fun b _ hb => BitFieldCall.step_holds hb (c := .clearStorage) trivial
  | fill v byte =>
    refine h.change hop fun b hsv hb => ⟨_, rfl, ?_⟩
    have hfill := hb.fill byte
    simpa only [hsv, Option.any_some, decide_eq_true_eq] using hfill

end BitFieldOp

/-! ## One call -/

namespace BitFieldWorld

variable {ι : Type} {w : BitFieldWorld ι} {answer : Answer}

/-- The address of the buffer of a variable. -/
def own (w : BitFieldWorld ι) (v : ι) : Option Nat := (w.obj v).bind BitFieldObj.buf

/-- The values of the objects. -/
def value (w : BitFieldWorld ι) : BitFieldStore ι := fun v =>
  (w.obj v).map fun o => o.value w.heap

/-- The heap is in order, and each object is valid. -/
structure InOrder (w : BitFieldWorld ι) : Prop where
  owned : Owned w.heap w.own
  valid : ∀ v b, w.value v = some b → b.Valid

/-- The allocator gives no address that is in use. -/
def AnswerOk (w : BitFieldWorld ι) (answer : Answer) : Prop :=
  ∀ p fresh, answer = some (p, fresh) → w.heap p = none

/-- How a call ends: with the values `s'` and a heap in order, or with
`std::bad_alloc` and no change. -/
inductive Ends (w : BitFieldWorld ι) (answer : Answer) (s' : BitFieldStore ι) :
    Outcome (BitFieldWorld ι) → Prop
  | done {w' : BitFieldWorld ι} : Owned w'.heap w'.own → w'.value = s' →
      Ends w answer s' (.done w')
  | threw : answer = none → Ends w answer s' (.badAlloc w)

theorem inOrder_empty : InOrder ({} : BitFieldWorld ι) := ⟨owned_empty, by nofun⟩

theorem own_of_obj {v : ι} {o : BitFieldObj} (ho : w.obj v = some o) : w.own v = o.buf := by
  unfold own
  rw [ho]
  rfl

theorem own_of_none {v : ι} (ho : w.obj v = none) : w.own v = none := by
  unfold own
  rw [ho]
  rfl

theorem value_of_obj {v : ι} {o : BitFieldObj} (ho : w.obj v = some o) :
    w.value v = some (o.value w.heap) := by
  unfold value
  rw [ho]
  rfl

theorem obj_of_value {v : ι} {b : BitField} (hb : w.value v = some b) :
    ∃ o, w.obj v = some o ∧ o.value w.heap = b := Option.map_eq_some_iff.mp hb

/-- What owns a buffer is there. -/
theorem isSome_value {v : ι} {p : Nat} (hp : w.own v = some p) : (w.value v).isSome := by
  obtain ⟨o, ho, _⟩ := Option.bind_eq_some_iff.mp hp
  rw [value_of_obj ho]
  rfl

theorem obj_none {v : ι} (hv : w.value v = none) : w.obj v = none := Option.map_eq_none_iff.mp hv

/-- The value of a variable, by what it holds on the heap. -/
theorem value_eq (w : BitFieldWorld ι) (v : ι) :
    w.value v = (w.obj v).map fun o => ⟨contents w.heap w.own v, o.size⟩ := by
  cases ho : w.obj v with
  | none => rw [value, ho]; rfl
  | some o => rw [value_of_obj ho, contents, own_of_obj ho]; rfl

/-- An object frees the buffer of its variable. -/
theorem freed_eq_release {v : ι} {o : BitFieldObj} (hv : w.own v = o.buf) :
    o.freed w.heap = release w.heap w.own v := by
  cases hbuf : o.buf with
  | none =>
    rw [release_of_none (hv.trans hbuf)]
    unfold BitFieldObj.freed
    rw [hbuf]
  | some p => rw [release_of_own (hv.trans hbuf), BitFieldObj.freed_of_buf hbuf]

theorem InOrder.backed (hw : w.InOrder) {v : ι} {o : BitFieldObj} (ho : w.obj v = some o) :
    o.Backed w.heap := by
  intro p hp
  obtain ⟨block, hblock⟩ := hw.owned.live v p ((own_of_obj ho).trans hp)
  have hvalid := hw.valid v _ (value_of_obj ho)
  refine ⟨block, hblock, ?_⟩
  rw [← BitFieldObj.chunks_value hp hblock]
  exact hvalid.length

variable [DecidableEq ι]

theorem own_put (w : BitFieldWorld ι) (v : ι) (r : Heap (BitVec 64) × BitFieldObj) :
    (w.put v r).own = Function.update w.own v r.2.buf := by
  funext v'
  unfold own put
  by_cases hvv : v' = v
  · subst hvv
    simp only [Function.update_self, Option.bind_some]
  · simp only [Function.update_of_ne hvv]

theorem own_erase (w : BitFieldWorld ι) (v : ι) (h : Heap (BitVec 64)) :
    (w.erase v h).own = Function.update w.own v none := by
  funext v'
  unfold own erase
  by_cases hvv : v' = v
  · subst hvv
    simp only [Function.update_self, Option.bind_none]
  · simp only [Function.update_of_ne hvv]

/-- One value changes when the heap keeps what the others hold. -/
theorem value_put {v : ι} {r : Heap (BitVec 64) × BitFieldObj} {c : Option (List (BitVec 64))}
    (hc : contents r.1 (Function.update w.own v r.2.buf) =
      Function.update (contents w.heap w.own) v c) :
    (w.put v r).value = Function.update w.value v (some ⟨c, r.2.size⟩) := by
  have hcontents : contents (w.put v r).heap (w.put v r).own = _ :=
    (congrArg (contents r.1) (own_put w v r)).trans hc
  funext v'
  rw [value_eq, hcontents]
  by_cases hvv : v' = v
  · subst hvv
    simp only [put, Function.update_self, Option.map_some]
  · simp only [put, Function.update_of_ne hvv]
    exact (value_eq w v').symm

theorem value_erase {v : ι} {h : Heap (BitVec 64)}
    (hc : contents h (Function.update w.own v none) =
      Function.update (contents w.heap w.own) v none) :
    (w.erase v h).value = Function.update w.value v none := by
  have hcontents : contents (w.erase v h).heap (w.erase v h).own = _ :=
    (congrArg (contents h) (own_erase w v h)).trans hc
  funext v'
  rw [value_eq, hcontents]
  by_cases hvv : v' = v
  · subst hvv
    simp only [erase, Function.update_self, Option.map_none]
  · simp only [erase, Function.update_of_ne hvv]
    exact (value_eq w v').symm

/-- The heap after the change of one object, or of one that is new. -/
theorem InOrder.put (hw : w.InOrder) (ha : w.AnswerOk answer) {v : ι} {o : BitFieldObj}
    (hv : w.own v = o.buf) {b' : BitField} {r : Heap (BitVec 64) × BitFieldObj}
    (hc : o.Change w.heap answer b' (.done r)) :
    Owned (w.put v r).heap (w.put v r).own ∧
      (w.put v r).value = Function.update w.value v (some b') := by
  have hfreed := freed_eq_release hv
  rw [own_put]
  generalize hr : Outcome.done r = out at hc
  cases hc with
  | same hb' =>
    cases hr
    rw [hb', ← hv, Function.update_eq_self]
    refine ⟨hw.owned, value_put ?_⟩
    rw [← hv, Function.update_eq_self]
    exact (Function.update_eq_self v _).symm
  | @written p block hp hb' =>
    cases hr
    have hown := hv.trans hp
    rw [hb', ← hv, Function.update_eq_self]
    refine ⟨hw.owned.write hown block, value_put ?_⟩
    rw [← hv, Function.update_eq_self]
    exact hw.owned.contents_write hown block
  | @fresh p fresh block size h' hanswer hb' hh' =>
    cases hr
    have hnone : release w.heap w.own v p = none := release_eq_none (ha p fresh hanswer)
    have hreleased := hw.owned.release v
    have hacquired : Owned (Function.update (release w.heap w.own v) p (some block)) _ :=
      hreleased.acquire (Function.update_self ..) hnone
    have hcontents : contents (Function.update (release w.heap w.own v) p (some block)) _ = _ :=
      hreleased.contents_acquire (v := v) hnone
    rw [Function.update_idem, ← hfreed, ← hh'] at hacquired hcontents
    refine ⟨hacquired, ?_⟩
    rw [hb']
    refine value_put (hcontents.trans ?_)
    rw [hfreed, hw.owned.contents_release, Function.update_idem]
  | @null size h' hb' hh' =>
    cases hr
    rw [hb', hh', hfreed]
    exact ⟨hw.owned.release v, value_put (hw.owned.contents_release v)⟩
  | threw _ => cases hr

/-- A call on one object that changes it into one of value `b'`. -/
theorem InOrder.callThrowing (hw : w.InOrder) (ha : w.AnswerOk answer) {v : ι} {o : BitFieldObj}
    (ho : w.obj v = some o) {f : BitFieldObj → Outcome (Heap (BitVec 64) × BitFieldObj)}
    {b' : BitField} (hc : o.Change w.heap answer b' (f o)) :
    Ends w answer (Function.update w.value v (some b')) (w.callThrowing v f) := by
  unfold BitFieldWorld.callThrowing
  rw [ho]
  show Ends w answer _ ((f o).bind _ _)
  generalize f o = r at hc
  cases r with
  | done r =>
    obtain ⟨howned, hvalue⟩ := hw.put ha (own_of_obj ho) hc
    exact .done howned hvalue
  | badAlloc r =>
    cases hc with
    | threw hanswer =>
      have hsame : w.put v (w.heap, o) = w := by
        unfold BitFieldWorld.put
        rw [← ho, Function.update_eq_self]
      show Ends w answer _ (.badAlloc (w.put v (w.heap, o)))
      rw [hsame]
      exact .threw hanswer
  | undefined => cases hc

theorem InOrder.call (hw : w.InOrder) (ha : w.AnswerOk answer) {v : ι} {o : BitFieldObj}
    (ho : w.obj v = some o) {f : BitFieldObj → Option (Heap (BitVec 64) × BitFieldObj)}
    {b' : BitField} {r : Heap (BitVec 64) × BitFieldObj} (hf : f o = some r)
    (hc : o.Change w.heap answer b' (.done r)) :
    Ends w answer (Function.update w.value v (some b')) (w.call v f) := by
  obtain ⟨howned, hvalue⟩ := hw.put ha (own_of_obj ho) hc
  unfold BitFieldWorld.call
  rw [ho, Option.bind_some, hf]
  exact .done howned hvalue

/-- A constructor makes an object from one without a buffer. -/
theorem InOrder.constructWith (hw : w.InOrder) (ha : w.AnswerOk answer) {v : ι}
    (hv : w.value v = none) {f : BitFieldObj → Outcome (Heap (BitVec 64) × BitFieldObj)}
    {b' : BitField} (hc : ({} : BitFieldObj).Change w.heap answer b' (f {})) :
    Ends w answer (Function.update w.value v (some b')) (w.constructWith v f) := by
  have hobj := obj_none hv
  unfold BitFieldWorld.constructWith
  rw [hobj, Option.isSome_none, if_neg (by decide)]
  generalize f {} = r at hc
  cases r with
  | done r =>
    obtain ⟨howned, hvalue⟩ := hw.put ha (own_of_none hobj) hc
    exact .done howned hvalue
  | badAlloc r =>
    cases hc with
    | threw hanswer =>
      have hsame : w.erase v w.heap = w := by
        unfold BitFieldWorld.erase
        rw [← hobj, Function.update_eq_self]
      show Ends w answer _ (.badAlloc (w.erase v w.heap))
      rw [hsame]
      exact .threw hanswer
  | undefined => cases hc

/-- The buffer of `o` goes to `v`, whose own buffer is freed. -/
theorem InOrder.move (hw : w.InOrder) {v o : ι} (hvo : v ≠ o) {this source : BitFieldObj}
    (hthis : this.Backed w.heap) (hv : w.own v = this.buf) (ho : w.obj o = some source) :
    ∃ r, this.move source w.heap = some r ∧
      Owned ((w.put v r).put o (r.1, {})).heap ((w.put v r).put o (r.1, {})).own ∧
      ((w.put v r).put o (r.1, {})).value =
        Function.update (Function.update w.value v (some (source.value w.heap))) o (some {}) := by
  have hfreed := freed_eq_release hv
  refine ⟨(release w.heap w.own v, ⟨source.buf, source.size⟩), ?_, ?_, ?_⟩
  · unfold BitFieldObj.move
    rw [hthis.freeBuf_eq, hfreed]
    rfl
  · have hreleased := hw.owned.release v
    have htransfer := hreleased.transfer (o := o) (Function.update_self v none w.own)
    rw [Function.update_of_ne hvo.symm, Function.update_idem, own_of_obj ho] at htransfer
    rw [own_put, own_put]
    exact htransfer
  · have hcontents : contents (release w.heap w.own v) (Function.update w.own v source.buf) =
        Function.update (contents w.heap w.own) v (contents w.heap w.own o) := by
      have hkeep : source.buf.bind (release w.heap w.own v) = contents w.heap w.own o := by
        have hrest := congrFun (hw.owned.contents_release v) o
        rw [Function.update_of_ne hvo.symm] at hrest
        rw [← hrest, contents, Function.update_of_ne hvo.symm, own_of_obj ho]
      have htwice : Function.update w.own v source.buf =
          Function.update (Function.update w.own v none) v source.buf :=
        (Function.update_idem ..).symm
      rw [htwice, contents_update, hw.owned.contents_release, Function.update_idem, hkeep]
    rw [value_put (contents_update none), value_put hcontents]
    have hsource : source.value w.heap = ⟨contents w.heap w.own o, source.size⟩ := by
      rw [contents, own_of_obj ho]
      rfl
    rw [hsource]
    rfl

/-- An assignment of another object that throws, into an object with a
buffer. -/
def DanglingAssign (w : BitFieldWorld ι) (answer : Answer) : BitFieldOp ι → Prop
  | .assign v o => v ≠ o ∧ answer = none ∧ (w.own v).isSome
  | _ => False

section Calls

variable {s' : BitFieldStore ι}

/-- A call that makes an object acts as on values when what it makes from the
null pointer does. -/
theorem InOrder.of_construct (hw : w.InOrder) (ha : w.AnswerOk answer) {v : ι}
    {f : BitField → Option BitField} (hs' : w.value.construct v f = some s')
    {g : BitFieldObj → Outcome (Heap (BitVec 64) × BitFieldObj)}
    (hc : ∀ b, f {} = some b → ({} : BitFieldObj).Change w.heap answer b (g {})) :
    Ends w answer s' (w.constructWith v g) := by
  obtain ⟨hv, b, hb, rfl⟩ := BitFieldStore.construct_eq_some hs'
  exact hw.constructWith ha hv (hc b hb)

/-- A call that may throw, on one object. -/
theorem InOrder.of_change (hw : w.InOrder) (ha : w.AnswerOk answer) {v : ι}
    {f : BitField → Option BitField} (hs' : w.value.change v f = some s')
    {g : BitFieldObj → Outcome (Heap (BitVec 64) × BitFieldObj)}
    (hc : ∀ o b', w.obj v = some o → f (o.value w.heap) = some b' →
      o.Change w.heap answer b' (g o)) :
    Ends w answer s' (w.callThrowing v g) := by
  obtain ⟨b, b', hb, hf, rfl⟩ := BitFieldStore.change_eq_some hs'
  obtain ⟨o, hobj, rfl⟩ := obj_of_value hb
  exact hw.callThrowing ha hobj (hc o b' hobj hf)

/-- A call that does not throw, on one object. -/
theorem InOrder.of_call (hw : w.InOrder) (ha : w.AnswerOk answer) {v : ι}
    {f : BitField → BitField} (hs' : (w.value.change v fun b => some (f b)) = some s')
    {g : BitFieldObj → Option (Heap (BitVec 64) × BitFieldObj)}
    (hc : ∀ o, w.obj v = some o →
      ∃ r, g o = some r ∧ o.Change w.heap answer (f (o.value w.heap)) (.done r)) :
    Ends w answer s' (w.call v g) := by
  obtain ⟨b, b', hb, hf, rfl⟩ := BitFieldStore.change_eq_some hs'
  obtain ⟨o, hobj, rfl⟩ := obj_of_value hb
  obtain ⟨r, hr, hchange⟩ := hc o hobj
  cases hf
  exact hw.call ha hobj hr hchange

theorem construct_ends (hw : w.InOrder) (ha : w.AnswerOk answer) {v : ι}
    (hs' : (BitFieldOp.construct v).apply (freshOf answer) w.value = some s') :
    Ends w answer s' (w.step answer (.construct v)) :=
  hw.of_construct ha hs' (g := fun o => .done (w.heap, o))
    fun _ hb => .same (Option.some.inj hb).symm

theorem constructBits_ends (hw : w.InOrder) (ha : w.AnswerOk answer) {v : ι} {nbits : BitVec 64}
    (hs' : (BitFieldOp.constructBits v nbits).apply (freshOf answer) w.value = some s') :
    Ends w answer s' (w.step answer (.constructBits v nbits)) :=
  hw.of_construct ha (f := fun b => b.reserve (freshOf answer) nbits) hs'
    (g := fun o => o.reserve w.heap answer nbits)
    fun b hb => BitFieldObj.reserve_change (o := {}) (by nofun) ha nbits b hb

theorem constructCopy_ends (hw : w.InOrder) (ha : w.AnswerOk answer) {v o : ι}
    (hs' : (BitFieldOp.constructCopy v o).apply (freshOf answer) w.value = some s') :
    Ends w answer s' (w.step answer (.constructCopy v o)) := by
  obtain ⟨source, ho, hs'⟩ := Option.bind_eq_some_iff.mp hs'
  obtain ⟨src, hobj, rfl⟩ := obj_of_value ho
  simp only [step, hobj]
  exact hw.of_construct ha hs' fun b hb => BitFieldObj.copy_change (by nofun) (hw.backed hobj)
    (hw.valid o _ ho) (by nofun) ha (fun _ => rfl) hb

theorem constructMove_ends (hw : w.InOrder) {v o : ι}
    (hs' : (BitFieldOp.constructMove v o).apply (freshOf answer) w.value = some s') :
    Ends w answer s' (w.step answer (.constructMove v o)) := by
  obtain ⟨source, ho, hs'⟩ := Option.bind_eq_some_iff.mp hs'
  obtain ⟨s₁, hs₁, hs'⟩ := Option.bind_eq_some_iff.mp hs'
  obtain ⟨hv, b, hb, rfl⟩ := BitFieldStore.construct_eq_some hs₁
  obtain ⟨src, hobj, rfl⟩ := obj_of_value ho
  cases hb
  cases hs'
  have hvo : v ≠ o := by
    rintro rfl
    rw [hv] at ho
    cases ho
  have hnone := obj_none hv
  have hnull : BitFieldObj.Backed {} w.heap := by nofun
  obtain ⟨r, hr, howned, hvalue⟩ := hw.move hvo hnull (own_of_none hnone) hobj
  simp only [step, hobj, BitFieldWorld.constructWith, hnone, Option.isSome_none]
  rw [hr]
  exact .done howned hvalue

theorem assign_ends (hw : w.InOrder) (ha : w.AnswerOk answer) {v o : ι}
    (hsafe : ¬ w.DanglingAssign answer (.assign v o))
    (hs' : (BitFieldOp.assign v o).apply (freshOf answer) w.value = some s') :
    Ends w answer s' (w.step answer (.assign v o)) := by
  obtain ⟨source, ho, hs'⟩ := Option.bind_eq_some_iff.mp hs'
  obtain ⟨src, hobj, rfl⟩ := obj_of_value ho
  simp only [step, hobj]
  refine hw.of_change ha hs' fun this b' hthis hf => ?_
  by_cases hvo : v = o
  · rw [if_pos hvo] at hf ⊢
    exact .same (Option.some.inj hf).symm
  · rw [if_neg hvo] at hf ⊢
    refine BitFieldObj.copy_change (hw.backed hthis) (hw.backed hobj) (hw.valid o _ ho)
      (fun p hp hsrc => hvo ?_) ha (fun hnone => ?_) hf
    · exact hw.owned.unique v o p ((own_of_obj hthis).trans hp) ((own_of_obj hobj).trans hsrc)
    · by_contra hbuf
      refine hsafe ⟨hvo, hnone, ?_⟩
      rw [own_of_obj hthis]
      exact Option.isSome_iff_ne_none.mpr hbuf

theorem assignMove_ends (hw : w.InOrder) {v o : ι}
    (hs' : (BitFieldOp.assignMove v o).apply (freshOf answer) w.value = some s') :
    Ends w answer s' (w.step answer (.assignMove v o)) := by
  obtain ⟨source, ho, hs'⟩ := Option.bind_eq_some_iff.mp hs'
  obtain ⟨src, hobj, rfl⟩ := obj_of_value ho
  simp only [step, hobj]
  by_cases hvo : v = o
  · rw [if_pos hvo] at hs' ⊢
    cases hs'
    exact .done hw.owned rfl
  · rw [if_neg hvo] at hs' ⊢
    obtain ⟨s₁, hs₁, hs'⟩ := Option.bind_eq_some_iff.mp hs'
    obtain ⟨b, b', hb, hf, rfl⟩ := BitFieldStore.change_eq_some hs₁
    obtain ⟨this, hthis, rfl⟩ := obj_of_value hb
    cases hf
    cases hs'
    obtain ⟨r, hr, howned, hvalue⟩ := hw.move hvo (hw.backed hthis) (own_of_obj hthis) hobj
    simp only [BitFieldWorld.call, hthis, Option.bind_some, hr, Option.map_some]
    exact .done howned hvalue

theorem destroy_ends (hw : w.InOrder) {v : ι}
    (hs' : (BitFieldOp.destroy v).apply (freshOf answer) w.value = some s') :
    Ends w answer s' (w.step answer (.destroy v)) := by
  obtain ⟨b, hb, hs'⟩ := Option.bind_eq_some_iff.mp hs'
  obtain ⟨o, hobj, rfl⟩ := obj_of_value hb
  cases hs'
  have hfreed := freed_eq_release (own_of_obj hobj)
  simp only [step, hobj, Option.bind_some, (hw.backed hobj).freeBuf_eq, Option.map_some, hfreed]
  refine .done ?_ (value_erase (hw.owned.contents_release v))
  rw [own_erase]
  exact hw.owned.release v

theorem reserve_ends (hw : w.InOrder) (ha : w.AnswerOk answer) {v : ι} {nbits : BitVec 64}
    (hs' : (BitFieldOp.reserve v nbits).apply (freshOf answer) w.value = some s') :
    Ends w answer s' (w.step answer (.reserve v nbits)) :=
  hw.of_change ha (f := fun b => b.reserve (freshOf answer) nbits) hs' fun _ b' hobj hf =>
    BitFieldObj.reserve_change (hw.backed hobj) ha nbits b' hf

theorem setBit_ends (hw : w.InOrder) (ha : w.AnswerOk answer) {v : ι} {idx : BitVec 64}
    (hs' : (BitFieldOp.setBit v idx).apply (freshOf answer) w.value = some s') :
    Ends w answer s' (w.step answer (.setBit v idx)) :=
  hw.of_change ha (f := fun b => b.setBit (freshOf answer) idx) hs' fun _ _ hobj hf =>
    BitFieldObj.writeBit_change BitFieldObj.changeChunk_eq (hw.backed hobj) ha hf

theorem clearBit_ends (hw : w.InOrder) (ha : w.AnswerOk answer) {v : ι} {idx : BitVec 64}
    (hs' : (BitFieldOp.clearBit v idx).apply (freshOf answer) w.value = some s') :
    Ends w answer s' (w.step answer (.clearBit v idx)) :=
  hw.of_change ha (f := fun b => b.clearBit (freshOf answer) idx) hs' fun _ _ hobj hf =>
    BitFieldObj.writeBit_change BitFieldObj.changeChunk_eq (hw.backed hobj) ha hf

theorem clearStorage_ends (hw : w.InOrder) (ha : w.AnswerOk answer) {v : ι}
    (hs' : (BitFieldOp.clearStorage v).apply (freshOf answer) w.value = some s') :
    Ends w answer s' (w.step answer (.clearStorage v)) :=
  hw.of_call ha (f := BitField.clearStorage) hs' fun _ hobj => (hw.backed hobj).clearStorage_change

theorem fill_ends (hw : w.InOrder) (ha : w.AnswerOk answer) {v : ι} {byte : BitVec 8}
    (hs' : (BitFieldOp.fill v byte).apply (freshOf answer) w.value = some s') :
    Ends w answer s' (w.step answer (.fill v byte)) := by
  refine hw.of_call ha (f := BitField.fill byte) hs' fun o hobj => ?_
  obtain ⟨h', hr, hc⟩ := (hw.backed hobj).fill_change byte
  exact ⟨(h', o), by rw [hr]; rfl, hc⟩

end Calls

/-- **One call** acts on the objects as it does on values, or throws and
changes nothing. -/
theorem step_ends (hw : w.InOrder) (ha : w.AnswerOk answer) {op : BitFieldOp ι}
    (hsafe : ¬ w.DanglingAssign answer op) {s' : BitFieldStore ι}
    (hs' : op.apply (freshOf answer) w.value = some s') : Ends w answer s' (w.step answer op) := by
  cases op with
  | construct v => exact construct_ends hw ha hs'
  | constructBits v nbits => exact constructBits_ends hw ha hs'
  | constructCopy v o => exact constructCopy_ends hw ha hs'
  | constructMove v o => exact constructMove_ends hw hs'
  | assign v o => exact assign_ends hw ha hsafe hs'
  | assignMove v o => exact assignMove_ends hw hs'
  | destroy v => exact destroy_ends hw hs'
  | reserve v nbits => exact reserve_ends hw ha hs'
  | setBit v idx => exact setBit_ends hw ha hs'
  | clearBit v idx => exact clearBit_ends hw ha hs'
  | clearStorage v => exact clearStorage_ends hw ha hs'
  | fill v byte => exact fill_ends hw ha hs'

/-- `copy` frees the buffer before it asks for another. -/
theorem step_danglingAssign (hw : w.InOrder) {v o : ι} (hop : (BitFieldOp.assign v o).Legal w.value)
    (hd : w.DanglingAssign answer (.assign v o)) :
    ∃ p, w.own v = some p ∧
      w.step answer (.assign v o) = .badAlloc ⟨Function.update w.heap p none, w.obj⟩ := by
  obtain ⟨hvo, rfl, hbuf⟩ := hd
  obtain ⟨source, ho⟩ := Option.isSome_iff_exists.mp hop.2
  obtain ⟨b, hb⟩ := Option.isSome_iff_exists.mp hop.1
  obtain ⟨src, hobj, -⟩ := obj_of_value ho
  obtain ⟨this, hthis, -⟩ := obj_of_value hb
  obtain ⟨p, hp⟩ := Option.isSome_iff_exists.mp hbuf
  have hpbuf := (own_of_obj hthis).symm.trans hp
  refine ⟨p, hp, ?_⟩
  have hcopy : this.copy src w.heap none = .badAlloc (Function.update w.heap p none, this) := by
    unfold BitFieldObj.copy
    rw [(hw.backed hthis).freeBuf_eq, BitFieldObj.freed_of_buf hpbuf]
    rfl
  simp only [step, hobj, BitFieldWorld.callThrowing, hthis, if_neg hvo, hcopy]
  show Outcome.badAlloc (w.put v (_, this)) = _
  unfold BitFieldWorld.put
  rw [← hthis, Function.update_eq_self]

/-- What a program may reach: its calls are legal, the allocator gives
addresses that are not in use, and what a call throws is caught. Beside the
world is what each index of each object was last written with. -/
inductive Reachable : BitFieldWorld ι → (ι → BitVec 64 → Option Bool) → Prop
  | start : Reachable {} fun _ _ => none
  | done {w w' : BitFieldWorld ι} {m : ι → BitVec 64 → Option Bool} {answer : Answer}
      {op : BitFieldOp ι} : Reachable w m → w.AnswerOk answer → op.Legal w.value →
      w.step answer op = .done w' → Reachable w' (op.written w.value m)
  | threw {w w' : BitFieldWorld ι} {m : ι → BitVec 64 → Option Bool} {answer : Answer}
      {op : BitFieldOp ι} : Reachable w m → w.AnswerOk answer → op.Legal w.value →
      ¬ w.DanglingAssign answer op → w.step answer op = .badAlloc w' → Reachable w' m

variable {m : ι → BitVec 64 → Option Bool}

theorem Reachable.inv (h : Reachable w m) : w.InOrder ∧ w.value.Holds m := by
  induction h with
  | start => exact ⟨inOrder_empty, by nofun⟩
  | @done w w' m answer op _ ha hop hstep ih =>
    obtain ⟨hw, hm⟩ := ih
    obtain ⟨s', hs', hholds⟩ := op.apply_holds hm hop (freshOf answer)
    by_cases hsafe : w.DanglingAssign answer op
    · cases op with
      | assign v o =>
        obtain ⟨p, _, hthrew⟩ := step_danglingAssign hw hop hsafe
        rw [hstep] at hthrew
        cases hthrew
      | _ => cases hsafe
    · have hends := step_ends hw ha hsafe hs'
      rw [hstep] at hends
      cases hends with
      | done howned hvalue =>
        subst hvalue
        exact ⟨⟨howned, fun v b hb => (hholds v b hb).valid⟩, hholds⟩
  | @threw w w' m answer op _ ha hop hsafe hstep ih =>
    obtain ⟨hw, hm⟩ := ih
    obtain ⟨s', hs', _⟩ := op.apply_holds hm hop (freshOf answer)
    have hends := step_ends hw ha hsafe hs'
    rw [hstep] at hends
    cases hends with
    | threw _ => exact ⟨hw, hm⟩

/-- **A program of bit fields is safe**: every legal call in every world it
reaches acts as on values and leaves the heap in order, or throws and changes
nothing, unless it is an assignment that throws into an object with a
buffer. Without objects no buffer is left. -/
theorem bitField_memory_safe (h : Reachable w m) :
    ((∀ v, w.obj v = none) → ∀ a, w.heap a = none) ∧
    ∀ (answer : Answer) (op : BitFieldOp ι), w.AnswerOk answer → op.Legal w.value →
      ¬ w.DanglingAssign answer op →
      (∃ w', w.step answer op = .done w' ∧ Owned w'.heap w'.own ∧
        op.apply (freshOf answer) w.value = some w'.value) ∨
      (answer = none ∧ w.step answer op = .badAlloc w) := by
  obtain ⟨hw, hm⟩ := h.inv
  refine ⟨fun hnone => hw.owned.heap_empty fun v => own_of_none (hnone v), ?_⟩
  intro answer op ha hop hsafe
  obtain ⟨s', hs', _⟩ := op.apply_holds hm hop (freshOf answer)
  have hends := step_ends hw ha hsafe hs'
  generalize w.step answer op = out at hends
  cases hends with
  | done howned hvalue => exact .inl ⟨_, rfl, howned, by rw [hs', hvalue]⟩
  | threw hanswer => exact .inr ⟨hanswer, rfl⟩

/-- Two objects; the first has a buffer at 7. -/
theorem reachable_sample : ∃ (w : BitFieldWorld Bool) (m : Bool → BitVec 64 → Option Bool),
    Reachable w m ∧ w.own false = some 7 ∧ w.obj true = some {} ∧ w.heap 8 = none := by
  have hempty : Reachable ({} : BitFieldWorld Bool) fun _ _ => none := .start
  have hfirst := @Reachable.done _ _ _ _ _ none (.construct false) hempty (by nofun) rfl rfl
  have hsecond := @Reachable.done _ _ _ _ _ none (.construct true) hfirst (by nofun) rfl rfl
  have hset := @Reachable.done _ _ _ _ _ (some (7, fun _ => 0)) (.setBit false 3) hsecond
    (fun p fresh ha => rfl) ⟨rfl, by decide⟩ rfl
  exact ⟨_, _, hset, rfl, rfl, rfl⟩

/-- A copy of the first object into the second. -/
theorem bitField_memory_safe_copy : ∃ w w' : BitFieldWorld Bool, w.own false = some 7 ∧
    w.step (some (8, fun _ => 0)) (.assign true false) = .done w' ∧ Owned w'.heap w'.own := by
  obtain ⟨w, m, h, hfalse, htrue, hfree⟩ := reachable_sample
  obtain ⟨_, hsafe⟩ := bitField_memory_safe h
  obtain ⟨w', hstep, howned, _⟩ | ⟨hnone, _⟩ := hsafe (some (8, fun _ => 0)) (.assign true false)
    (fun p fresh ha => by cases ha; exact hfree)
    ⟨by rw [value_of_obj htrue]; rfl, isSome_value hfalse⟩
    (fun hd => by cases hd.2.1)
  · exact ⟨w, w', hfalse, hstep, howned⟩
  · cases hnone

/-- A free and a use of a buffer that is not live. -/
theorem undefined_of_dangling {v : ι} {p : Nat} (hp : w.own v = some p) (hdead : w.heap p = none)
    (answer : Answer) :
    w.step answer (.destroy v) = .undefined ∧ w.step answer (.clearStorage v) = .undefined := by
  obtain ⟨o, ho, hbuf⟩ := Option.bind_eq_some_iff.mp hp
  have hfree : ∀ n, BitFieldObj.deallocate w.heap p n = none := by
    intro n
    unfold BitFieldObj.deallocate
    rw [hdead]
    rfl
  constructor
  · simp only [step, ho, Option.bind_some, BitFieldObj.freeBuf, hbuf, hfree]
    rfl
  · simp only [step, BitFieldWorld.call, ho, Option.bind_some, BitFieldObj.clearStorage, hbuf,
      hfree]
    rfl

/-- **A heap out of order** comes from one call only: an assignment that
throws into an object with a buffer. The object then points to the freed
buffer, and its destructor frees it once more. -/
theorem danglingAssign_iff (h : Reachable w m) (ha : w.AnswerOk answer) {op : BitFieldOp ι}
    (hop : op.Legal w.value) :
    (w.DanglingAssign answer op ↔ ∃ w',
      (w.step answer op = .done w' ∨ w.step answer op = .badAlloc w') ∧
        ¬ Owned w'.heap w'.own) ∧
    (w.DanglingAssign answer op → ∃ v o p w', op = .assign v o ∧
      w.step answer op = .badAlloc w' ∧ w'.own v = some p ∧ w'.heap p = none ∧
      ∀ answer', w'.step answer' (.destroy v) = .undefined ∧
        w'.step answer' (.clearStorage v) = .undefined) := by
  obtain ⟨hw, hm⟩ := h.inv
  have hbad : w.DanglingAssign answer op → ∃ v o p w', op = .assign v o ∧
      w.step answer op = .badAlloc w' ∧ w'.own v = some p ∧ w'.heap p = none := by
    intro hd
    cases op with
    | assign v o =>
      obtain ⟨p, hp, hstep⟩ := step_danglingAssign hw hop hd
      exact ⟨v, o, p, _, rfl, hstep, hp, Function.update_self ..⟩
    | _ => cases hd
  refine ⟨⟨fun hd => ?_, fun hw' => ?_⟩, fun hd => ?_⟩
  · obtain ⟨v, _, p, w', _, hstep, hp, hdead⟩ := hbad hd
    refine ⟨w', .inr hstep, fun howned => ?_⟩
    obtain ⟨_, hlive⟩ := howned.live v p hp
    rw [hdead] at hlive
    cases hlive
  · by_contra hsafe
    obtain ⟨w', hend, hnot⟩ := hw'
    obtain ⟨s', hs', _⟩ := op.apply_holds hm hop (freshOf answer)
    have hends := step_ends hw ha hsafe hs'
    rcases hend with hend | hend
    · rw [hend] at hends
      cases hends with
      | done howned _ => exact hnot howned
    · rw [hend] at hends
      cases hends with
      | threw _ => exact hnot hw.owned
  · obtain ⟨v, o, p, w', hop', hstep, hp, hdead⟩ := hbad hd
    exact ⟨v, o, p, w', hop', hstep, hp, hdead, undefined_of_dangling hp hdead⟩

/-- The first object is assigned the second one when there is no memory. -/
theorem danglingAssign_iff_destroy : ∃ w w' : BitFieldWorld Bool, w.own false = some 7 ∧
    w.step none (.assign false true) = .badAlloc w' ∧
      w'.step none (.destroy false) = .undefined := by
  obtain ⟨w, m, h, hfalse, htrue, _⟩ := reachable_sample
  have hlegal : (BitFieldOp.assign false true).Legal w.value :=
    ⟨isSome_value hfalse, by rw [value_of_obj htrue]; rfl⟩
  have hnone : w.AnswerOk none := by nofun
  obtain ⟨_, hbad⟩ := danglingAssign_iff h hnone hlegal
  obtain ⟨v, o, p, w', hop, hstep, _, _, hundefined⟩ := hbad ⟨by decide, rfl, by rw [hfalse]; rfl⟩
  cases hop
  exact ⟨w, w', hfalse, hstep, (hundefined none).1⟩

theorem getBit_obj (o : BitFieldObj) (h : Heap (BitVec 64)) (idx : BitVec 64) :
    o.getBit h idx = (o.value h).getBit idx := by
  unfold BitFieldObj.getBit BitField.getBit sizeBits getBitFast chunkAt BitFieldObj.value
  cases o.buf with
  | none => rfl
  | some p => cases hp : h p <;> simp [hp]

end BitFieldWorld

end Leeloo
