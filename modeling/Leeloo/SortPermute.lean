/-
Leeloo.SortPermute — the iterators of `sort_permute.h`, which walk over a
vector and over the bits of a bit field at once.

A value behind such an iterator is an element with its bit; a reference is
a tuple of the element and a `bit_value`, and moves and swaps go through
it. The iterators of an array and a bit field do what positions do in a
list of pairs (`permute_simulates`), so `std::sort`, or any other
algorithm that goes through them, permutes the array and the bits as one
list.
-/
import Leeloo.BitReference
import Leeloo.Lib.IteratorProgram

namespace Leeloo

open BitChunks IteratorProgram

/-! ## `bit_value` -/

namespace BitReference

/-- `bit_value::operator=(bit_value const&)`. -/
def assign (r o : BitReference) (chunks : List (BitVec 64)) : Option (List (BitVec 64)) := do
  let v ← o.toBool chunks
  r.setValue v chunks

/-- `std::swap` of two `bit_value`s. -/
def swap (a b : BitReference) (chunks : List (BitVec 64)) : Option (List (BitVec 64)) := do
  let tmp ← b.toBool chunks
  let chunks ← b.assign a chunks
  a.setValue tmp chunks

theorem length_setValue {r : BitReference} {v : Bool} {chunks chunks' : List (BitVec 64)}
    (h : r.setValue v chunks = some chunks') : chunks'.length = chunks.length := by
  obtain ⟨c, _, h⟩ := Option.bind_eq_some_iff.mp h
  rw [← Option.some.inj h, List.length_set]

end BitReference

/-! ## The iterators -/

/-- `sort_permute_iter`, over a vector and a bit field. -/
structure SortPermuteIter where
  ci : Int
  vi : BitReference
  deriving DecidableEq, Repr

/-- A vector, and the chunks of the bits that belong to its elements. -/
structure Zipped (α : Type) where
  elts : List α
  chunks : List (BitVec 64)

namespace SortPermuteIter

variable {α : Type}

/-- `increment`. -/
def increment (it : SortPermuteIter) : SortPermuteIter := ⟨it.ci + 1, it.vi.increment⟩

/-- `decrement`. -/
def decrement (it : SortPermuteIter) : SortPermuteIter := ⟨it.ci - 1, it.vi.decrement⟩

/-- `advance`. -/
def advance (it : SortPermuteIter) (n : BitVec 64) : Option SortPermuteIter := do
  let vi ← it.vi.advance n
  some ⟨it.ci + n.toInt, vi⟩

/-- `equal`, which only compares the positions in the vector. -/
def equal (it other : SortPermuteIter) : Bool := decide (it.ci = other.ci)

/-- `distance_to`. -/
def distanceTo (it other : SortPermuteIter) : BitVec 64 := BitVec.ofInt 64 (other.ci - it.ci)

/-- `dereference`, converted to a value. -/
def deref (z : Zipped α) (it : SortPermuteIter) : Option (α × Bool) := do
  let elt ← readList z.elts it.ci
  let bit ← it.vi.toBool z.chunks
  some (elt, bit)

/-- `*it = v`. -/
def put (z : Zipped α) (it : SortPermuteIter) (v : α × Bool) : Option (Zipped α) := do
  let elts ← writeList z.elts it.ci v.1
  let chunks ← it.vi.setValue v.2 z.chunks
  some ⟨elts, chunks⟩

/-- `*it = std::move(*other)`. -/
def move (z : Zipped α) (it other : SortPermuteIter) : Option (Zipped α) := do
  let elt ← readList z.elts other.ci
  let elts ← writeList z.elts it.ci elt
  let chunks ← it.vi.assign other.vi z.chunks
  some ⟨elts, chunks⟩

/-- `std::swap` of the tuples behind two iterators. -/
def swap (z : Zipped α) (a b : SortPermuteIter) : Option (Zipped α) := do
  let x ← readList z.elts a.ci
  let y ← readList z.elts b.ci
  let elts ← writeList z.elts a.ci y
  let elts ← writeList elts b.ci x
  let chunks ← a.vi.swap b.vi z.chunks
  some ⟨elts, chunks⟩

end SortPermuteIter

/-- What a sort of a vector with a bit field runs on. -/
def permuteMachine (α : Type) : Machine (Zipped α) SortPermuteIter (α × Bool) where
  increment := SortPermuteIter.increment
  decrement := SortPermuteIter.decrement
  advance := SortPermuteIter.advance
  equal := SortPermuteIter.equal
  distance := SortPermuteIter.distanceTo
  read := SortPermuteIter.deref
  write := SortPermuteIter.put
  move := SortPermuteIter.move
  swap := SortPermuteIter.swap

/-! ## Positions in a list of pairs -/

/-- The iterator is at position `i` of the vector and of the bits. -/
structure SortPermuteIter.At (it : SortPermuteIter) (i : Int) : Prop where
  ci : it.ci = i
  vi : it.vi.position = i
  inChunk : it.vi.InChunk

/-- `n` chunks hold the bits of the list of pairs `l`. -/
structure HoldBits {α : Type} (n : Nat) (chunks : List (BitVec 64)) (l : List (α × Bool)) :
    Prop where
  bits : ∀ i e, l[i]? = some e → bitAt chunks i = some e.2
  length : chunks.length = n

/-- The vector and its bits are the list of pairs `l`. -/
structure Zipped.Zips {α : Type} (n : Nat) (z : Zipped α) (l : List (α × Bool)) : Prop where
  elts : z.elts = l.map (·.1)
  chunks : HoldBits n z.chunks l

section Positions

variable {α : Type} {n : Nat} {l l' : List (α × Bool)} {it : SortPermuteIter} {i : Int}
  {v : α × Bool}

theorem readList_map (hv : readList l i = some v) : readList (l.map (·.1)) i = some v.1 := by
  obtain ⟨hi, hv⟩ := readList_eq_some.mp hv
  rw [readList_eq_some, List.getElem?_map, hv]
  exact ⟨hi, rfl⟩

theorem writeList_map (hl' : writeList l i v = some l') :
    writeList (l.map (·.1)) i v.1 = some (l'.map (·.1)) := by
  obtain ⟨⟨hi, hlt⟩, rfl⟩ := writeList_eq_some.mp hl'
  rw [writeList_eq_some, List.length_map, List.map_set]
  exact ⟨⟨hi, hlt⟩, rfl⟩

namespace HoldBits

variable {chunks : List (BitVec 64)}

theorem toBool (h : HoldBits n chunks l) (hit : it.At i) (hv : readList l i = some v) :
    it.vi.toBool chunks = some v.2 := by
  obtain ⟨hi, hv⟩ := readList_eq_some.mp hv
  rw [BitReference.toBool_eq hit.inChunk (by rw [hit.vi]; exact hi), hit.vi]
  exact h.bits _ v hv

theorem setValue (h : HoldBits n chunks l) (hit : it.At i) (hl' : writeList l i v = some l') :
    ∃ chunks', it.vi.setValue v.2 chunks = some chunks' ∧ HoldBits n chunks' l' := by
  obtain ⟨⟨hi, hlt⟩, rfl⟩ := writeList_eq_some.mp hl'
  have hpos : (0 : Int) ≤ it.vi.position := by
    rw [hit.vi]
    exact hi
  have hold := h.bits i.toNat _ (List.getElem?_eq_getElem hlt)
  have hchunk : it.vi.position.toNat / 64 < chunks.length := by
    rw [hit.vi]
    exact lt_of_bitAt hold
  obtain ⟨chunks', hset, hbits⟩ := BitReference.setValue_spec hit.inChunk hpos hchunk v.2
  refine ⟨chunks', hset, fun j e he => ?_, ?_⟩
  · rw [hbits, hit.vi]
    by_cases hj : j = i.toNat
    · rw [hj, List.getElem?_set_self hlt] at he
      rw [if_pos hj, Option.some.inj he]
    · rw [List.getElem?_set_ne (Ne.symm hj)] at he
      rw [if_neg hj]
      exact h.bits j e he
  · rw [BitReference.length_setValue hset]
    exact h.length

end HoldBits

/-- The two writes of a swap, in the other order. -/
theorem writeList_swap {u : α × Bool} {j : Int} (hv : readList l i = some v)
    (hu : readList l j = some u)
    (hl' : ((writeList l i u).bind fun l => writeList l j v) = some l') :
    ((writeList l j v).bind fun l => writeList l i u) = some l' := by
  obtain ⟨hi, hv⟩ := readList_eq_some.mp hv
  obtain ⟨hj, hu⟩ := readList_eq_some.mp hu
  obtain ⟨l₁, hl₁, hl'⟩ := Option.bind_eq_some_iff.mp hl'
  obtain ⟨⟨_, hilt⟩, rfl⟩ := writeList_eq_some.mp hl₁
  obtain ⟨⟨_, hjlt⟩, rfl⟩ := writeList_eq_some.mp hl'
  rw [List.length_set] at hjlt
  have hfirst : writeList l j v = some (l.set j.toNat v) :=
    writeList_eq_some.mpr ⟨⟨hj, hjlt⟩, rfl⟩
  rw [hfirst, Option.bind_some, writeList_eq_some, List.length_set]
  refine ⟨⟨hi, hilt⟩, ?_⟩
  by_cases hij : i.toNat = j.toNat
  · rw [hij, hu] at hv
    rw [hij, Option.some.inj hv]
  · exact List.set_comm _ _ hij

end Positions

section Simulation

variable {α : Type} {n : Nat}

open SortPermuteIter

theorem at_ofPosition {ci i : Int} (hci : ci = i) : At ⟨ci, BitReference.ofPosition i⟩ i :=
  ⟨hci, BitReference.position_ofPosition i, BitReference.inChunk_ofPosition i⟩

/-- **The iterators over a vector and its bits** do what positions in the
list of pairs do. -/
theorem permute_simulates :
    Simulates (permuteMachine α) (listMachine (α × Bool)) (Zipped.Zips n) At where
  increment := by
    intro it i hit
    show At ⟨it.ci + 1, it.vi.increment⟩ (i + 1)
    rw [BitReference.increment_eq hit.inChunk, hit.vi]
    exact at_ofPosition (by rw [hit.ci])
  decrement := by
    intro it i hit
    show At ⟨it.ci - 1, it.vi.decrement⟩ (i - 1)
    rw [BitReference.decrement_eq hit.inChunk, hit.vi]
    exact at_ofPosition (by rw [hit.ci])
  advance := by
    intro it i k j hit hj
    replace hj : (if k = BitVec.intMin 64 then none else some (i + k.toInt)) = some j := hj
    by_cases hk : k = BitVec.intMin 64
    · rw [if_pos hk] at hj
      cases hj
    · rw [if_neg hk] at hj
      obtain rfl := Option.some.inj hj
      refine ⟨⟨it.ci + k.toInt, BitReference.ofPosition (i + k.toInt)⟩, ?_, ?_⟩
      · show SortPermuteIter.advance it k = _
        unfold SortPermuteIter.advance
        rw [BitReference.advance_eq hit.inChunk hk, hit.vi]
        rfl
      · exact at_ofPosition (by rw [hit.ci])
  equal := by
    intro it i other j hit hother
    show decide (it.ci = other.ci) = decide (i = j)
    rw [hit.ci, hother.ci]
  distance := by
    intro it i other j hit hother
    show BitVec.ofInt 64 (other.ci - it.ci) = BitVec.ofInt 64 (j - i)
    rw [hit.ci, hother.ci]
  read := by
    intro z l it i v hz hit hv
    show deref z it = _
    unfold deref
    simp only [hz.elts, hit.ci, readList_map hv, hz.chunks.toBool hit hv, Option.bind_eq_bind,
      Option.bind_some]
  write := by
    intro z l it i v l' hz hit hl'
    obtain ⟨chunks, hchunks, hbits⟩ := hz.chunks.setValue hit hl'
    refine ⟨⟨l'.map (·.1), chunks⟩, ?_, rfl, hbits⟩
    show put z it v = _
    unfold put
    simp only [hz.elts, hit.ci, writeList_map hl', hchunks, Option.bind_eq_bind, Option.bind_some]
  move := by
    intro z l it i other j l' hz hit hother hl'
    obtain ⟨v, hv, hl'⟩ := Option.bind_eq_some_iff.mp hl'
    obtain ⟨chunks, hchunks, hbits⟩ := hz.chunks.setValue hit hl'
    refine ⟨⟨l'.map (·.1), chunks⟩, ?_, rfl, hbits⟩
    show move z it other = _
    unfold move BitReference.assign
    simp only [hz.elts, hit.ci, hother.ci, readList_map hv, writeList_map hl',
      hz.chunks.toBool hother hv, hchunks, Option.bind_eq_bind, Option.bind_some]
  swap := by
    intro z l a i b j l' hz ha hb hl'
    obtain ⟨v, hv, hl'⟩ := Option.bind_eq_some_iff.mp hl'
    obtain ⟨u, hu, hl'⟩ := Option.bind_eq_some_iff.mp hl'
    -- the elements in this order, the bits in the other one
    obtain ⟨l₁, hl₁, hl₂⟩ := Option.bind_eq_some_iff.mp (writeList_swap hv hu hl')
    obtain ⟨chunks₁, hchunks₁, hbits₁⟩ := hz.chunks.setValue hb hl₁
    obtain ⟨chunks₂, hchunks₂, hbits₂⟩ := hbits₁.setValue ha hl₂
    obtain ⟨l₃, hl₃, hl₄⟩ := Option.bind_eq_some_iff.mp hl'
    refine ⟨⟨l'.map (·.1), chunks₂⟩, ?_, rfl, hbits₂⟩
    show swap z a b = _
    unfold swap BitReference.swap BitReference.assign
    simp only [hz.elts, ha.ci, hb.ci, readList_map hv, readList_map hu, writeList_map hl₃,
      writeList_map hl₄, hz.chunks.toBool ha hv, hz.chunks.toBool hb hu, hchunks₁, hchunks₂,
      Option.bind_eq_bind, Option.bind_some]

/-- **An algorithm** that goes through the iterators, from the begins of a
vector and of its bits to their ends, leaves what it makes of the list of
pairs. -/
theorem permute_exec (program : Program (α × Bool)) {z : Zipped α} {l l' : List (α × Bool)}
    (hz : z.Zips n l)
    (hl' : program.exec (listMachine (α × Bool)) (between 0 l.length) l = some l') :
    ∃ z', program.exec (permuteMachine α)
        (between ⟨0, BitField.begin_⟩ ⟨z.elts.length, BitReference.ofPosition z.elts.length⟩) z =
        some z' ∧ z'.Zips n l' := by
  refine permute_simulates.exec program (fun a => ?_) hz hl'
  unfold between
  by_cases ha : a = 1
  · rw [if_pos ha, if_pos ha, hz.elts, List.length_map]
    exact at_ofPosition rfl
  · rw [if_neg ha, if_neg ha]
    exact ⟨rfl, rfl, by decide⟩

/-- Three numbers with their bits, sorted through a buffer. -/
theorem permute_exec_sorted :
    ∃ z', (SortProgram.insertion fun e : Nat × Bool => e.1).program.exec (permuteMachine Nat)
        (between ⟨0, BitField.begin_⟩ ⟨3, BitReference.ofPosition 3⟩) ⟨[5, 2, 4], [3]⟩ = some z' ∧
      z'.Zips 1 [(2, true), (4, false), (5, true)] := by
  have hbits : HoldBits 1 [3] [((5 : Nat), true), (2, true), (4, false)] := by
    refine ⟨fun i e he => ?_, rfl⟩
    match i with
    | 0 | 1 | 2 =>
      cases he
      decide
    | i + 3 => cases he
  have hsort : (SortProgram.insertion fun e : Nat × Bool => e.1).program.exec (listMachine _)
      (between 0 3) [(5, true), (2, true), (4, false)] =
      some [(2, true), (4, false), (5, true)] := by decide
  exact permute_exec (z := ⟨[5, 2, 4], [3]⟩) _ ⟨rfl, hbits⟩ hsort

end Simulation

end Leeloo
