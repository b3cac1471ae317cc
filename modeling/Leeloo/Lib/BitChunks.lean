/-
Leeloo.Lib.BitChunks — bits kept in a list of words.

Bit `i` is bit `i % w` of word `i / w`. Setting or clearing one bit of one
word changes this bit and no other (`bitAt_set_or`, `bitAt_set_andNot`), and
what is kept of a list keeps its bits (`bitAt_append`).
-/
import Mathlib.Data.Nat.Init

namespace BitChunks

variable {w : Nat} {chunks : List (BitVec w)}

/-- Bit `i` of a list of words. -/
def bitAt (chunks : List (BitVec w)) (i : Nat) : Option Bool :=
  chunks[i / w]?.map fun c => c.getLsbD (i % w)

theorem bitAt_of_getElem? {i : Nat} {c : BitVec w} (h : chunks[i / w]? = some c) :
    bitAt chunks i = some (c.getLsbD (i % w)) := by
  rw [bitAt, h]
  rfl

/-- An index is known by its word and its place there. -/
theorem index_eq_iff {i j : Nat} : j = i ↔ j / w = i / w ∧ j % w = i % w := by
  constructor
  · rintro rfl
    exact ⟨rfl, rfl⟩
  · rintro ⟨hdiv, hmod⟩
    rw [← Nat.div_add_mod j w, ← Nat.div_add_mod i w, hdiv, hmod]

/-- A change of one word. -/
theorem bitAt_set {n : Nat} (hn : n < chunks.length) (c : BitVec w) (j : Nat) :
    bitAt (chunks.set n c) j = if j / w = n then some (c.getLsbD (j % w)) else bitAt chunks j := by
  unfold bitAt
  by_cases h : j / w = n
  · rw [if_pos h, h, List.getElem?_set_self hn]
    rfl
  · rw [if_neg h, List.getElem?_set_ne (Ne.symm h)]

/-- A change of the word of bit `i` that gives this bit a value and keeps
the others of the word. -/
theorem bitAt_set_bit (hw : 0 < w) {i : Nat} {c c' : BitVec w} (hc : chunks[i / w]? = some c)
    {v : Bool} (hbits : ∀ k < w, c'.getLsbD k = if k = i % w then v else c.getLsbD k) (j : Nat) :
    bitAt (chunks.set (i / w) c') j = if j = i then some v else bitAt chunks j := by
  rw [bitAt_set (List.getElem?_eq_some_iff.mp hc).1]
  by_cases hdiv : j / w = i / w
  · rw [if_pos hdiv, hbits _ (Nat.mod_lt j hw)]
    by_cases hmod : j % w = i % w
    · rw [if_pos hmod, if_pos (index_eq_iff.mpr ⟨hdiv, hmod⟩)]
    · rw [if_neg hmod, if_neg (fun h => hmod (index_eq_iff.mp h).2),
        bitAt_of_getElem? (hdiv ▸ hc)]
  · rw [if_neg hdiv, if_neg (fun h => hdiv (index_eq_iff.mp h).1)]

/-- Setting bit `i` leaves the others as they are. -/
theorem bitAt_set_or (hw : 0 < w) {i : Nat} {c : BitVec w} (hc : chunks[i / w]? = some c)
    (j : Nat) :
    bitAt (chunks.set (i / w) (c ||| 1#w <<< (i % w))) j =
      if j = i then some true else bitAt chunks j := by
  refine bitAt_set_bit hw hc (fun k hk => ?_) j
  rw [← BitVec.twoPow_eq, BitVec.getLsbD_or, BitVec.getLsbD_twoPow]
  by_cases hki : k = i % w
  · simp [hki, Nat.mod_lt i hw]
  · simp [hki, Ne.symm hki]

/-- Clearing bit `i` leaves the others as they are. -/
theorem bitAt_set_andNot (hw : 0 < w) {i : Nat} {c : BitVec w} (hc : chunks[i / w]? = some c)
    (j : Nat) :
    bitAt (chunks.set (i / w) (c &&& ~~~(1#w <<< (i % w)))) j =
      if j = i then some false else bitAt chunks j := by
  refine bitAt_set_bit hw hc (fun k hk => ?_) j
  rw [← BitVec.twoPow_eq, BitVec.getLsbD_and, BitVec.getLsbD_not, BitVec.getLsbD_twoPow]
  by_cases hki : k = i % w
  · simp [hki, Nat.mod_lt i hw]
  · simp [hki, Ne.symm hki, hk]

/-- A copy of the words at the front of another list has their bits. -/
theorem bitAt_append {rest : List (BitVec w)} {i : Nat} {v : Bool} (h : bitAt chunks i = some v) :
    bitAt (chunks ++ rest) i = some v := by
  obtain ⟨c, hc, heq⟩ := Option.map_eq_some_iff.mp h
  rw [bitAt_of_getElem? (c := c), heq]
  rw [List.getElem?_append_left (List.getElem?_eq_some_iff.mp hc).1, hc]

/-- A bit has a word. -/
theorem lt_of_bitAt {i : Nat} {v : Bool} (h : bitAt chunks i = some v) : i / w < chunks.length := by
  obtain ⟨c, hc, _⟩ := Option.map_eq_some_iff.mp h
  exact (List.getElem?_eq_some_iff.mp hc).1

end BitChunks
