/-
Leeloo.Lib.UnstableSort — sorting by a key with an unspecified order of
ties.

A parallel or an introspective sort promises a permutation in key order
and nothing about elements of equal key. `UnstableSort key` is a sort
function together with exactly that promise, so a theorem over every
`UnstableSort` holds for every tie order.
-/
import Mathlib.Data.List.Sort

/-- A sort by `key` that may leave elements of equal key in any order. -/
structure UnstableSort {ι α : Type} [LinearOrder α] (key : ι → α) where
  run : List ι → List ι
  perm : ∀ l, (run l).Perm l
  sorted : ∀ l, (run l).Pairwise fun a b => key a ≤ key b

namespace UnstableSort

variable {ι α : Type} [LinearOrder α] {key : ι → α} (s : UnstableSort key)

theorem mem_run {l : List ι} {i : ι} : i ∈ s.run l ↔ i ∈ l := (s.perm l).mem_iff

theorem length_run (l : List ι) : (s.run l).length = l.length := (s.perm l).length_eq

/-- A nonempty list sorts to a nonempty list. -/
theorem run_ne_nil {l : List ι} (h : l ≠ []) : s.run l ≠ [] := by
  intro hnil
  have hp := s.perm l
  rw [hnil] at hp
  exact h hp.symm.eq_nil

/-- The sort that keeps the order of ties, by insertion. -/
def insertion (key : ι → α) : UnstableSort key where
  run := List.insertionSort fun a b => key a ≤ key b
  perm := List.perm_insertionSort _
  sorted l :=
    haveI : Std.Total fun a b : ι => key a ≤ key b := ⟨fun a b => le_total (key a) (key b)⟩
    haveI : IsTrans ι fun a b => key a ≤ key b := ⟨fun _ _ _ => le_trans⟩
    List.pairwise_insertionSort _ l

end UnstableSort
