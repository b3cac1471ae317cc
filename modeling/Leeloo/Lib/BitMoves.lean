/-
Leeloo.Lib.BitMoves — words whose bits are moved to other places.

`moveBit` is the expression that takes one bit of a word and puts it at
another place. A function that moves every bit `i` of a word to the place
`σ i` below the width is one-to-one on words, whatever `σ` is
(`Moves.bijective`).
-/
import Mathlib.Data.FinEnum
import Mathlib.Data.Fintype.EquivFin

namespace BitMoves

variable {w : Nat}

/-- Bit `i` of a word, at place `k`. -/
def moveBit (v : BitVec w) (i k : Nat) : BitVec w := ((v &&& 1#w <<< i) >>> i) <<< k

theorem getLsbD_moveBit (v : BitVec w) {i : Nat} (hi : i < w) (k j : Nat) :
    (moveBit v i k).getLsbD j = (decide (j < w) && decide (j = k) && v.getLsbD i) := by
  have hbit : ∀ m, ((v &&& 1#w <<< i) >>> i).getLsbD m = (decide (m = 0) && v.getLsbD i) := by
    intro m
    rw [BitVec.getLsbD_ushiftRight, BitVec.getLsbD_and, ← BitVec.twoPow_eq, BitVec.getLsbD_twoPow]
    by_cases hm : m = 0
    · simp [hm, hi]
    · simp [hm]
  rw [moveBit, BitVec.getLsbD_shiftLeft, hbit]
  by_cases hj : j < w
  · by_cases hk : j = k
    · simp [hk]
    · by_cases hlt : j < k
      · simp [hlt, hk]
      · simp [hlt, hk]
        omega
  · simp [hj]

/-- `f` moves bit `i` of every word to the place `σ i`. -/
def Moves (σ : Nat → Nat) (f : BitVec w → BitVec w) : Prop :=
  ∀ v i, i < w → (f v).getLsbD (σ i) = v.getLsbD i

theorem Moves.injective {σ : Nat → Nat} {f : BitVec w → BitVec w} (h : Moves σ f) :
    Function.Injective f := by
  intro u v huv
  apply BitVec.eq_of_getLsbD_eq
  intro i hi
  rw [← h u i hi, ← h v i hi, huv]

/-- **A function that moves every bit is one-to-one** and onto, as there
are finitely many words. -/
theorem Moves.bijective {σ : Nat → Nat} {f : BitVec w → BitVec w} (h : Moves σ f) :
    Function.Bijective f :=
  have : Finite (BitVec w) := FinEnum.instFintype |>.finite
  ⟨h.injective, Finite.surjective_of_injective h.injective⟩

end BitMoves
