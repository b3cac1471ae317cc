/-
Leeloo.Lib.RandomShuffle — `std::random_shuffle` with its generator, as
libstdc++ has it.

Element `i` changes places with element `gen(i + 1)`, for `i` from 1 to the
last. The standard asks for a draw below `i + 1`; what the loop itself
needs is that every draw is an index of the list (`randomShuffle_isSome_iff`),
and then what it leaves is a permutation (`randomShuffle_perm`).
-/
import Mathlib.Data.List.Basic

namespace RandomShuffle

variable {α : Type*} {gen : Nat → Nat}

/-- `iter_swap` of two indices; `none` is an access outside the list. -/
def iterSwap (l : List α) (i j : Nat) : Option (List α) := do
  let a ← l[i]?
  let b ← l[j]?
  some ((l.set i b).set j a)

/-- The body of the loop: `if (i != j) iter_swap(i, j)`. -/
def shuffleStep (l : List α) (i j : Nat) : Option (List α) :=
  if i ≠ j then iterSwap l i j else some l

/-- The loop, with `n` elements to go from `i` on. -/
def shuffleLoop (gen : Nat → Nat) : (n i : Nat) → List α → Option (List α)
  | 0, _, l => some l
  | n + 1, i, l => do
    let l ← shuffleStep l i (gen (i + 1))
    shuffleLoop gen n (i + 1) l

/-- `std::random_shuffle(first, last, gen)`. -/
def randomShuffle (gen : Nat → Nat) (l : List α) : Option (List α) :=
  shuffleLoop gen (l.length - 1) 1 l

theorem iterSwap_perm {l l' : List α} {i j : Nat} (h : iterSwap l i j = some l') : l'.Perm l := by
  unfold iterSwap at h
  simp only [Option.bind_eq_bind, Option.bind_eq_some_iff] at h
  obtain ⟨a, ha, b, hb, heq⟩ := h
  obtain ⟨hi, rfl⟩ := List.getElem?_eq_some_iff.mp ha
  obtain ⟨hj, rfl⟩ := List.getElem?_eq_some_iff.mp hb
  cases heq
  exact List.set_set_perm hi hj

theorem iterSwap_isSome_iff {l : List α} {i j : Nat} (hi : i < l.length) :
    (iterSwap l i j).isSome = true ↔ j < l.length := by
  unfold iterSwap
  rw [List.getElem?_eq_getElem hi]
  by_cases hj : j < l.length
  · simp [hj]
  · simp [hj]

theorem shuffleStep_perm {l l' : List α} {i j : Nat} (h : shuffleStep l i j = some l') :
    l'.Perm l := by
  unfold shuffleStep at h
  split at h
  · exact iterSwap_perm h
  · cases h
    exact List.Perm.refl _

/-- A step ends when the draw is an index of the list. -/
theorem shuffleStep_isSome_iff {l : List α} {i j : Nat} (hi : i < l.length) :
    (shuffleStep l i j).isSome = true ↔ j < l.length := by
  unfold shuffleStep
  by_cases h : i = j
  · subst h
    simp [hi]
  · rw [if_pos h, iterSwap_isSome_iff hi]

theorem shuffleLoop_perm {n i : Nat} {l l' : List α} (h : shuffleLoop gen n i l = some l') :
    l'.Perm l := by
  induction n generalizing i l with
  | zero =>
    cases h
    exact List.Perm.refl _
  | succ n ih =>
    unfold shuffleLoop at h
    obtain ⟨l₁, hstep, hrest⟩ := Option.bind_eq_some_iff.mp h
    exact (ih hrest).trans (shuffleStep_perm hstep)

theorem shuffleLoop_isSome_iff {n i : Nat} {l : List α} (hn : i + n ≤ l.length) :
    (shuffleLoop gen n i l).isSome = true ↔
      ∀ k, i ≤ k → k < i + n → gen (k + 1) < l.length := by
  induction n generalizing i l with
  | zero =>
    simp only [shuffleLoop, Option.isSome_some, true_iff]
    omega
  | succ n ih =>
    have hstep := shuffleStep_isSome_iff (l := l) (i := i) (j := gen (i + 1)) (by omega)
    unfold shuffleLoop
    cases hl : shuffleStep l i (gen (i + 1)) with
    | none =>
      rw [hl] at hstep
      simp only [Option.bind_eq_bind, Option.bind_none, Option.isSome_none, Bool.false_eq_true,
        false_iff] at hstep ⊢
      intro h
      exact hstep (h i (Nat.le_refl i) (by omega))
    | some l₁ =>
      rw [hl] at hstep
      have hlen : l₁.length = l.length := (shuffleStep_perm hl).length_eq
      have hfirst : gen (i + 1) < l.length := hstep.mp rfl
      rw [Option.bind_eq_bind, Option.bind_some, ih (by omega), hlen]
      constructor
      · intro h k hik hk
        by_cases heq : k = i
        · rw [heq]
          exact hfirst
        · exact h k (by omega) (by omega)
      · exact fun h k hik hk => h k (by omega) (by omega)

/-- **What is left is a permutation.** -/
theorem randomShuffle_perm {l l' : List α} (h : randomShuffle gen l = some l') : l'.Perm l :=
  shuffleLoop_perm h

/-- **Every access is inside the list when every draw is.** -/
theorem randomShuffle_isSome_iff {l : List α} :
    (randomShuffle gen l).isSome = true ↔
      ∀ k, 1 ≤ k → k < l.length → gen (k + 1) < l.length := by
  cases l with
  | nil => simp [randomShuffle, shuffleLoop]
  | cons a l =>
    unfold randomShuffle
    rw [shuffleLoop_isSome_iff (by simp; omega)]
    simp only [List.length_cons, Nat.add_sub_cancel]
    constructor
    · exact fun h k h1 hk => h k h1 (by omega)
    · exact fun h k h1 hk => h k h1 (by omega)

end RandomShuffle
