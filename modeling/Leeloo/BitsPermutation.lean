/-
Leeloo.BitsPermutation — the class `bits_permutation` of
`bits_permutation.h`, over an integer of `w` bits.

`std::random_shuffle` asks its callback for a draw below `n`, and the
callback of `init` draws up to `n`. A draw of `n` is harmless where `n` is
still an index of the table, and outside it where `n` is the width; so
`init` leaves a permutation exactly when the last draw is not `w`
(`init_isPermutation_iff`). An entry of the table has 8 bits.
-/
import Leeloo.Lib.BitMoves
import Leeloo.Lib.RandomShuffle
import Mathlib.Data.List.Range

namespace Leeloo

open BitMoves RandomShuffle

namespace BitsPermutation

variable {w : Nat}

/-- The loop `_perm[i] = i`. -/
def identityTable (w : Nat) : List (BitVec 8) := (List.range w).map (BitVec.ofNat 8)

/-- `init`, given what the callback returns for each `n` it is called with.
Every call has another `n`. -/
def init (w : Nat) (gen : Nat → Nat) : Option (List (BitVec 8)) :=
  randomShuffle gen (identityTable w)

/-- The loop of `operator()`, with `n` bits to go from `i` on. -/
def applyLoop (perm : List (BitVec 8)) (v : BitVec w) : (n i : Nat) → BitVec w → Option (BitVec w)
  | 0, _, ret => some ret
  | n + 1, i, ret => do
    let k ← perm[i]?
    applyLoop perm v n (i + 1) (ret ||| ((v &&& 1#w <<< i) >>> i) <<< k.toNat)

/-- `operator()`. -/
def apply (perm : List (BitVec 8)) (v : BitVec w) : Option (BitVec w) := applyLoop perm v w 0 0

/-- The callback draws between 0 and `n`. -/
def Draws (gen : Nat → Nat) : Prop := ∀ n, gen n ≤ n

/-- `init` stays inside the table and leaves a permutation of `0..w-1`, and
`operator()` is a bijection that moves bit `i` to `_perm[i]`. -/
def IsPermutation (w : Nat) (gen : Nat → Nat) : Prop :=
  ∃ perm, init w gen = some perm ∧ (perm.map BitVec.toNat).Perm (List.range w) ∧
    ∃ f : BitVec w → BitVec w, (∀ v, apply perm v = some (f v)) ∧ Function.Bijective f ∧
      ∀ v i k, perm[i]? = some k → (f v).getLsbD k.toNat = v.getLsbD i

/-! ## The table -/

@[simp] theorem length_identityTable (w : Nat) : (identityTable w).length = w := by
  simp [identityTable]

/-- Up to 256 entries, an entry holds its index. -/
theorem toNat_identityTable (hw : w ≤ 256) :
    (identityTable w).map BitVec.toNat = List.range w := by
  unfold identityTable
  rw [List.map_map]
  refine (List.map_congr_left fun i hi => ?_).trans (List.map_id _)
  have hlt := List.mem_range.mp hi
  rw [Function.comp_apply, BitVec.toNat_ofNat, Nat.mod_eq_of_lt (by omega)]
  rfl

/-- The accesses stay inside the table unless the last draw is the width. -/
theorem init_isSome_iff {gen : Nat → Nat} (hgen : Draws gen) :
    (init w gen).isSome = true ↔ w < 2 ∨ gen w ≠ w := by
  unfold init
  rw [randomShuffle_isSome_iff, length_identityTable]
  constructor
  · intro h
    by_contra hnot
    obtain ⟨h2, heq⟩ := not_or.mp hnot
    have hlast := h (w - 1) (by omega) (by omega)
    rw [Nat.sub_add_cancel (by omega), not_not.mp heq] at hlast
    exact lt_irrefl _ hlast
  · intro h k h1 hk
    have hle := hgen (k + 1)
    by_cases hlast : k + 1 = w
    · rw [hlast] at hle ⊢
      exact lt_of_le_of_ne hle (h.resolve_left (by omega))
    · omega

/-- A table of 8-bit entries cannot hold more than 256 indices. -/
theorem le_of_perm {perm : List (BitVec 8)} (h : (perm.map BitVec.toNat).Perm (List.range w)) :
    w ≤ 256 := by
  by_contra hw
  have hmem : 256 ∈ perm.map BitVec.toNat := h.mem_iff.mpr (List.mem_range.mpr (by omega))
  obtain ⟨k, _, hk⟩ := List.mem_map.mp hmem
  have hlt := k.isLt
  omega

/-! ## `operator()` -/

/-- The loop keeps the bits that are set and adds those it moves. -/
theorem applyLoop_spec {perm : List (BitVec 8)} (v : BitVec w) (n i : Nat) (ret : BitVec w)
    (hlen : i + n ≤ perm.length) (hw : i + n ≤ w) :
    ∃ r, applyLoop perm v n i ret = some r ∧ ∀ j, j < w → (r.getLsbD j = true ↔
      ret.getLsbD j = true ∨ ∃ m k, i ≤ m ∧ m < i + n ∧ perm[m]? = some k ∧ k.toNat = j ∧
        v.getLsbD m = true) := by
  induction n generalizing i ret with
  | zero =>
    refine ⟨ret, rfl, fun j _ => ⟨.inl, ?_⟩⟩
    rintro (h | ⟨m, k, him, hm, _⟩)
    · exact h
    · omega
  | succ n ih =>
    have hget := List.getElem?_eq_getElem (show i < perm.length by omega)
    obtain ⟨r, hr, hbits⟩ := ih (i + 1) (ret ||| moveBit v i (perm[i]).toNat) (by omega) (by omega)
    refine ⟨r, ?_, fun j hj => ?_⟩
    · unfold applyLoop
      rw [hget]
      exact hr
    · rw [hbits j hj, BitVec.getLsbD_or, getLsbD_moveBit v (by omega), Bool.or_eq_true, or_assoc]
      refine or_congr_right ?_
      simp only [hj, decide_true, Bool.true_and, Bool.and_eq_true, decide_eq_true_eq]
      constructor
      · rintro (⟨hji, hv⟩ | ⟨m, k, him, hm, hk⟩)
        · exact ⟨i, perm[i], le_refl i, by omega, hget, hji.symm, hv⟩
        · exact ⟨m, k, by omega, by omega, hk⟩
      · rintro ⟨m, k, him, hm, hk, hkj, hv⟩
        by_cases heq : m = i
        · subst heq
          rw [hget, Option.some.injEq] at hk
          exact .inl ⟨by rw [← hkj, hk], hv⟩
        · exact .inr ⟨m, k, by omega, by omega, hk, hkj, hv⟩

/-- With a permutation as table, `operator()` moves every bit. -/
theorem apply_spec {perm : List (BitVec 8)} (h : (perm.map BitVec.toNat).Perm (List.range w))
    (v : BitVec w) : ∃ r, apply perm v = some r ∧
      ∀ i k, perm[i]? = some k → r.getLsbD k.toNat = v.getLsbD i := by
  have hlen : perm.length = w := by simpa using h.length_eq
  have htable : 0 + w ≤ perm.length := by omega
  obtain ⟨r, hr, hbits⟩ := applyLoop_spec v w 0 0 htable (by omega)
  refine ⟨r, hr, fun i k hk => ?_⟩
  have hi : i < w := hlen ▸ (List.getElem?_eq_some_iff.mp hk).1
  have hkw : k.toNat < w := List.mem_range.mp
    (h.mem_iff.mp (List.mem_map_of_mem (List.mem_of_getElem? hk)))
  have hnodup : (perm.map BitVec.toNat).Nodup := h.nodup_iff.mpr List.nodup_range
  rw [Bool.eq_iff_iff, hbits k.toNat hkw]
  constructor
  · rintro (hzero | ⟨m, k', _, _, hk', heq, hv⟩)
    · simp at hzero
    · -- no other entry of the table is `k`
      have hsame : (perm.map BitVec.toNat)[m]? = (perm.map BitVec.toNat)[i]? := by
        rw [List.getElem?_map, List.getElem?_map, hk', hk, Option.map_some, Option.map_some, heq]
      have hm : m < (perm.map BitVec.toNat).length := by
        rw [List.length_map]
        exact (List.getElem?_eq_some_iff.mp hk').1
      rw [← (List.getElem?_inj hm hnodup).mp hsame]
      exact hv
  · exact fun hv => .inr ⟨i, k, by omega, by omega, hk, rfl, hv⟩

/-- A permutation as table makes `operator()` a bijection. -/
theorem exists_bijective {perm : List (BitVec 8)}
    (h : (perm.map BitVec.toNat).Perm (List.range w)) :
    ∃ f : BitVec w → BitVec w, (∀ v, apply perm v = some (f v)) ∧ Function.Bijective f ∧
      ∀ v i k, perm[i]? = some k → (f v).getLsbD k.toNat = v.getLsbD i := by
  choose f hf hbits using fun v : BitVec w => apply_spec h v
  have hlen : perm.length = w := by simpa using h.length_eq
  have hmoves : Moves (fun i => (perm[i]?.map BitVec.toNat).getD 0) f := by
    intro v i hi
    have hget := List.getElem?_eq_getElem (show i < perm.length by omega)
    show (f v).getLsbD ((perm[i]?.map BitVec.toNat).getD 0) = _
    rw [hget]
    exact hbits v i _ hget
  exact ⟨f, hf, hmoves.bijective, hbits⟩

/-- **When `bits_permutation` is a permutation**: the width is at most 256,
and the last draw is not the width. -/
theorem init_isPermutation_iff (w : Nat) (gen : Nat → Nat) (hgen : Draws gen) :
    IsPermutation w gen ↔ w ≤ 256 ∧ (w < 2 ∨ gen w ≠ w) := by
  rw [← init_isSome_iff hgen]
  constructor
  · rintro ⟨perm, hinit, hperm, _⟩
    exact ⟨le_of_perm hperm, by rw [hinit]; rfl⟩
  · rintro ⟨hw, hsome⟩
    obtain ⟨perm, hinit⟩ := Option.isSome_iff_exists.mp hsome
    have hperm : (perm.map BitVec.toNat).Perm (List.range w) := by
      rw [← toNat_identityTable hw]
      exact (randomShuffle_perm hinit).map _
    exact ⟨perm, hinit, hperm, exists_bijective hperm⟩

/-- Draws that reverse the bits of a byte: the second half changes places
with the first, and the first stays. -/
def reversingDraws (n : Nat) : Nat := if n ≤ 4 then n - 1 else 8 - n

theorem init_isPermutation_reversing :
    init 8 reversingDraws = some [7, 6, 5, 4, 3, 2, 1, 0] ∧ IsPermutation 8 reversingDraws :=
  ⟨by decide, (init_isPermutation_iff 8 reversingDraws (by
    intro n
    unfold reversingDraws
    split <;> omega)).mpr (by decide)⟩

/-- The last draw may be 8 for a byte, and then `_perm[8]` is accessed. -/
theorem not_init_isPermutation :
    Draws (fun n => if n = 8 then 8 else n - 1) ∧
      init 8 (fun n => if n = 8 then 8 else n - 1) = none ∧
      ¬ IsPermutation 8 fun n => if n = 8 then 8 else n - 1 := by
  have hnone : init 8 (fun n => if n = 8 then 8 else n - 1) = none := by decide
  refine ⟨?_, hnone, ?_⟩
  · intro n
    show (if n = 8 then 8 else n - 1) ≤ n
    split <;> omega
  · rintro ⟨perm, hinit, _⟩
    rw [hnone] at hinit
    cases hinit

end BitsPermutation

end Leeloo
