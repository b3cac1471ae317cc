/-
Leeloo.Lib.RangePerm — self-maps of `[0, n)`.

A sequence of `n` values is a permutation of `0, …, n - 1` exactly when
the map that gives it is one-to-one (`map_range_perm_iff`). Composing with
a permutation of `[0, n)`, such as the cyclic positions from some start
on (`rotate`), changes nothing to that; adding an offset in a machine
word may (`wrappingOffset_injOn_iff`).
-/
import Mathlib.Data.List.Perm.Subperm
import Mathlib.Data.List.Range
import Mathlib.Data.Set.Finite.Basic
import Mathlib.Data.Nat.ModEq
import Mathlib.Order.Interval.Finset.Nat
import Leeloo.Lib.Word

namespace RangePerm

variable {n : Nat}

/-- One-to-one on `[0, n)` into itself is onto. -/
theorem surjOn_of_injOn {F : Nat → Nat} (hF : ∀ i < n, F i < n)
    (hinj : Set.InjOn F (Set.Iio n)) : Set.SurjOn F (Set.Iio n) (Set.Iio n) := by
  have hsurj : Set.SurjOn F (Finset.range n) (Finset.range n) := by
    apply Finset.surjOn_of_injOn_of_card_le
    · intro i hi
      simpa using hF i (by simpa using hi)
    · simpa using hinj
    · exact le_refl _
  simpa using hsurj

/-- **Listing `[0, n)` through a map.** The values are a permutation of
`[0, n)` exactly when the map is one-to-one. -/
theorem map_range_perm_iff {F : Nat → Nat} (hF : ∀ i < n, F i < n) :
    ((List.range n).map F).Perm (List.range n) ↔ Set.InjOn F (Set.Iio n) := by
  constructor
  · intro hperm
    have hnodup : ((List.range n).map F).Nodup := hperm.nodup_iff.mpr List.nodup_range
    intro i hi j hj hij
    exact List.inj_on_of_nodup_map hnodup (List.mem_range.mpr hi) (List.mem_range.mpr hj) hij
  · intro hinj
    have hnodup : ((List.range n).map F).Nodup := by
      apply List.Nodup.map_on _ List.nodup_range
      intro i hi j hj hij
      exact hinj (List.mem_range.mp hi) (List.mem_range.mp hj) hij
    have hsub : (List.range n).map F ⊆ List.range n := by
      intro x hx
      obtain ⟨i, hi, rfl⟩ := List.mem_map.mp hx
      exact List.mem_range.mpr (hF i (List.mem_range.mp hi))
    exact (hnodup.subperm hsub).perm_of_length_le (by simp)

/-- A function on words that computes a permutation of `[0, n)` permutes the
words below `n`. -/
theorem bijOn_words {w : Nat} {n : BitVec w} {f : BitVec w → BitVec w} {F : Nat → Nat}
    (hf : ∀ x < n, (f x).toNat = F x.toNat) (hF : ∀ i < n.toNat, F i < n.toNat)
    (hinj : Set.InjOn F (Set.Iio n.toNat)) : Set.BijOn f (Set.Iio n) (Set.Iio n) := by
  refine ⟨?_, ?_, ?_⟩
  · intro x hx
    show (f x).toNat < n.toNat
    rw [hf x hx]
    exact hF _ hx
  · intro x hx y hy h
    apply BitVec.eq_of_toNat_eq
    apply hinj hx hy
    rw [← hf x hx, ← hf y hy, h]
  · intro y hy
    obtain ⟨i, hi, heq⟩ := surjOn_of_injOn hF hinj (show y.toNat < n.toNat from hy)
    have hi : i < n.toNat := hi
    have hword : (BitVec.ofNat w i).toNat = i := by
      rw [BitVec.toNat_ofNat, Nat.mod_eq_of_lt (by have := n.isLt; omega)]
    have hlt : BitVec.ofNat w i < n := by
      rw [BitVec.lt_def, hword]
      exact hi
    exact ⟨BitVec.ofNat w i, hlt, BitVec.eq_of_toNat_eq (by rw [hf _ hlt, hword, heq])⟩

/-- The cyclic positions from `pos` on. -/
def rotate (n pos i : Nat) : Nat := (pos + i) % n

theorem rotate_lt {pos i : Nat} (hpos : pos < n) : rotate n pos i < n :=
  Nat.mod_lt _ (by omega)

theorem rotate_rotate (pos i j : Nat) : rotate n (rotate n pos i) j = rotate n pos (i + j) := by
  unfold rotate
  rw [Nat.mod_add_mod, Nat.add_assoc]

theorem rotate_injOn {pos : Nat} : Set.InjOn (rotate n pos) (Set.Iio n) := by
  intro i hi j hj h
  have hmod : i % n = j % n := Nat.ModEq.add_left_cancel' pos h
  rwa [Nat.mod_eq_of_lt hi, Nat.mod_eq_of_lt hj] at hmod

/-- Precomposing with a permutation of `[0, n)` keeps a map one-to-one, or
not. -/
theorem injOn_comp_iff {β : Type*} {G : Nat → β} {R : Nat → Nat} (hR : ∀ i < n, R i < n)
    (hinj : Set.InjOn R (Set.Iio n)) :
    Set.InjOn (fun i => G (R i)) (Set.Iio n) ↔ Set.InjOn G (Set.Iio n) := by
  constructor
  · intro h x hx y hy hxy
    obtain ⟨i, hi, rfl⟩ := surjOn_of_injOn hR hinj hx
    obtain ⟨j, hj, rfl⟩ := surjOn_of_injOn hR hinj hy
    rw [h hi hj hxy]
  · intro h
    exact h.comp hinj hR

/-- So does composing with one. -/
theorem injOn_comp_left_iff {G R : Nat → Nat} (hG : ∀ i < n, G i < n)
    (hinj : Set.InjOn R (Set.Iio n)) :
    Set.InjOn (fun i => R (G i)) (Set.Iio n) ↔ Set.InjOn G (Set.Iio n) := by
  constructor
  · intro h x hx y hy hxy
    have hR : R (G x) = R (G y) := by rw [hxy]
    exact h hx hy hR
  · intro h
    exact hinj.comp h hG

/-- **Adding an offset in a word of `W` values**, then reducing modulo `n`:
one-to-one exactly when no sum leaves the word. -/
theorem wrappingOffset_injOn_iff {W off : Nat} (hn : n < W) (hoff : off < n) :
    Set.InjOn (fun x => (x + off) % W % n) (Set.Iio n) ↔ off + n ≤ W := by
  constructor
  · intro h
    by_contra hgt
    -- both `n - off` and `W - off` go to 0: the first sum is `n`, the second wraps
    have hlow : (n - off + off) % W % n = 0 := by
      rw [Nat.sub_add_cancel (by omega), Nat.mod_eq_of_lt hn, Nat.mod_self]
    have hhigh : (W - off + off) % W % n = 0 := by
      rw [Nat.sub_add_cancel (by omega), Nat.mod_self, Nat.zero_mod]
    by_cases hoff0 : off = 0
    · omega
    · have heq : n - off = W - off :=
        h (show n - off < n by omega) (show W - off < n by omega) (hlow.trans hhigh.symm)
      omega
  · intro hle x hx y hy hxy
    have hx : x < n := hx
    have hy : y < n := hy
    simp only [Nat.mod_eq_of_lt (show x + off < W by omega),
      Nat.mod_eq_of_lt (show y + off < W by omega)] at hxy
    have hmod : x % n = y % n := Nat.ModEq.add_right_cancel' off hxy
    rwa [Nat.mod_eq_of_lt hx, Nat.mod_eq_of_lt hy] at hmod

end RangePerm
