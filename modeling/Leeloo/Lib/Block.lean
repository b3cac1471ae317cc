/-
Leeloo.Lib.Block — aligned blocks of `B` numbers, and the low-bit masks
that round a word to them.

`floor B n` starts the block of `n`. The lemmas compare a number with an
aligned bound, which is how block arguments reduce to linear ones.
-/
import Leeloo.Lib.Word

namespace Block

variable {B n a : Nat}

/-- The start of the block of `n`. -/
def floor (B n : Nat) : Nat := n - n % B

theorem floor_le (B n : Nat) : floor B n ≤ n := Nat.sub_le _ _

theorem floor_add_mod (B n : Nat) : floor B n + n % B = n :=
  Nat.sub_add_cancel (Nat.mod_le _ _)

theorem lt_floor_add (hB : 0 < B) (n : Nat) : n < floor B n + B := by
  have hadd := floor_add_mod B n
  have hlt := Nat.mod_lt n hB
  omega

theorem floor_eq_mul_div (B n : Nat) : floor B n = B * (n / B) := by
  have hadd := floor_add_mod B n
  have hdiv := Nat.div_add_mod n B
  omega

/-- A block starts at an aligned number. -/
theorem floor_mod (B n : Nat) : floor B n % B = 0 := by
  rw [floor_eq_mul_div, Nat.mul_mod_right]

theorem floor_of_mod_eq_zero (h : n % B = 0) : floor B n = n := by
  simp [floor, h]

theorem floor_lt_of_mod_ne_zero (h : n % B ≠ 0) : floor B n < n := by
  have hadd := floor_add_mod B n
  omega

/-- Two numbers share a block exactly when they have the same block
number. -/
theorem floor_eq_iff_div_eq (hB : 0 < B) {x v : Nat} :
    floor B x = floor B v ↔ x / B = v / B := by
  rw [floor_eq_mul_div, floor_eq_mul_div]
  exact Nat.mul_right_inj (by omega)

/-- An aligned number is below `n` exactly when it is below its block. -/
theorem le_floor_iff (hB : 0 < B) (ha : a % B = 0) : a ≤ floor B n ↔ a ≤ n := by
  constructor
  · intro h
    exact le_trans h (floor_le B n)
  · intro h
    rw [floor_eq_mul_div]
    obtain ⟨k, rfl⟩ := Nat.dvd_of_mod_eq_zero ha
    exact Nat.mul_le_mul_left B ((Nat.le_div_iff_mul_le hB).mpr (by rw [Nat.mul_comm]; exact h))

/-- An aligned number is above `n` exactly when it is above its block. -/
theorem floor_add_le_iff (hB : 0 < B) (ha : a % B = 0) : floor B n + B ≤ a ↔ n < a := by
  constructor
  · intro h
    have hlt := lt_floor_add hB n
    omega
  · intro h
    have hlt : floor B n < a := lt_of_le_of_lt (floor_le B n) h
    rw [floor_eq_mul_div] at hlt ⊢
    obtain ⟨k, rfl⟩ := Nat.dvd_of_mod_eq_zero ha
    have hk : n / B < k := Nat.lt_of_mul_lt_mul_left hlt
    calc B * (n / B) + B = B * (n / B + 1) := by ring
      _ ≤ B * k := Nat.mul_le_mul_left B hk

/-- A value below the end of the block of `n` starts no later block. -/
theorem floor_le_of_lt_floor_add (hB : 0 < B) {v : Nat} (h : v < floor B n + B) :
    floor B v ≤ floor B n := by
  have hmod : (floor B n + B) % B = 0 := by
    rw [Nat.add_mod_right, floor_mod]
  have hle := (floor_add_le_iff hB hmod).mpr h
  omega

theorem floor_mono (hB : 0 < B) {x v : Nat} (h : x ≤ v) : floor B x ≤ floor B v :=
  (le_floor_iff hB (floor_mod B x)).mpr (le_trans (floor_le B x) h)

/-! ## Rounding words -/

/-- The `k` low bits. -/
def lowMask (w k : Nat) : BitVec w := (1#w <<< k) - 1#w

variable {w k : Nat}

theorem lowMask_self (w : Nat) : lowMask w w = BitVec.allOnes w := by
  have hshift : 1#w <<< w = 0#w := BitVec.shiftLeft_eq_zero (Nat.le_refl w)
  rw [lowMask, hshift, BitVec.zero_sub, BitVec.neg_one_eq_allOnes]

theorem toNat_lowMask (hk : k ≤ w) : (lowMask w k).toNat = 2 ^ k - 1 := by
  rcases Nat.lt_or_eq_of_le hk with hlt | rfl
  · have hpow : 2 ^ k < 2 ^ w := Nat.pow_lt_pow_right (by omega) hlt
    have hpos := Nat.two_pow_pos k
    have hone : (1#w).toNat = 1 := Word.toNat_one (Nat.one_lt_two_pow (by omega))
    have hshift : (1#w <<< k).toNat = 2 ^ k := by
      rw [BitVec.toNat_shiftLeft, hone, Nat.shiftLeft_eq, Nat.one_mul, Nat.mod_eq_of_lt hpow]
    unfold lowMask
    rw [Word.toNat_sub_of_le (by rw [BitVec.le_def, hone, hshift]; omega), hshift, hone]
  · rw [lowMask_self, BitVec.toNat_allOnes]

/-- Keeping the low bits is the remainder. -/
theorem toNat_and_lowMask (hk : k ≤ w) (x : BitVec w) :
    (x &&& lowMask w k).toNat = x.toNat % 2 ^ k := by
  rw [BitVec.toNat_and, toNat_lowMask hk, Nat.and_two_pow_sub_one_eq_mod]

/-- A word is its bits outside a mask and its bits inside it. -/
theorem toNat_and_not_add_and (x m : BitVec w) :
    (x &&& ~~~m).toNat + (x &&& m).toNat = x.toNat := by
  have hzero : (x &&& ~~~m) &&& (x &&& m) = 0#w := by
    ext i hi
    simp only [BitVec.getElem_and, BitVec.getElem_not, BitVec.getElem_zero]
    cases x[i] <;> cases m[i] <;> rfl
  have hor : (x &&& ~~~m) ||| (x &&& m) = x := by
    ext i hi
    simp only [BitVec.getElem_and, BitVec.getElem_not, BitVec.getElem_or]
    cases x[i] <;> cases m[i] <;> rfl
  rw [← BitVec.toNat_add_of_and_eq_zero hzero, BitVec.add_eq_or_of_and_eq_zero _ _ hzero, hor]

/-- Setting the bits of a mask clears them and adds the mask. -/
theorem or_eq_and_not_add (x m : BitVec w) : x ||| m = (x &&& ~~~m) + m := by
  have hzero : (x &&& ~~~m) &&& m = 0#w := by
    ext i hi
    simp only [BitVec.getElem_and, BitVec.getElem_not, BitVec.getElem_zero]
    cases x[i] <;> cases m[i] <;> rfl
  rw [BitVec.add_eq_or_of_and_eq_zero _ _ hzero]
  ext i hi
  simp only [BitVec.getElem_and, BitVec.getElem_not, BitVec.getElem_or]
  cases x[i] <;> cases m[i] <;> rfl

/-- Clearing the low bits is rounding down. -/
theorem toNat_and_not_lowMask (hk : k ≤ w) (x : BitVec w) :
    (x &&& ~~~lowMask w k).toNat = floor (2 ^ k) x.toNat := by
  have hsplit := toNat_and_not_add_and x (lowMask w k)
  have hadd := floor_add_mod (2 ^ k) x.toNat
  rw [toNat_and_lowMask hk] at hsplit
  omega

/-- Setting the low bits and adding one is the start of the next block,
modulo `2^w`. -/
theorem toNat_or_lowMask_succ (hk : k ≤ w) (x : BitVec w) :
    ((x ||| lowMask w k) + 1#w).toNat = (floor (2 ^ k) x.toNat + 2 ^ k) % 2 ^ w := by
  have hpos := Nat.two_pow_pos k
  rw [or_eq_and_not_add, BitVec.toNat_add, BitVec.toNat_add, toNat_and_not_lowMask hk,
    toNat_lowMask hk, BitVec.toNat_ofNat, Nat.add_mod_mod, Nat.mod_add_mod]
  congr 1
  omega

/-! ## The block of a word -/

/-- Setting the low bits gives the last word of the block. -/
theorem toNat_or_lowMask (hk : k ≤ w) (x : BitVec w) :
    (x ||| lowMask w k).toNat = floor (2 ^ k) x.toNat + (2 ^ k - 1) := by
  have hpos := Nat.two_pow_pos k
  have hdvd : 2 ^ w % 2 ^ k = 0 := Nat.mod_eq_zero_of_dvd (Nat.pow_dvd_pow 2 hk)
  have hend : floor (2 ^ k) x.toNat + 2 ^ k ≤ 2 ^ w := (floor_add_le_iff hpos hdvd).mpr x.isLt
  rw [or_eq_and_not_add, BitVec.toNat_add, toNat_and_not_lowMask hk, toNat_lowMask hk,
    Nat.mod_eq_of_lt (by omega)]

/-- The words between the two are those of the block. -/
theorem between_iff_div_eq (hk : k ≤ w) {x v : BitVec w} :
    (x &&& ~~~lowMask w k ≤ v ∧ v ≤ x ||| lowMask w k) ↔
      v.toNat / 2 ^ k = x.toNat / 2 ^ k := by
  have hpos := Nat.two_pow_pos k
  rw [BitVec.le_def, BitVec.le_def, toNat_and_not_lowMask hk, toNat_or_lowMask hk,
    Nat.div_eq_iff hpos, floor_eq_mul_div, Nat.mul_comm (2 ^ k)]
  omega

/-- Words share a block exactly when they agree on the bits above it. -/
theorem div_eq_iff_getMsbD {p : Nat} (hp : p ≤ w) {x v : BitVec w} :
    v.toNat / 2 ^ (w - p) = x.toNat / 2 ^ (w - p) ↔ ∀ i < p, v.getMsbD i = x.getMsbD i := by
  have hbit : ∀ y : BitVec w, ∀ i < p,
      y.getMsbD i = (y.toNat / 2 ^ (w - p)).testBit (p - 1 - i) := by
    intro y i hi
    have hpos : w - 1 - i = p - 1 - i + (w - p) := by omega
    rw [BitVec.getMsbD_eq_getLsbD, BitVec.getLsbD, Nat.testBit_div_two_pow, hpos]
    simp
    omega
  constructor
  · intro h i hi
    rw [hbit v i hi, hbit x i hi, h]
  · intro h
    refine Nat.eq_of_testBit_eq fun j => ?_
    rcases Nat.lt_or_ge j p with hj | hj
    · have hagree := h (p - 1 - j) (by omega)
      rw [hbit v _ (by omega), hbit x _ (by omega)] at hagree
      have hsub : p - 1 - (p - 1 - j) = j := by omega
      rwa [hsub] at hagree
    · have hzero : ∀ y : BitVec w, (y.toNat / 2 ^ (w - p)).testBit j = false := by
        intro y
        have hle : 2 ^ w ≤ 2 ^ (j + (w - p)) := Nat.pow_le_pow_right (by omega) (by omega)
        rw [Nat.testBit_div_two_pow]
        exact Nat.testBit_lt_two_pow (Nat.lt_of_lt_of_le y.isLt hle)
      rw [hzero v, hzero x]

end Block
