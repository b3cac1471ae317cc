/-
Leeloo.Lib.Word — fixed-width words in their unsigned order.

`BitVec w` already has `≤`, `<` and their decision procedures; the
instance below packages them as a `LinearOrder`, so that `min`, `max` and
the order lemmas apply to words. The order is the one of `BitVec.toNat`,
which is what the lemmas here rewrite to.
-/
import Mathlib.Order.Defs.LinearOrder
import Mathlib.Data.BitVec
import Mathlib.Tactic.Ring

namespace Word

variable {w : Nat}

instance instLinearOrder : LinearOrder (BitVec w) where
  le_refl := BitVec.le_refl
  le_trans _ _ _ := BitVec.le_trans
  le_antisymm _ _ := BitVec.le_antisymm
  le_total := BitVec.le_total
  lt_iff_le_not_ge a b := by simp only [BitVec.le_def, BitVec.lt_def]; omega
  toDecidableLE := inferInstance
  toDecidableEq := inferInstance
  toDecidableLT := inferInstance

/-- One is one as soon as it fits. -/
theorem toNat_one (h : 1 < 2 ^ w) : (1 : BitVec w).toNat = 1 := by
  show (BitVec.ofNat w 1).toNat = 1
  rw [BitVec.toNat_ofNat, Nat.mod_eq_of_lt h]

/-- Subtraction of a smaller word does not wrap. -/
theorem toNat_sub_of_le {a b : BitVec w} (h : b ≤ a) :
    (a - b).toNat = a.toNat - b.toNat :=
  BitVec.toNat_sub_of_le h

theorem toNat_max (a b : BitVec w) : (max a b).toNat = max a.toNat b.toNat := by
  rcases le_total a b with h | h
  · rw [max_eq_right h, max_eq_right (BitVec.le_def.mp h)]
  · rw [max_eq_left h, max_eq_left (BitVec.le_def.mp h)]

/-- A word that is widened and narrowed again is the same word. -/
theorem setWidth_setWidth {s : Nat} (h : w ≤ s) (x : BitVec w) :
    (x.setWidth s).setWidth w = x := by
  rw [BitVec.setWidth_setWidth_of_le x h, BitVec.setWidth_eq]

/-- The midpoint of two words, as computed from their wrapped sum. -/
theorem toNat_add_div_two {a b : BitVec w} (h : 2 < 2 ^ w) :
    ((b + a) / 2).toNat = (b.toNat + a.toNat) % 2 ^ w / 2 := by
  have htwo : (2 : BitVec w).toNat = 2 := by
    show (BitVec.ofNat w 2).toNat = 2
    rw [BitVec.toNat_ofNat, Nat.mod_eq_of_lt h]
  rw [BitVec.toNat_udiv, BitVec.toNat_add, htwo]

/-- The last multiple of `b` up to `a` does not wrap. -/
theorem toNat_div_mul (a b : BitVec w) : (a / b * b).toNat = a.toNat / b.toNat * b.toNat := by
  have hle : a.toNat / b.toNat * b.toNat ≤ a.toNat := Nat.div_mul_le_self _ _
  have ha := a.isLt
  rw [BitVec.toNat_mul, BitVec.toNat_udiv, Nat.mod_eq_of_lt (by omega)]

/-- What that multiple leaves is the remainder. -/
theorem toNat_sub_div_mul (a b : BitVec w) : (a - a / b * b).toNat = a.toNat % b.toNat := by
  have hle : a / b * b ≤ a := by
    rw [BitVec.le_def, toNat_div_mul]
    exact Nat.div_mul_le_self _ _
  have hdiv := Nat.div_add_mod' a.toNat b.toNat
  rw [toNat_sub_of_le hle, toNat_div_mul]
  omega

/-- A loop that counts in steps of `d` up to a multiple of `d` stays on the
multiples of `d`, and does not wrap. -/
theorem toNat_add_multiple {i d full : BitVec w} {k q : Nat} (hi : i.toNat = k * d.toNat)
    (hfull : full.toNat = q * d.toNat) (hlt : i < full) :
    k < q ∧ (k + 1) * d.toNat ≤ full.toNat ∧ (i + d).toNat = (k + 1) * d.toNat := by
  have hkq : k < q := by
    rw [BitVec.lt_def, hi, hfull] at hlt
    exact Nat.lt_of_mul_lt_mul_right hlt
  have hstep : (k + 1) * d.toNat ≤ full.toNat := by
    rw [hfull]
    exact Nat.mul_le_mul_right _ hkq
  have hsucc : (k + 1) * d.toNat = k * d.toNat + d.toNat := Nat.succ_mul _ _
  have hword := full.isLt
  refine ⟨hkq, hstep, ?_⟩
  rw [BitVec.toNat_add_of_lt (by omega)]
  omega

/-- A difference is zero exactly between equal words. -/
theorem sub_eq_zero_iff {a b : BitVec w} : a - b = 0 ↔ a = b := by
  constructor
  · intro h
    have hb : a = a - b + b := (BitVec.sub_add_cancel a b).symm
    rw [h] at hb
    simpa using hb
  · rintro rfl
    exact BitVec.sub_self a

/-- Counting down from the top of a difference counts up from its bottom,
modulo `2^w`. -/
theorem sub_sub_sub (u l c : BitVec w) : u - (u - l - c) = l + c := by ring

/-- A left shift multiplies by a power of two. -/
theorem ofNat_shiftLeft (a n : Nat) :
    (BitVec.ofNat w a) <<< n = BitVec.ofNat w (a * 2 ^ n) := by
  rw [BitVec.toNat_eq]
  simp [Nat.shiftLeft_eq, Nat.mul_mod]

/-- Bits below those of a multiple of `2^i` are added to it. -/
theorem ofNat_or_of_lt {a b i : Nat} (h : b < 2 ^ i) :
    BitVec.ofNat w (2 ^ i * a) ||| BitVec.ofNat w b = BitVec.ofNat w (2 ^ i * a + b) := by
  rw [Nat.two_pow_add_eq_or_of_lt h, BitVec.ofNat_or]

/-- Only zero is not above zero. -/
theorem pos_iff_ne_zero {a : BitVec w} : 0 < a ↔ a ≠ 0 := by
  rw [BitVec.lt_def, ne_eq, BitVec.toNat_eq]
  simp only [BitVec.ofNat_eq_ofNat, BitVec.toNat_ofNat, Nat.zero_mod]
  omega

/-- Zero is the least word. -/
theorem zero_le (a : BitVec w) : 0 ≤ a := by
  simp [BitVec.le_def]

/-! ## Words with one bit -/

theorem cpopNatRec_eq_countP (x : BitVec w) (n acc : Nat) :
    x.cpopNatRec n acc = acc + (List.range n).countP x.getLsbD := by
  induction n generalizing acc with
  | zero => simp
  | succ n ih =>
    rw [BitVec.cpopNatRec_succ, ih, List.range_succ, List.countP_append, List.countP_singleton]
    cases x.getLsbD n <;> simp
    omega

/-- The population count is one exactly for the powers of two. -/
theorem toNat_cpop_eq_one_iff {x : BitVec w} :
    x.cpop.toNat = 1 ↔ ∃ k < w, x = BitVec.twoPow w k := by
  rw [BitVec.toNat_cpop, cpopNatRec_eq_countP, Nat.zero_add, List.countP_eq_length_filter]
  constructor
  · intro h
    obtain ⟨k, hk⟩ := List.length_eq_one_iff.mp h
    have hmem : ∀ i, (i < w ∧ x.getLsbD i = true) ↔ i = k := by
      intro i
      rw [← List.mem_range, ← List.mem_filter, hk, List.mem_singleton]
    obtain ⟨hlt, hbit⟩ := (hmem k).mpr rfl
    refine ⟨k, hlt, BitVec.eq_of_getLsbD_eq fun i hi => ?_⟩
    rw [BitVec.getLsbD_twoPow, Bool.eq_iff_iff]
    have hiff := hmem i
    simp only [hi, true_and] at hiff
    simp [hiff, hlt]
    omega
  · rintro ⟨k, hk, rfl⟩
    have hfilter : (List.range w).filter (BitVec.twoPow w k).getLsbD =
        (List.range w).filter (· == k) := by
      refine List.filter_congr fun i _ => ?_
      rw [BitVec.getLsbD_twoPow, Bool.eq_iff_iff]
      simp only [hk, decide_true, Bool.true_and, decide_eq_true_eq, beq_iff_eq]
      exact eq_comm
    rw [hfilter, ← List.countP_eq_length_filter]
    have hone := List.count_eq_one_of_mem (List.nodup_range (n := w)) (List.mem_range.mpr hk)
    simpa [List.count] using hone

/-- Counting the zeros below the bit gives its place. -/
theorem toNat_ctz_twoPow {k : Nat} (hk : k < w) : (BitVec.twoPow w k).ctz.toNat = k := by
  have hne : BitVec.twoPow w k ≠ 0#w := by
    intro h
    have hbit : (BitVec.twoPow w k).getLsbD k = true := by simp [hk]
    rw [h] at hbit
    simp at hbit
  have hbit := BitVec.getLsbD_true_ctz_of_ne_zero hne
  rw [BitVec.getLsbD_twoPow] at hbit
  simp at hbit
  omega

end Word
