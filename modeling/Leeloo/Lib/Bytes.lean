/-
Leeloo.Lib.Bytes — words and text as bytes.

A word is stored with its low byte first. A character of a text is stored
as the byte of its code; `asChar` reads it back, and the text functions
apply to a stream of bytes through it.
-/
import Leeloo.Lib.Text

namespace Bytes

/-- The `n` low bytes of a number, the lowest first. -/
def ofNat : (n x : Nat) → List (BitVec 8)
  | 0, _ => []
  | n + 1, x => BitVec.ofNat 8 x :: ofNat n (x / 256)

/-- The number that bytes stand for, the lowest first. -/
def toNat (bs : List (BitVec 8)) : Nat := Nat.ofDigits 256 (bs.map BitVec.toNat)

@[simp] theorem length_ofNat (n x : Nat) : (ofNat n x).length = n := by
  induction n generalizing x with
  | zero => rfl
  | succ n ih => simp [ofNat, ih]

/-- Bytes give back what fits in them. -/
theorem toNat_ofNat (n x : Nat) : toNat (ofNat n x) = x % 256 ^ n := by
  induction n generalizing x with
  | zero => simp [ofNat, toNat, Nat.mod_one]
  | succ n ih =>
    have hcons : toNat (ofNat (n + 1) x) = x % 256 + 256 * toNat (ofNat n (x / 256)) := by
      simp [ofNat, toNat, Nat.ofDigits_cons]
    rw [hcons, ih, Nat.pow_succ, Nat.mul_comm (256 ^ n), Nat.mod_mul]

theorem toNat_eq_zero {bs : List (BitVec 8)} (h : ∀ b ∈ bs, b = 0) : toNat bs = 0 := by
  induction bs with
  | nil => rfl
  | cons b bs ih =>
    have hb : b = 0 := h b List.mem_cons_self
    have hbs : Nat.ofDigits 256 (bs.map BitVec.toNat) = 0 :=
      ih fun c hc => h c (List.mem_cons_of_mem _ hc)
    simp [toNat, Nat.ofDigits_cons, hb, hbs]

/-! ## Characters -/

/-- A byte as a character. -/
def asChar (b : BitVec 8) : Char := Char.ofNat b.toNat

/-- A character as a byte. -/
def ofChar (c : Char) : BitVec 8 := BitVec.ofNat 8 c.toNat

theorem asChar_ofChar {c : Char} (h : c.toNat < 256) : asChar (ofChar c) = c := by
  rw [asChar, ofChar, BitVec.toNat_ofNat, Nat.mod_eq_of_lt h, Char.ofNat_toNat]

/-- A text of digits is read back. -/
theorem map_asChar_ofChar {t : List Char} (h : t.all Text.isdigit = true) :
    (t.map ofChar).map asChar = t := by
  rw [List.map_map]
  refine (List.map_congr_left fun c hc => ?_).trans (List.map_id t)
  have hle : c.toNat ≤ '9'.toNat := (Text.isdigit_iff.mp (List.all_eq_true.mp h c hc)).2
  have h9 : '9'.toNat = 57 := rfl
  exact asChar_ofChar (by omega)

end Bytes
