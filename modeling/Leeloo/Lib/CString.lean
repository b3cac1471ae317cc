/-
Leeloo.Lib.CString — NUL-terminated strings and the functions of
`string.h` and `stdlib.h` that scan them.

A `char const*` is the list of the characters from the one it points at
to the terminating NUL, which is not part of the list; moving a pointer
forward by `n` is `List.drop n`. `read` returns `none` outside the string,
so a function that has read outside its string returns `none`.
`CString` is a whole string with the address it is stored at.
-/
import Leeloo.Lib.Text

/-- A NUL-terminated string in memory. -/
structure CString where
  chars : List Char
  /-- The address of its first character. -/
  addr : Nat
  noNul : '\x00' ∉ chars
  /-- The address past the NUL is still an address. -/
  fits : addr + chars.length + 1 < 2 ^ 64

namespace CString

/-- `p[i]`. -/
def read (p : List Char) (i : Nat) : Option Char :=
  if i = p.length then some '\x00' else p[i]?

/-- `strchr(p, c)` for `c` other than NUL, as an offset from `p`. -/
def strchr (p : List Char) (c : Char) : Option Nat := p.findIdx? (· == c)

/-- `memchr(p, c, n)`, as an offset from `p`. -/
def memchr (p : List Char) (c : Char) (n : Nat) : Option Nat := strchr (p.take n) c

/-- `strtol(p, nullptr, 10)`: white space, a sign, and as many digits as
there are. The value is clamped to a 64-bit `long`. -/
def strtol (p : List Char) : Int :=
  let magnitude (q : List Char) : Int := (Text.decimal (q.takeWhile Text.isdigit) : Int)
  let value : Int :=
    match p.dropWhile Text.isspace with
    | '-' :: q => -magnitude q
    | '+' :: q => magnitude q
    | q => magnitude q
  max (-2 ^ 63) (min value (2 ^ 63 - 1))

/-! ## Reading -/

theorem read_append_cons (p q : List Char) (c : Char) : read (p ++ c :: q) p.length = some c := by
  simp [read]

/-- A scan reads its characters one after the other. -/
theorem read_scan (p t rest : List Char) (c : Char) :
    read (p ++ c :: t ++ rest) p.length = some c := by
  rw [List.append_assoc]
  exact read_append_cons p (t ++ rest) c

/-- A read at the end of a part of the string stays inside the string. -/
theorem read_append (p q : List Char) : ∃ c, read (p ++ q) p.length = some c := by
  cases q with
  | nil => exact ⟨'\x00', by simp [read]⟩
  | cons c q => exact ⟨c, read_append_cons p q c⟩

theorem read_zero_append_cons (q : List Char) (c : Char) : read (c :: q) 0 = some c :=
  read_append_cons [] q c

/-- Nothing is read past the NUL. -/
theorem read_eq_none {p : List Char} {i : Nat} (h : p.length < i) : read p i = none := by
  simp only [read]
  rw [if_neg (by omega), List.getElem?_eq_none (by omega)]

/-- The pointer behind a separator. -/
theorem drop_append_cons (p q : List Char) (c : Char) : (p ++ c :: q).drop (p.length + 1) = q := by
  have hsplit : p ++ c :: q = (p ++ [c]) ++ q := by simp
  have hlen : p.length + 1 = (p ++ [c]).length := by simp
  rw [hsplit, hlen, List.drop_left]

/-! ## Searching -/

theorem strchr_eq_none {p : List Char} {c : Char} (h : c ∉ p) : strchr p c = none := by
  simp only [strchr, List.findIdx?_eq_none_iff, beq_eq_false_iff_ne]
  intro x hx hxc
  exact h (hxc ▸ hx)

theorem strchr_append_cons {p : List Char} {c : Char} (h : c ∉ p) (q : List Char) :
    strchr (p ++ c :: q) c = some p.length := by
  have hp : p.findIdx? (· == c) = none := strchr_eq_none h
  simp [strchr, List.findIdx?_append, List.findIdx?_cons, hp]

theorem memchr_eq_none {p : List Char} {c : Char} (h : c ∉ p) (q : List Char) :
    memchr (p ++ q) c p.length = none := by
  simp [memchr, strchr_eq_none h]

theorem memchr_append_cons {p : List Char} {c : Char} (h : c ∉ p) (q r : List Char) :
    memchr (p ++ c :: q ++ r) c (p ++ c :: q).length = some p.length := by
  rw [memchr, List.take_left, strchr_append_cons h]

/-! ## `strtol` -/

/-- The digits that `strtol` reads, behind white space and a sign. -/
def leadingDigits (u : List Char) : List Char :=
  match u.dropWhile Text.isspace with
  | '-' :: q => q.takeWhile Text.isdigit
  | '+' :: q => q.takeWhile Text.isdigit
  | q => q.takeWhile Text.isdigit

/-- Without a minus sign the number is clamped at the top only. -/
theorem strtol_of_notMem {u : List Char} (h : '-' ∉ u) :
    strtol u = ((min (Text.decimal (leadingDigits u)) (2 ^ 63 - 1) : Nat) : Int) := by
  have hdrop : '-' ∉ u.dropWhile Text.isspace := fun hmem =>
    h ((List.dropWhile_sublist _).subset hmem)
  have hclamp : ∀ n : Nat, max (-2 ^ 63) (min (n : Int) (2 ^ 63 - 1)) =
      ((min n (2 ^ 63 - 1) : Nat) : Int) := by
    intro n
    omega
  unfold strtol leadingDigits
  split
  · rename_i q hq
    simp [hq] at hdrop
  · exact hclamp _
  · exact hclamp _

/-- White space in front is skipped, and one sign. -/
theorem leadingDigits_cons {a : List Char} (ha : a.all Text.isspace = true) {x : Char}
    (hx : Text.isspace x = false) (v : List Char) :
    leadingDigits (a ++ x :: v) =
      if x = '-' ∨ x = '+' then v.takeWhile Text.isdigit else (x :: v).takeWhile Text.isdigit := by
  have hdrop : (a ++ x :: v).dropWhile Text.isspace = x :: v := by
    rw [List.dropWhile_append_of_pos (List.all_eq_true.mp ha)]
    simp [hx]
  unfold leadingDigits
  rw [hdrop]
  split
  · rename_i q hq
    cases hq
    simp
  · rename_i q hq
    cases hq
    simp
  · rename_i q hminus hplus
    rw [if_neg]
    rintro (rfl | rfl)
    · exact hminus v rfl
    · exact hplus v rfl

theorem leadingDigits_space {a : List Char} (ha : a.all Text.isspace = true) :
    leadingDigits a = [] := by
  have hdrop : a.dropWhile Text.isspace = [] := by
    rw [List.dropWhile_eq_nil_iff]
    exact List.all_eq_true.mp ha
  simp [leadingDigits, hdrop]

/-- Digits between white space and a character that is none. -/
theorem leadingDigits_numeral {a d b : List Char} (ha : a.all Text.isspace = true)
    (hd : d.all Text.isdigit = true) (hne : d ≠ []) (hb : ∀ c ∈ b.head?, Text.isdigit c = false) :
    leadingDigits (a ++ d ++ b) = d := by
  obtain ⟨c, d, rfl⟩ := List.exists_cons_of_ne_nil hne
  have hdigits : ∀ x ∈ c :: d, Text.isdigit x = true := List.all_eq_true.mp hd
  have hc : Text.isdigit c = true := hdigits c List.mem_cons_self
  have hsign : ¬ (c = '-' ∨ c = '+') := by
    rintro (rfl | rfl)
    · cases hc
    · cases hc
  rw [List.append_assoc, List.cons_append, leadingDigits_cons ha (Text.isspace_of_isdigit hc),
    if_neg hsign, ← List.cons_append, Text.takeWhile_append_of_head hb,
    List.takeWhile_eq_self_iff]
  exact hdigits

end CString
