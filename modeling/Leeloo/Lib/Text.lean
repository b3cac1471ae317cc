/-
Leeloo.Lib.Text — text as lists of characters: white space, decimal
digits, and the value of a decimal numeral.

The classes of characters are those of the C locale. `trim` drops the
white space at both ends, and a numeral is what is left.
-/
import Mathlib.Data.List.DropRight
import Mathlib.Data.Nat.Digits.Defs

namespace Text

/-- `isspace`: a blank, or one of the five controls from tab to carriage
return. -/
def isspace (c : Char) : Bool := c == ' ' || (decide ('\t' ≤ c) && decide (c ≤ '\r'))

/-- `isdigit`. -/
def isdigit (c : Char) : Bool := decide ('0' ≤ c) && decide (c ≤ '9')

/-- The value of one digit. -/
def digit (c : Char) : Nat := c.toNat - '0'.toNat

/-- The value of a text of digits, the most significant first. -/
def decimal (t : List Char) : Nat := Nat.ofDigits 10 (t.reverse.map digit)

/-- The text without the white space at its ends. -/
def trim (t : List Char) : List Char := (t.dropWhile isspace).rdropWhile isspace

/-! ## Characters -/

theorem isdigit_iff {c : Char} : isdigit c = true ↔ '0' ≤ c ∧ c ≤ '9' := by
  simp [isdigit]

/-- The test of the scanners, `(c < '0') || (c > '9')`. -/
theorem not_isdigit_iff {c : Char} : isdigit c = false ↔ c < '0' ∨ '9' < c := by
  rw [← Bool.not_eq_true, isdigit_iff, Classical.not_and_iff_not_or_not, Char.not_le, Char.not_le]

theorem digit_lt {c : Char} (h : isdigit c = true) : digit c < 10 := by
  have hle : c.toNat ≤ '9'.toNat := (isdigit_iff.mp h).2
  have h9 : '9'.toNat = 57 := rfl
  have h0 : '0'.toNat = 48 := rfl
  unfold digit
  omega

/-- A digit is not white space. -/
theorem isspace_of_isdigit {c : Char} (h : isdigit c = true) : isspace c = false := by
  obtain ⟨hlo, -⟩ := isdigit_iff.mp h
  have hblank : c ≠ ' ' := by
    intro hc
    subst hc
    exact absurd hlo (by decide)
  have hctrl : ¬ c ≤ '\r' := fun hle => absurd (Char.le_trans hlo hle) (by decide)
  simp [isspace, hblank, hctrl]

/-! ## Numerals -/

@[simp] theorem decimal_nil : decimal [] = 0 := rfl

theorem decimal_cons (c : Char) (t : List Char) :
    decimal (c :: t) = digit c * 10 ^ t.length + decimal t := by
  simp only [decimal, List.reverse_cons, List.map_append, List.map_cons, List.map_nil,
    Nat.ofDigits_append, Nat.ofDigits_singleton, List.length_map, List.length_reverse]
  ring

theorem decimal_lt {t : List Char} (h : t.all isdigit = true) : decimal t < 10 ^ t.length := by
  have hlt : ∀ x ∈ t.reverse.map digit, x < 10 := by
    intro x hx
    obtain ⟨c, hc, rfl⟩ := List.mem_map.mp hx
    exact digit_lt (List.all_eq_true.mp h c (List.mem_reverse.mp hc))
  simpa [decimal] using Nat.ofDigits_lt_base_pow_length (by omega) hlt

theorem decimal_append (t u : List Char) :
    decimal (t ++ u) = decimal t * 10 ^ u.length + decimal u := by
  induction t with
  | nil => simp
  | cons c t ih =>
    rw [List.cons_append, decimal_cons, decimal_cons, ih, List.length_append, Nat.pow_add]
    ring

/-! ## Writing a number -/

theorem digit_digitChar {n : Nat} (h : n < 10) :
    digit (Nat.digitChar n) = n ∧ isdigit (Nat.digitChar n) = true := by
  have hall : ∀ n < 10, digit (Nat.digitChar n) = n ∧ isdigit (Nat.digitChar n) = true := by decide
  exact hall n h

/-- The digits of a number are read back. -/
theorem decimal_toDigits (n : Nat) : decimal (Nat.toDigits 10 n) = n := by
  induction n using Nat.strongRecOn with
  | ind n ih =>
    have hmod : n % 10 < 10 := Nat.mod_lt n (by omega)
    rw [Nat.toDigits_eq_if (by omega)]
    split
    · rename_i h
      simpa [decimal_cons] using (digit_digitChar h).1
    · rw [decimal_append, decimal_cons, ih (n / 10) (by omega), (digit_digitChar hmod).1]
      simp
      omega

theorem all_isdigit_toDigits (n : Nat) : (Nat.toDigits 10 n).all isdigit = true := by
  rw [List.all_eq_true]
  intro c hc
  have h := Nat.isDigit_of_mem_toDigits (by omega) (by omega) hc
  simp only [Char.isDigit, ge_iff_le, Bool.and_eq_true, decide_eq_true_eq] at h
  exact isdigit_iff.mpr h

/-! ## Trimming -/

@[simp] theorem trim_nil : trim [] = [] := rfl

theorem trim_cons_of_isspace {c : Char} (h : isspace c = true) (t : List Char) :
    trim (c :: t) = trim t := by
  simp [trim, h]

theorem trim_cons_of_not_isspace {c : Char} (h : isspace c = false) (t : List Char) :
    trim (c :: t) = c :: t.rdropWhile isspace := by
  have hcons : List.rdropWhile isspace (c :: t) = c :: List.rdropWhile isspace t := by
    induction t using List.reverseRecOn with
    | nil => simp [List.rdropWhile_singleton, h]
    | append_singleton t x ih =>
      rw [← List.cons_append, List.rdropWhile_concat, List.rdropWhile_concat, ih]
      cases isspace x <;> simp
  simp [trim, h, hcons]

/-- White space in front does not matter. -/
theorem trim_append_left {a : List Char} (ha : a.all isspace = true) (t : List Char) :
    trim (a ++ t) = trim t := by
  induction a with
  | nil => rfl
  | cons c a ih =>
    simp only [List.all_cons, Bool.and_eq_true] at ha
    rw [List.cons_append, trim_cons_of_isspace ha.1, ih ha.2]

/-- White space behind does not matter. -/
theorem rdropWhile_append_right {b : List Char} (hb : b.all isspace = true) (t : List Char) :
    (t ++ b).rdropWhile isspace = t.rdropWhile isspace := by
  induction b using List.reverseRecOn with
  | nil => simp
  | append_singleton b c ih =>
    simp only [List.all_append, List.all_cons, List.all_nil, Bool.and_true,
      Bool.and_eq_true] at hb
    rw [← List.append_assoc, List.rdropWhile_concat_pos _ _ _ hb.2, ih hb.1]

/-- **A padded text trims to the text itself.** -/
theorem trim_padded {a m b : List Char} (ha : a.all isspace = true) (hb : b.all isspace = true)
    (hm : ∀ c ∈ m, isspace c = false) : trim (a ++ m ++ b) = m := by
  rw [List.append_assoc, trim_append_left ha]
  cases m with
  | nil => simpa [trim] using trim_append_left hb []
  | cons c m =>
    have hlast : m.rdropWhile isspace = m := by
      rw [List.rdropWhile_eq_self_iff]
      intro hne hspace
      exact absurd hspace (by simp [hm _ (List.mem_cons_of_mem c (List.getLast_mem hne))])
    rw [List.cons_append, trim_cons_of_not_isspace (hm c List.mem_cons_self),
      rdropWhile_append_right hb, hlast]

/-- The white space that is dropped. -/
theorem exists_padding (t : List Char) :
    ∃ a b, a.all isspace = true ∧ b.all isspace = true ∧ t = a ++ trim t ++ b := by
  have hback : ∀ u : List Char, ∃ b, b.all isspace = true ∧ u = u.rdropWhile isspace ++ b := by
    intro u
    induction u using List.reverseRecOn with
    | nil => exact ⟨[], rfl, rfl⟩
    | append_singleton u c ih =>
      obtain ⟨b, hb, hu⟩ := ih
      cases hc : isspace c with
      | false => exact ⟨[], rfl, by simp [hc]⟩
      | true =>
        refine ⟨b ++ [c], by simpa [hc] using hb, ?_⟩
        rw [List.rdropWhile_concat_pos _ _ _ hc, ← List.append_assoc, ← hu]
  obtain ⟨b, hb, hdrop⟩ := hback (t.dropWhile isspace)
  refine ⟨t.takeWhile isspace, b, List.all_takeWhile, hb, ?_⟩
  rw [trim, List.append_assoc, ← hdrop, List.takeWhile_append_dropWhile]

/-- Only white space is dropped. -/
theorem mem_trim_of_not_isspace {c : Char} {t : List Char} (hc : c ∈ t)
    (h : isspace c = false) : c ∈ trim t := by
  have hback : ∀ u : List Char, c ∈ u → c ∈ u.rdropWhile isspace := by
    intro u
    induction u using List.reverseRecOn with
    | nil => simp
    | append_singleton u x ih =>
      intro hmem
      rw [List.rdropWhile_concat]
      split
      · rename_i hx
        simp only [List.mem_append, List.mem_singleton] at hmem
        cases hmem with
        | inl hu => exact ih hu
        | inr he => subst he; simp [h] at hx
      · exact hmem
  refine hback _ ?_
  induction t with
  | nil => simp at hc
  | cons x t ih =>
    cases hx : isspace x with
    | false => simpa [List.dropWhile_cons, hx] using hc
    | true =>
      simp only [List.mem_cons] at hc
      cases hc with
      | inl he => subst he; simp [h] at hx
      | inr ht => simpa [List.dropWhile_cons, hx] using ih ht

/-- A prefix that is taken ends where the rest has no further character. -/
theorem takeWhile_append_of_head {q : Char → Bool} {r : List Char}
    (h : ∀ c ∈ r.head?, q c = false) (t : List Char) :
    (t ++ r).takeWhile q = t.takeWhile q := by
  induction t with
  | nil =>
    cases r with
    | nil => rfl
    | cons c r => simp [h c (by simp)]
  | cons c t ih =>
    cases hc : q c with
    | false => simp [hc]
    | true => simp [hc, ih]

/-! ## Pieces between separators -/

/-- A piece holds no separator. -/
theorem notMem_of_mem_splitOn {sep : Char} {t f : List Char} (h : f ∈ t.splitOn sep) : sep ∉ f := by
  induction t generalizing f with
  | nil => simp_all
  | cons x t ih =>
    rw [List.splitOn_cons_eq_if_modifyHead] at h
    split at h
    · cases List.mem_cons.mp h with
      | inl he => simp [he]
      | inr hf => exact ih hf
    · rename_i hx
      obtain ⟨g, gs, hsplit⟩ := List.exists_cons_of_ne_nil (List.splitOn_ne_nil sep t)
      rw [hsplit, List.modifyHead_cons] at h
      have hg : sep ∉ g := ih (by rw [hsplit]; exact List.mem_cons_self)
      cases List.mem_cons.mp h with
      | inl he =>
        rw [he, List.mem_cons, not_or]
        exact ⟨fun hsx => hx (by simp [hsx]), hg⟩
      | inr hf => exact ih (by rw [hsplit]; exact List.mem_cons_of_mem _ hf)

/-- A piece is part of the text. -/
theorem mem_of_mem_splitOn {sep c : Char} {t f : List Char} (h : f ∈ t.splitOn sep) (hc : c ∈ f) :
    c ∈ t := by
  induction t generalizing f with
  | nil =>
    simp only [List.splitOn_nil, List.mem_singleton] at h
    simp [h] at hc
  | cons x t ih =>
    rw [List.splitOn_cons_eq_if_modifyHead] at h
    split at h
    · cases List.mem_cons.mp h with
      | inl he => simp [he] at hc
      | inr hf => exact List.mem_cons_of_mem _ (ih hf hc)
    · obtain ⟨g, gs, hsplit⟩ := List.exists_cons_of_ne_nil (List.splitOn_ne_nil sep t)
      rw [hsplit, List.modifyHead_cons] at h
      cases List.mem_cons.mp h with
      | inl he =>
        rw [he, List.mem_cons] at hc
        refine List.mem_cons.mpr (hc.imp id fun hg => ih ?_ hg)
        rw [hsplit]
        exact List.mem_cons_self
      | inr hf =>
        refine List.mem_cons_of_mem _ (ih ?_ hc)
        rw [hsplit]
        exact List.mem_cons_of_mem _ hf

/-- A character that is no separator stands in a piece. -/
theorem exists_mem_splitOn {sep c : Char} {t : List Char} (hc : c ∈ t) (hne : c ≠ sep) :
    ∃ f ∈ t.splitOn sep, c ∈ f := by
  induction t with
  | nil => simp at hc
  | cons x t ih =>
    rw [List.splitOn_cons_eq_if_modifyHead]
    split
    · rename_i hx
      have hxc : c ≠ x := by
        rintro rfl
        exact hne (by simpa using hx)
      obtain ⟨f, hf, hcf⟩ := ih ((List.mem_cons.mp hc).resolve_left hxc)
      exact ⟨f, List.mem_cons_of_mem _ hf, hcf⟩
    · obtain ⟨g, gs, hsplit⟩ := List.exists_cons_of_ne_nil (List.splitOn_ne_nil sep t)
      rw [hsplit, List.modifyHead_cons]
      cases List.mem_cons.mp hc with
      | inl he => exact ⟨x :: g, List.mem_cons_self, by simp [he]⟩
      | inr ht =>
        obtain ⟨f, hf, hcf⟩ := ih ht
        rw [hsplit] at hf
        cases List.mem_cons.mp hf with
        | inl he => exact ⟨x :: g, List.mem_cons_self, by simp [← he, hcf]⟩
        | inr hmem => exact ⟨f, List.mem_cons_of_mem _ hmem, hcf⟩

/-- The only occurrence of a character splits a text in two. -/
theorem exists_split_of_count_one {s : List Char} {d : Char} (h : s.count d = 1) :
    ∃ t u, s = t ++ d :: u ∧ d ∉ t ∧ d ∉ u := by
  have hpos : 0 < s.count d := by omega
  obtain ⟨t, u, hstr, ht⟩ := List.eq_append_cons_of_mem (List.count_pos_iff.mp hpos)
  rw [hstr, List.count_append, List.count_cons_self] at h
  exact ⟨t, u, hstr, ht, List.count_eq_zero.mp (by omega)⟩

end Text
