/-
Leeloo.Address — the grammar of addresses, and that `ipv4toi` accepts
exactly its texts.

An address is given by its syntax: one to four octets of at most three
digits each, joined by dots. `value` is the 32-bit number it stands for,
where octets missing at the end count as zero. Neither mentions the
scanner.
-/
import Leeloo.BlockRange

namespace Leeloo

open Text IpsParser

/-- An address with one to four octets, as it is written. -/
structure Address where
  octets : List Octet
  short : ∀ o ∈ octets, o.Short
  ne_nil : octets ≠ []
  length_le : octets.length ≤ 4

namespace Address

def text (a : Address) : List Char := List.intercalate ['.'] (a.octets.map Octet.text)

/-- The octet at position `i`, zero when it is missing. -/
def octet (a : Address) (i : Nat) : Nat := (a.octets[i]?.map Octet.value).getD 0

def value (a : Address) : BitVec 32 := quad (a.octet 0) (a.octet 1) (a.octet 2) (a.octet 3)

/-- Written with all four octets. -/
def Full (a : Address) : Prop := a.octets.length = 4

/-- The address of four octets. -/
def four (a b c d : Octet) (h : a.Short ∧ b.Short ∧ c.Short ∧ d.Short) : Address where
  octets := [a, b, c, d]
  short := by
    intro o ho
    simp only [List.mem_cons, List.not_mem_nil, or_false] at ho
    obtain rfl | rfl | rfl | rfl := ho
    · exact h.1
    · exact h.2.1
    · exact h.2.2.1
    · exact h.2.2.2
  ne_nil := List.cons_ne_nil _ _
  length_le := Nat.le_refl 4

theorem octet_le (a : Address) (i : Nat) : a.octet i ≤ 255 := by
  unfold octet
  cases a.octets[i]? with
  | none => simp
  | some o => exact o.value_le

theorem splitOn_text (a : Address) : a.text.splitOn '.' = a.octets.map Octet.text := by
  refine List.splitOn_intercalate '.' ?_ (by simpa using a.ne_nil)
  intro t ht
  obtain ⟨o, -, rfl⟩ := List.mem_map.mp ht
  exact o.dot_notMem

theorem notMem_text (a : Address) {c : Char} (hdot : c ≠ '.') (hspace : isspace c = false)
    (hdigit : isdigit c = false) : c ∉ a.text := by
  intro h
  obtain ⟨t, ht, hc⟩ := exists_mem_splitOn h hdot
  rw [splitOn_text] at ht
  obtain ⟨o, -, rfl⟩ := List.mem_map.mp ht
  exact o.notMem_text hspace hdigit hc

end Address

/-! ## The grammar of one field -/

/-- A field with a value up to 255 is an octet. -/
theorem exists_octet_of_numeral3 {t : List Char} {n : Nat} (h : numeral3 t = some n)
    (hle : n ≤ 255) : ∃ o : Octet, o.Short ∧ o.text = t ∧ o.value = n := by
  obtain ⟨a, b, ha, hb, ht⟩ := exists_padding t
  simp only [numeral3, digits3] at h
  split at h
  · rename_i hd
    obtain ⟨hne, hlen, hall⟩ := hd
    cases h
    exact ⟨⟨a, trim t, b, ha, hb, hne, hall, hle⟩, hlen, ht.symm, rfl⟩
  · cases h

/-! ## The grammar of addresses -/

/-- The value of octets in a row. -/
def octetsValue (v : Nat) (os : List Octet) : Nat := os.foldl (fun v o => 256 * v + o.value) v

theorem dottedTail_octets {minDots k : Nat} (v : Nat) {os : List Octet}
    (hshort : ∀ o ∈ os, o.Short) (hle : k + os.length ≤ 4) :
    dottedTail minDots k v (os.map Octet.text) =
      if minDots < k + os.length then
        some (BitVec.ofNat 32 (2 ^ (8 * (4 - (k + os.length))) * octetsValue v os))
      else none := by
  induction os generalizing k v with
  | nil => simp [dottedTail, octetsValue]
  | cons o os ih =>
    simp only [List.length_cons] at hle
    have hlen : k + 1 + os.length = k + (os.length + 1) := by omega
    rw [List.map_cons, o.dottedTail_cons (by omega), if_pos (hshort o List.mem_cons_self),
      ih _ (fun o ho => hshort o (List.mem_cons_of_mem _ ho)) (by omega), hlen]
    rfl

/-- What is read is made of octets. -/
theorem exists_octets_of_dottedTail {minDots k v : Nat} {fs : List (List Char)} {x : BitVec 32}
    (hk : k ≤ 4) (h : dottedTail minDots k v fs = some x) :
    ∃ os : List Octet, os.map Octet.text = fs ∧ (∀ o ∈ os, o.Short) ∧ k + os.length ≤ 4 := by
  induction fs generalizing k v with
  | nil => exact ⟨[], rfl, by simp, by simpa using hk⟩
  | cons f fs ih =>
    simp only [dottedTail] at h
    split at h
    · cases h
    · cases hf : numeral3 f with
      | none => simp [hf] at h
      | some n =>
        simp only [hf] at h
        split at h
        · cases h
        · rename_i hk4 hn
          obtain ⟨o, hshort, htext, -⟩ := exists_octet_of_numeral3 hf (Nat.le_of_not_lt hn)
          obtain ⟨os, hos, hall, hle⟩ := ih (by omega) h
          refine ⟨o :: os, by simp [htext, hos], ?_, by simp; omega⟩
          intro x hx
          cases List.mem_cons.mp hx with
          | inl he => exact he ▸ hshort
          | inr hmem => exact hall x hmem

namespace Address

/-- The octets in a row, and the zeros behind them. -/
theorem ofNat_octetsValue (a : Address) :
    BitVec.ofNat 32 (2 ^ (8 * (4 - a.octets.length)) * octetsValue 0 a.octets) = a.value := by
  obtain ⟨os, hshort, hne, hle⟩ := a
  match os, hne, hle with
  | [a], _, _ => simp [octetsValue, value, octet, quad]
  | [a, b], _, _ =>
    simp only [octetsValue, value, octet, quad]
    congr 1
    simp
    ring
  | [a, b, c], _, _ =>
    simp only [octetsValue, value, octet, quad]
    congr 1
    simp
    ring
  | [a, b, c, d], _, _ =>
    simp only [octetsValue, value, octet, quad]
    congr 1
    simp
    ring

theorem dotted_text (a : Address) (minDots : Nat) :
    dotted minDots a.text = if minDots < a.octets.length then some a.value else none := by
  rw [dotted, splitOn_text, dottedTail_octets 0 a.short (by simpa using a.length_le)]
  simp [a.ofNat_octetsValue]

theorem dotted_full {a : Address} (h : a.Full) : dotted 3 a.text = some a.value := by
  rw [dotted_text, if_pos (by rw [h]; omega)]

theorem dotted_zero (a : Address) : dotted 0 a.text = some a.value := by
  rw [dotted_text, if_pos (List.length_pos_of_ne_nil a.ne_nil)]

/-- **The texts of addresses are the texts with a value.** -/
theorem dotted_eq_some_iff {minDots : Nat} {t : List Char} {x : BitVec 32} :
    dotted minDots t = some x ↔
      ∃ a : Address, a.text = t ∧ minDots < a.octets.length ∧ a.value = x := by
  constructor
  · intro h
    obtain ⟨os, hos, hshort, hle⟩ := exists_octets_of_dottedTail (by omega) h
    have hne : os ≠ [] := by
      intro hnil
      simp [hnil] at hos
    have htext : List.intercalate ['.'] (os.map Octet.text) = t := by
      rw [hos, List.intercalate_splitOn]
    let a : Address := ⟨os, hshort, hne, by omega⟩
    have hdotted := a.dotted_text minDots
    have ha : a.text = t := htext
    rw [ha, h] at hdotted
    split at hdotted
    · rename_i hlt
      exact ⟨a, htext, hlt, (Option.some.inj hdotted).symm⟩
    · cases hdotted
  · rintro ⟨a, rfl, hlt, rfl⟩
    rw [dotted_text, if_pos hlt]

/-- **`ipv4toi` accepts exactly the addresses with more than `minDots`
octets, and gives their value.** -/
theorem ipv4toi_grammar (str : CString) (minDots : Nat) :
    ∃ ret valid, ipv4toi str.chars str.chars.length minDots = some (ret, valid) ∧
      (valid = true ↔ ∃ a : Address, a.text = str.chars ∧ minDots < a.octets.length) ∧
      ∀ a : Address, a.text = str.chars → minDots < a.octets.length → ret = a.value := by
  have hcases := ipv4toi_cases minDots str.chars []
  rw [List.append_nil] at hcases
  obtain ⟨x, hrun, hx⟩ | ⟨x, hrun, hx⟩ := hcases
  · obtain ⟨a, htext, hlt, -⟩ := dotted_eq_some_iff.mp hx
    refine ⟨x, true, hrun, iff_of_true rfl ⟨a, htext, hlt⟩, ?_⟩
    intro b hb hlen
    have hdotted := b.dotted_text minDots
    rw [hb, hx, if_pos hlen] at hdotted
    exact Option.some.inj hdotted
  · have hno : ∀ a : Address, a.text = str.chars → ¬ minDots < a.octets.length := by
      intro a ha hlt
      rw [dotted_eq_some_iff.mpr ⟨a, ha, hlt, rfl⟩] at hx
      cases hx
    refine ⟨x, false, hrun, iff_of_false (by simp) ?_, fun a ha hlt => absurd hlt (hno a ha)⟩
    rintro ⟨a, ha, hlt⟩
    exact hno a ha hlt

/-- **Four fields for `min_dots = 3`, and one to four for `min_dots = 0`.** -/
theorem ipv4toi_accepts (str : CString) :
    (∃ ret valid, ipv4toi str.chars str.chars.length 3 = some (ret, valid) ∧
      (valid = true ↔ ∃ a : Address, a.text = str.chars ∧ a.Full) ∧
      ∀ a : Address, a.text = str.chars → a.Full → ret = a.value) ∧
    (∃ ret valid, ipv4toi str.chars str.chars.length 0 = some (ret, valid) ∧
      (valid = true ↔ ∃ a : Address, a.text = str.chars) ∧
      ∀ a : Address, a.text = str.chars → ret = a.value) := by
  have hfull : ∀ a : Address, a.Full ↔ 3 < a.octets.length := by
    intro a
    have hle := a.length_le
    unfold Full
    omega
  have hpos : ∀ a : Address, 0 < a.octets.length := fun a => List.length_pos_of_ne_nil a.ne_nil
  have hthree := ipv4toi_grammar str 3
  have hzero := ipv4toi_grammar str 0
  simp only [hpos, and_true, forall_const] at hzero
  simp only [hfull]
  exact ⟨hthree, hzero⟩

end Address

end Leeloo
