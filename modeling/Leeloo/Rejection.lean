/-
Leeloo.Rejection — which malformed entries `parse_ips_add` and
`parse_ips_remove` reject.

Two kinds are looked at: a slash with something else than a prefix length
behind it, and an octet above 255. The prefix length goes through `strtol`
with nothing checked behind the digits, and the bytes of a block range are
compared with the error value only, so some entries of both kinds are
accepted; each theorem says which.
-/
import Leeloo.Entry

namespace Leeloo

open Text IpsParser
open CString (leadingDigits)
open IpListIntervals (appended)

namespace IpsParser

/-- Both calls return `false` and leave the lists as they were. -/
def Rejected (str : CString) (l : IpListIntervals) : Prop :=
  parseIpsAdd l str = some (false, l) ∧ parseIpsRemove l str = some (false, l)

theorem rejected_of_forall {str : CString} {l : IpListIntervals}
    (h : ∀ exclude, parseIps exclude l str = some (false, l)) : Rejected str l :=
  ⟨h false, h true⟩

theorem not_rejected_of_ne {str : CString} {l : IpListIntervals}
    (h : parseIps false l str ≠ some (false, l)) : ¬ Rejected str l :=
  fun hr => h hr.1

/-! ## What stands behind the slash -/

/-- A number from 0 to 32, with white space around it. -/
def IsPrefixLength (u : List Char) : Prop := ∃ p : Octet, p.text = u ∧ p.value ≤ 32

/-- The CIDR branch inserts, or shifts by a negative count. -/
theorem parseCidr_rejects_iff {str : CString} {t u : List Char} (hstr : str.chars = t ++ '/' :: u)
    (ht : '/' ∉ t) (hu : '-' ∉ u) (exclude : Bool) (l : IpListIntervals) :
    parseCidr exclude l str = some (false, l) ↔
      (¬ ∃ a : Address, a.text = t) ∨ 2 ^ 31 ≤ longOf u % 2 ^ 32 := by
  have hinsert : ∀ ip p, (IpListIntervals.insertCidr exclude l ip p).map (fun l => (true, l)) ≠
      some (false, l) := by
    intro ip p
    cases IpListIntervals.insertCidr exclude l ip p <;> simp
  rw [parseCidr_text exclude l hstr ht, ← cidrOf_neg_iff hu]
  by_cases hneg : cidrOf u < 0
  · rw [if_pos hneg]
    exact iff_of_true rfl (Or.inr hneg)
  · rw [if_neg hneg, or_iff_left hneg]
    cases hd : dotted 0 t with
    | none =>
      refine iff_of_true rfl ?_
      rintro ⟨a, rfl⟩
      rw [a.dotted_zero] at hd
      cases hd
    | some ip =>
      obtain ⟨a, ha, -⟩ := Address.dotted_eq_some_iff.mp hd
      exact iff_of_false (hinsert ip _) (fun h => h ⟨a, ha⟩)

/-- **Without a dash, what stands behind the first slash is checked for a
second slash and for the sign bit of its number, and for nothing else.** -/
theorem malformed_prefix_rejected_iff (str : CString) {t u : List Char}
    (hstr : str.chars = t ++ '/' :: u) (ht : '/' ∉ t) (hdash : '-' ∉ str.chars)
    (l : IpListIntervals) :
    (¬ IsPrefixLength u → Rejected str l) ↔
      IsPrefixLength u ∨ '/' ∈ u ∨ (¬ ∃ a : Address, a.text = t) ∨
        2 ^ 31 ≤ longOf u % 2 ^ 32 := by
  have hu : '-' ∉ u := fun h => hdash (by simp [hstr, h])
  have hnodash : str.chars.count '-' = 0 := List.count_eq_zero_of_not_mem hdash
  have hslash : str.chars.count '/' = u.count '/' + 1 := by
    simp [hstr, List.count_eq_zero_of_not_mem ht]
  have hparse : ∀ exclude, parseIps exclude l str =
      if 0 < u.count '/' then some (false, l) else parseCidr exclude l str := by
    intro exclude
    rw [parseIps_eq, hnodash, hslash]
    simp
  rw [← Classical.or_iff_not_imp_left]
  refine or_congr_right ?_
  by_cases hmem : '/' ∈ u
  · refine iff_of_true (rejected_of_forall fun exclude => ?_) (Or.inl hmem)
    rw [hparse, if_pos (List.count_pos_iff.mpr hmem)]
  · have hcidr : ∀ exclude, parseIps exclude l str = parseCidr exclude l str := by
      intro exclude
      rw [hparse, if_neg (fun h => hmem (List.count_pos_iff.mp h))]
    rw [or_iff_right hmem, ← parseCidr_rejects_iff hstr ht hu false l]
    constructor
    · intro h
      rw [← hcidr]
      exact h.1
    · intro h
      refine rejected_of_forall fun exclude => ?_
      rw [hcidr, parseCidr_rejects_iff hstr ht hu]
      exact (parseCidr_rejects_iff hstr ht hu false l).mp h

theorem malformed_prefix_rejected_noAddress :
    ¬ IsPrefixLength "24x".toList ∧
    Rejected ⟨"10..1/24x".toList, 4096, by decide, by decide⟩ {} := by
  have hbad : ¬ IsPrefixLength "24x".toList := by
    rintro ⟨p, hp, -⟩
    exact p.notMem_text (c := 'x') rfl rfl (by rw [hp]; decide)
  have hno : ¬ ∃ a : Address, a.text = "10..1".toList := by
    rintro ⟨a, ha⟩
    have h := a.dotted_zero
    have hnone : dotted 0 "10..1".toList = none := by decide
    rw [ha, hnone] at h
    cases h
  exact ⟨hbad, (malformed_prefix_rejected_iff ⟨"10..1/24x".toList, 4096, by decide, by decide⟩
    (t := "10..1".toList) (u := "24x".toList) rfl (by decide) (by decide) {}).mpr
      (Or.inr (Or.inr (Or.inl hno))) hbad⟩

/-- Trailing garbage is accepted. -/
theorem malformed_prefix_accepted :
    ¬ IsPrefixLength "8abc".toList ∧
    parseIpsAdd {} ⟨"10/8abc".toList, 4096, by decide, by decide⟩ =
      some (true, { intervals := [⟨0x0A000000, 0x0B000000⟩] }) ∧
    ¬ Rejected ⟨"10/8abc".toList, 4096, by decide, by decide⟩ {} := by
  refine ⟨?_, by decide, ?_⟩
  · rintro ⟨p, hp, -⟩
    exact p.notMem_text (c := 'a') rfl rfl (by rw [hp]; decide)
  · exact not_rejected_of_ne (by decide)

/-! ## Octets above 255 -/

/-- The pieces of a text between its dots and dashes. -/
def pieces (t : List Char) : List (List Char) := (t.splitOn '-').flatMap (·.splitOn '.')

/-- What stands where an octet or an end of an octet range does: every
piece between dots, dashes and slashes but the one behind a slash. -/
def octetTexts (s : List Char) : List (List Char) :=
  match s.splitOn '/' with
  | [] => []
  | t :: us => pieces t ++ us.flatMap fun u => (pieces u).tail

/-- A decimal number above 255, with white space around it. -/
def IsLarge (f : List Char) : Prop :=
  trim f ≠ [] ∧ (trim f).all isdigit = true ∧ 255 < decimal (trim f)

instance (f : List Char) : Decidable (IsLarge f) := inferInstanceAs (Decidable (_ ∧ _))

def HasLargeOctet (s : List Char) : Prop := ∃ f ∈ octetTexts s, IsLarge f

instance (s : List Char) : Decidable (HasLargeOctet s) :=
  inferInstanceAs (Decidable (∃ f ∈ octetTexts s, IsLarge f))

theorem lt_of_isLarge {f : List Char} (h : IsLarge f) {n : Nat} (hn : numeral3 f = some n) :
    255 < n := by
  simp only [numeral3, digits3] at hn
  split at hn
  · cases hn
    exact h.2.2
  · cases hn

theorem pieces_of_notMem {t : List Char} (h : '-' ∉ t) : pieces t = t.splitOn '.' := by
  simp [pieces, List.splitOn_eq_singleton h]

theorem pieces_dash {t u : List Char} (ht : '-' ∉ t) (hu : '-' ∉ u) :
    pieces (t ++ '-' :: u) = t.splitOn '.' ++ u.splitOn '.' := by
  simp [pieces, List.splitOn_append_cons_self_of_not_mem ht, List.splitOn_eq_singleton hu]

theorem octetTexts_of_notMem {s : List Char} (h : '/' ∉ s) : octetTexts s = pieces s := by
  simp [octetTexts, List.splitOn_eq_singleton h]

/-- `ipv4toi` reads no large octet. -/
theorem dottedTail_of_isLarge {minDots k v : Nat} {fs : List (List Char)}
    (h : ∃ f ∈ fs, IsLarge f) : dottedTail minDots k v fs = none := by
  induction fs generalizing k v with
  | nil => simp at h
  | cons f fs ih =>
    simp only [dottedTail]
    split
    · rfl
    · cases hf : numeral3 f with
      | none => rfl
      | some n =>
        simp only
        split
        · rfl
        · rename_i hn
          obtain ⟨g, hg, hlarge⟩ := h
          cases List.mem_cons.mp hg with
          | inl he => exact absurd (lt_of_isLarge (he ▸ hlarge) hf) hn
          | inr hmem => exact ih ⟨g, hmem, hlarge⟩

theorem dotted_of_isLarge {minDots : Nat} {t : List Char} (h : ∃ f ∈ t.splitOn '.', IsLarge f) :
    dotted minDots t = none :=
  dottedTail_of_isLarge h

/-- Nor does `atoi3` behind the dash of a range. -/
theorem digits3_of_isLarge {u : List Char} (h : ∃ f ∈ u.splitOn '.', IsLarge f) {n : Nat}
    (hn : digits3 u = some n) : 255 < n := by
  have hall : u.all isdigit = true := by
    simp only [digits3] at hn
    split at hn
    · rename_i hd
      exact hd.2.2
    · cases hn
  have hdigit : ∀ c ∈ u, isdigit c = true := List.all_eq_true.mp hall
  have hdot : '.' ∉ u := fun hmem => absurd (hdigit '.' hmem) (by decide)
  obtain ⟨f, hf, hlarge⟩ := h
  rw [List.splitOn_eq_singleton hdot, List.mem_singleton] at hf
  have htrim : trim u = u := by
    have hpad := trim_padded (a := []) (m := u) (b := []) rfl rfl
      (fun c hc => isspace_of_isdigit (hdigit c hc))
    simpa using hpad
  exact lt_of_isLarge (hf ▸ hlarge) (by rw [numeral3, htrim, hn])

theorem rangeEnds_of_isLarge {t u : List Char}
    (h : (∃ f ∈ t.splitOn '.', IsLarge f) ∨ ∃ f ∈ u.splitOn '.', IsLarge f) :
    rangeEnds t u = none := by
  cases hd : dotted 3 t with
  | none => exact rangeEnds_of_none hd
  | some a =>
    cases h with
    | inl ht => simp [dotted_of_isLarge ht] at hd
    | inr hu =>
      rw [rangeEnds_of_some hd, dotted_of_isLarge hu]
      cases hn : digits3 u with
      | none => rfl
      | some n => simp [digits3_of_isLarge hu hn]

/-- A field of a block range: a number of at most three digits, or two of
them joined by a dash. -/
def IsField (f : List Char) : Prop := (fieldBytes f).isSome = true

instance (f : List Char) : Decidable (IsField f) := inferInstanceAs (Decidable (_ = true))

/-- Read field by field, with nothing wrong but the size of a number or the
missing dash of the last field. -/
def IsBlockRange (s : List Char) : Prop :=
  2 ≤ s.count '-' ∧ s.count '/' ≤ 1 ∧ ∃ f0 f1 f2 f3, s.splitOn '.' = [f0, f1, f2, f3] ∧
    IsField f0 ∧ IsField f1 ∧ IsField f2 ∧ ('-' ∈ f3 → IsField f3)

/-- An address, one slash, and no sign bit in the number behind it. -/
def IsCidr (s : List Char) : Prop :=
  '-' ∉ s ∧ ∃ t u, s = t ++ '/' :: u ∧ '/' ∉ t ∧ '/' ∉ u ∧ (∃ a : Address, a.text = t) ∧
    longOf u % 2 ^ 32 < 2 ^ 31

/-- The block by block branch is rejected when a field is. -/
theorem parseBlocks_rejects_iff {str : CString} (hdash : 2 ≤ str.chars.count '-')
    (hslash : str.chars.count '/' ≤ 1) (exclude : Bool) (l : IpListIntervals) :
    parseBlocks exclude l str = some (false, l) ↔ ¬ IsBlockRange str.chars := by
  by_cases hlen : (str.chars.splitOn '.').length = 4
  · obtain ⟨f0, f1, f2, f3, hsplit⟩ := List.length_eq_four.mp hlen
    have hshape : IsBlockRange str.chars ↔
        IsField f0 ∧ IsField f1 ∧ IsField f2 ∧ ('-' ∈ f3 → IsField f3) := by
      constructor
      · rintro ⟨-, -, g0, g1, g2, g3, hg, h⟩
        rw [hsplit] at hg
        cases hg
        exact h
      · intro h
        exact ⟨hdash, hslash, f0, f1, f2, f3, hsplit, h⟩
    rw [hshape, parseBlocks_four hsplit]
    unfold blocksOf IsField
    cases fieldBytes f0 with
    | none => simp
    | some i0 =>
      cases fieldBytes f1 with
      | none => simp
      | some i1 =>
        cases fieldBytes f2 with
        | none => simp
        | some i2 =>
          by_cases hd : '-' ∈ f3
          · cases fieldBytes f3 <;> simp [hd]
          · simp [hd]
  · refine iff_of_true (parseBlocks_of_length_ne hlen exclude l) ?_
    rintro ⟨-, -, f0, f1, f2, f3, hsplit, -⟩
    simp [hsplit] at hlen

/-- The CIDR branch is rejected when its address is, or when the number
behind the slash turns negative. -/
theorem parseCidr_rejects_iff_not_isCidr {str : CString} (hdash : str.chars.count '-' = 0)
    (hslash : str.chars.count '/' = 1) (exclude : Bool) (l : IpListIntervals) :
    parseCidr exclude l str = some (false, l) ↔ ¬ IsCidr str.chars := by
  have hnodash : '-' ∉ str.chars := List.count_eq_zero.mp hdash
  obtain ⟨t, u, hstr, ht, hu⟩ := exists_split_of_count_one hslash
  have hshape : IsCidr str.chars ↔
      (∃ a : Address, a.text = t) ∧ longOf u % 2 ^ 32 < 2 ^ 31 := by
    constructor
    · rintro ⟨-, t', u', hstr', ht', hu', h⟩
      rw [hstr, List.append_cons_inj_of_notMem ht hu] at hstr'
      obtain ⟨rfl, -, rfl⟩ := hstr'
      exact h
    · intro h
      exact ⟨hnodash, t, u, hstr, ht, hu, h⟩
  rw [parseCidr_rejects_iff hstr ht (fun h => hnodash (by simp [hstr, h])), hshape,
    not_and_or, Nat.not_lt]

/-- A range of two addresses holds no large octet. -/
theorem parseRange_of_hasLargeOctet {str : CString} (hlarge : HasLargeOctet str.chars)
    (hdash : str.chars.count '-' = 1) (hslash : str.chars.count '/' = 0) (exclude : Bool)
    (l : IpListIntervals) : parseRange exclude l str = some (false, l) := by
  obtain ⟨t, u, hstr, ht, hu⟩ := exists_split_of_count_one hdash
  rw [HasLargeOctet, octetTexts_of_notMem (List.count_eq_zero.mp hslash), hstr,
    pieces_dash ht hu] at hlarge
  obtain ⟨f, hf, hl⟩ := hlarge
  have hends : rangeEnds t u = none :=
    rangeEnds_of_isLarge ((List.mem_append.mp hf).imp (fun h => ⟨f, h, hl⟩) (fun h => ⟨f, h, hl⟩))
  rw [parseRange_text exclude l hstr ht, hends]

theorem parseIps_of_hasLargeOctet_iff {str : CString} (hlarge : HasLargeOctet str.chars)
    (exclude : Bool) (l : IpListIntervals) :
    parseIps exclude l str = some (false, l) ↔
      ¬ IsBlockRange str.chars ∧ ¬ IsCidr str.chars := by
  have hblock : str.chars.count '-' < 2 ∨ 1 < str.chars.count '/' → ¬ IsBlockRange str.chars := by
    rintro h ⟨hd, hs, -⟩
    omega
  have hcidr : str.chars.count '-' ≠ 0 ∨ str.chars.count '/' ≠ 1 → ¬ IsCidr str.chars := by
    rintro h ⟨hd, t, u, hstr, ht, hu, -⟩
    have hone : str.chars.count '/' = 1 := by
      simp [hstr, List.count_eq_zero_of_not_mem ht, List.count_eq_zero_of_not_mem hu]
    exact h.elim (fun h => h (List.count_eq_zero_of_not_mem hd)) (fun h => h hone)
  rw [parseIps_eq]
  by_cases hnone : str.chars.count '/' = 0 ∧ str.chars.count '-' = 0
  · have hdotted : dotted 3 str.chars = none := by
      refine dotted_of_isLarge ?_
      rwa [HasLargeOctet, octetTexts_of_notMem (List.count_eq_zero.mp hnone.1),
        pieces_of_notMem (List.count_eq_zero.mp hnone.2)] at hlarge
    rw [if_pos hnone, hdotted]
    exact iff_of_true rfl ⟨hblock (by omega), hcidr (by omega)⟩
  · rw [if_neg hnone]
    by_cases hdash : str.chars.count '-' = 1
    · rw [if_pos hdash]
      refine iff_of_true ?_ ⟨hblock (by omega), hcidr (by omega)⟩
      split
      · rfl
      · exact parseRange_of_hasLargeOctet hlarge hdash (by omega) exclude l
    · rw [if_neg hdash]
      by_cases hslash : 1 < str.chars.count '/'
      · rw [if_pos hslash]
        exact iff_of_true rfl ⟨hblock (by omega), hcidr (by omega)⟩
      · rw [if_neg hslash]
        by_cases hzero : str.chars.count '-' = 0
        · have hone : str.chars.count '/' = 1 := by omega
          rw [if_pos hzero, parseCidr_rejects_iff_not_isCidr hzero hone]
          simp [hblock (by omega)]
        · have htwo : 2 ≤ str.chars.count '-' := by omega
          have hle : str.chars.count '/' ≤ 1 := by omega
          rw [if_neg hzero, parseBlocks_rejects_iff htwo hle]
          simp [hcidr (by omega)]

/-- **An entry with an octet above 255 is rejected unless it is read field
by field, or the octet stands behind the prefix length of a CIDR block.** -/
theorem large_octet_rejected_iff (str : CString) (hlarge : HasLargeOctet str.chars)
    (l : IpListIntervals) :
    Rejected str l ↔ ¬ IsBlockRange str.chars ∧ ¬ IsCidr str.chars := by
  have hparse := fun exclude => parseIps_of_hasLargeOctet_iff hlarge exclude l
  exact ⟨fun h => (hparse false).mp h.1, fun h => ⟨(hparse false).mpr h, (hparse true).mpr h⟩⟩

theorem large_octet_rejected_address :
    Rejected ⟨"10.0.0.256".toList, 4096, by decide, by decide⟩ {} := by
  refine (large_octet_rejected_iff ⟨"10.0.0.256".toList, 4096, by decide, by decide⟩
    (by decide) {}).mpr ⟨?_, ?_⟩
  · rintro ⟨hdash, -⟩
    exact absurd hdash (by decide)
  · rintro ⟨-, t, u, hstr, -⟩
    have hslash : '/' ∉ "10.0.0.256".toList := by decide
    exact hslash (by rw [show "10.0.0.256".toList = t ++ '/' :: u from hstr]; simp)

/-- 256 and 257 are stored as the bytes 0 and 1. -/
theorem large_octet_accepted :
    HasLargeOctet "256-257.1.2.3-4".toList ∧
    parseIpsAdd {} ⟨"256-257.1.2.3-4".toList, 4096, by decide, by decide⟩ =
      some (true, { intervals := [⟨0x00010203, 0x00010205⟩, ⟨0x01010203, 0x01010205⟩] }) ∧
    ¬ Rejected ⟨"256-257.1.2.3-4".toList, 4096, by decide, by decide⟩ {} := by
  exact ⟨by decide, by decide, not_rejected_of_ne (by decide)⟩

end IpsParser

end Leeloo
