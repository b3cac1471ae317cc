/-
Leeloo.Padding — white space around the numbers of an entry.

`Padded s t` says that `t` is `s` with white space around the pieces
between its dots, dashes and slashes. The scanners trim, and `strtol` skips
white space, so an accepted entry stays accepted with the same intervals.
The one reader that does not trim is the `atoi3` of the one-dash branch,
for a lone number behind the dash.
-/
import Leeloo.Entry

namespace Leeloo.IpsParser

open CString Text
open IpListIntervals (appended)

/-- The separators of an entry. -/
def isSep (c : Char) : Bool := c == '.' || c == '-' || c == '/'

/-- White space around the pieces between separators. -/
inductive Padded : List Char → List Char → Prop
  | piece {p a b : List Char} (hp : ∀ c ∈ p, isSep c = false) (ha : a.all isspace = true)
      (hb : b.all isspace = true) : Padded p (a ++ p ++ b)
  | sep {p a b s t : List Char} {c : Char} (hp : ∀ x ∈ p, isSep x = false)
      (ha : a.all isspace = true) (hb : b.all isspace = true) (hc : isSep c = true)
      (h : Padded s t) : Padded (p ++ c :: s) (a ++ p ++ b ++ c :: t)

theorem isspace_of_isSep {c : Char} (h : isSep c = true) : isspace c = false := by
  simp only [isSep, Bool.or_eq_true, beq_iff_eq] at h
  obtain (rfl | rfl) | rfl := h <;> rfl

theorem isdigit_of_isSep {c : Char} (h : isSep c = true) : isdigit c = false := by
  simp only [isSep, Bool.or_eq_true, beq_iff_eq] at h
  obtain (rfl | rfl) | rfl := h <;> rfl

theorem count_of_all_isspace {a : List Char} (ha : a.all isspace = true) {c : Char}
    (hc : isspace c = false) : a.count c = 0 := by
  refine List.count_eq_zero.mpr fun hmem => ?_
  rw [List.all_eq_true.mp ha c hmem] at hc
  cases hc

namespace Padded

/-- Only white space is added. -/
theorem count_eq {s t : List Char} (h : Padded s t) {c : Char} (hc : isspace c = false) :
    t.count c = s.count c := by
  induction h with
  | piece hp ha hb => simp [count_of_all_isspace ha hc, count_of_all_isspace hb hc]
  | sep hp ha hb hsep h ih =>
    simp [count_of_all_isspace ha hc, count_of_all_isspace hb hc, ih, List.count_cons]

theorem mem_iff {s t : List Char} (h : Padded s t) {c : Char} (hc : isspace c = false) :
    c ∈ t ↔ c ∈ s := by
  rw [← List.count_pos_iff, ← List.count_pos_iff, h.count_eq hc]

/-- A text without separators is one piece. -/
theorem eq_of_notMem {s t : List Char} (h : Padded s t) (hs : ∀ c ∈ s, isSep c = false) :
    ∃ a b, a.all isspace = true ∧ b.all isspace = true ∧ t = a ++ s ++ b := by
  cases h with
  | piece hp ha hb => exact ⟨_, _, ha, hb, rfl⟩
  | sep hp ha hb hc h =>
    rw [hs _ (by simp)] at hc
    cases hc

/-- Splitting at a separator keeps the padding apart. -/
theorem splitOn {s t : List Char} (h : Padded s t) {d : Char} (hd : isSep d = true) :
    List.Forall₂ Padded (s.splitOn d) (t.splitOn d) := by
  have hno : ∀ {p : List Char}, (∀ c ∈ p, isSep c = false) → d ∉ p := by
    intro p hp hmem
    rw [hp d hmem] at hd
    cases hd
  have hpad : ∀ {p a b : List Char}, (∀ c ∈ p, isSep c = false) → a.all isspace = true →
      b.all isspace = true → d ∉ a ++ p ++ b := by
    intro p a b hp ha hb hmem
    have hspace := isspace_of_isSep hd
    simp only [List.mem_append] at hmem
    obtain (hmem | hmem) | hmem := hmem
    · rw [List.all_eq_true.mp ha d hmem] at hspace
      cases hspace
    · exact hno hp hmem
    · rw [List.all_eq_true.mp hb d hmem] at hspace
      cases hspace
  induction h with
  | piece hp ha hb =>
    rw [List.splitOn_eq_singleton (hno hp), List.splitOn_eq_singleton (hpad hp ha hb)]
    exact .cons (.piece hp ha hb) .nil
  | @sep p a b s t c hp ha hb hc h ih =>
    by_cases hcd : c = d
    · subst hcd
      rw [List.splitOn_append_cons_self_of_not_mem (hno hp),
        List.splitOn_append_cons_self_of_not_mem (hpad hp ha hb)]
      exact .cons (.piece hp ha hb) ih
    · have hsplit : ∀ q u : List Char, d ∉ q → (q ++ c :: u).splitOn d =
          (u.splitOn d).modifyHead (q ++ c :: ·) := by
        intro q u hq
        induction q with
        | nil => simp [List.splitOn_cons_eq_if_modifyHead, hcd]
        | cons x q ihq =>
          rw [List.mem_cons, not_or] at hq
          have hx : (x == d) = false := by simpa using Ne.symm hq.1
          rw [List.cons_append, List.splitOn_cons_eq_if_modifyHead, hx, ihq hq.2]
          simp [Function.comp_def]
      rw [hsplit _ _ (hno hp), hsplit _ _ (hpad hp ha hb)]
      generalize s.splitOn d = fs at ih
      generalize t.splitOn d = gs at ih
      cases ih with
      | nil => exact .nil
      | cons hhead htail => exact .cons (.sep hp ha hb hc hhead) htail

end Padded

/-! ## The readers -/

/-- A number between white space. -/
theorem numeral3_padded {s t : List Char} (hs : ∀ c ∈ s, isspace c = false) (h : Padded s t) :
    numeral3 t = numeral3 s := by
  by_cases hsep : ∀ c ∈ s, isSep c = false
  · obtain ⟨a, b, ha, hb, rfl⟩ := h.eq_of_notMem hsep
    have hself := trim_padded (a := []) (b := []) rfl rfl hs
    rw [List.nil_append, List.append_nil] at hself
    rw [numeral3, numeral3, trim_padded ha hb hs, hself]
  · obtain ⟨c, hmem, hc⟩ : ∃ c ∈ s, isSep c = true := by simpa using hsep
    have hspace := isspace_of_isSep hc
    have hdigit := isdigit_of_isSep hc
    rw [numeral3_eq_none_of_mem hmem hspace hdigit,
      numeral3_eq_none_of_mem ((h.mem_iff hspace).mpr hmem) hspace hdigit]

theorem dottedTail_padded {fs gs : List (List Char)} (h : List.Forall₂ Padded fs gs)
    (hs : ∀ f ∈ fs, ∀ c ∈ f, isspace c = false) (minDots k v : Nat) :
    dottedTail minDots k v gs = dottedTail minDots k v fs := by
  induction h generalizing k v with
  | nil => rfl
  | cons hhead htail ih =>
    rename_i f g fs gs
    have hf := hs f List.mem_cons_self
    simp only [dottedTail, numeral3_padded hf hhead,
      ih (fun f hmem => hs f (List.mem_cons_of_mem _ hmem))]

/-- The pieces of a text without white space have none. -/
theorem notSpace_of_mem_splitOn {s f : List Char} {d : Char}
    (hs : ∀ c ∈ s, isspace c = false) (hf : f ∈ s.splitOn d) : ∀ c ∈ f, isspace c = false :=
  fun c hc => hs c (mem_of_mem_splitOn hf hc)

theorem dotted_padded {s t : List Char} (hs : ∀ c ∈ s, isspace c = false) (h : Padded s t)
    (minDots : Nat) : dotted minDots t = dotted minDots s :=
  dottedTail_padded (h.splitOn rfl) (fun _ hf => notSpace_of_mem_splitOn hs hf) minDots 0 0

theorem fieldBytes_padded {s t : List Char} (hs : ∀ c ∈ s, isspace c = false) (h : Padded s t) :
    fieldBytes t = fieldBytes s := by
  have hsplit := h.splitOn (d := '-') rfl
  have hpieces : ∀ f ∈ s.splitOn '-', ∀ c ∈ f, isspace c = false :=
    fun _ hf => notSpace_of_mem_splitOn hs hf
  unfold fieldBytes
  generalize s.splitOn '-' = fs at hsplit hpieces
  generalize t.splitOn '-' = gs at hsplit
  cases hsplit with
  | nil => rfl
  | cons h0 hrest =>
    have hp0 := numeral3_padded (hpieces _ (by simp)) h0
    cases hrest with
    | nil => simp [hp0]
    | cons h1 hrest =>
      have hp1 := numeral3_padded (hpieces _ (by simp)) h1
      cases hrest with
      | nil => simp [hp0, hp1]
      | cons h2 hrest => rfl

/-- Behind a piece no digit follows, with white space or without. -/
theorem leadingDigits_piece {p a b r : List Char} (hp : ∀ c ∈ p, isspace c = false)
    (ha : a.all isspace = true) (hb : b.all isspace = true)
    (hr : ∀ c ∈ r.head?, isSep c = true ∧ c ≠ '-') :
    leadingDigits (a ++ p ++ b ++ r) =
      match p with
      | [] => []
      | x :: q => if x = '-' ∨ x = '+' then q.takeWhile isdigit else p.takeWhile isdigit := by
  have hdigit : ∀ c ∈ (b ++ r).head?, isdigit c = false := by
    intro c hc
    cases b with
    | nil => exact isdigit_of_isSep (hr c hc).1
    | cons y b =>
      simp only [List.cons_append, List.head?_cons, Option.mem_def, Option.some.injEq] at hc
      subst hc
      cases hd : isdigit y with
      | false => rfl
      | true =>
        have hy : isspace y = true := List.all_eq_true.mp hb y List.mem_cons_self
        rw [isspace_of_isdigit hd] at hy
        cases hy
  cases p with
  | nil =>
    have hab : (a ++ b).all isspace = true := by simp [ha, hb]
    rw [List.append_nil]
    cases r with
    | nil => rw [List.append_nil, leadingDigits_space hab]
    | cons c r =>
      obtain ⟨hsep, hdash⟩ := hr c rfl
      have hplus : ¬ (c = '-' ∨ c = '+') := by
        rintro (h | rfl)
        · exact hdash h
        · cases hsep
      rw [leadingDigits_cons hab (isspace_of_isSep hsep), if_neg hplus]
      simp [isdigit_of_isSep hsep]
  | cons x q =>
    have hx : isspace x = false := hp x List.mem_cons_self
    have htext : a ++ x :: q ++ b ++ r = a ++ x :: (q ++ (b ++ r)) := by simp
    rw [htext, leadingDigits_cons ha hx, takeWhile_append_of_head hdigit, ← List.cons_append,
      takeWhile_append_of_head hdigit]

/-- `strtol` skips the white space in front and stops behind the digits. -/
theorem leadingDigits_padded {s t : List Char} (hs : ∀ c ∈ s, isspace c = false)
    (hdash : '-' ∉ s) (h : Padded s t) : leadingDigits t = leadingDigits s := by
  cases h with
  | @piece s a b hp ha hb =>
    have hleft := leadingDigits_piece (r := []) hs ha hb (by simp)
    have hright := leadingDigits_piece (a := []) (b := []) (r := []) hs rfl rfl (by simp)
    simp only [List.append_nil, List.nil_append] at hleft hright
    rw [hleft, hright]
  | @sep p a b s t c hp ha hb hc h =>
    have hno : c ≠ '-' := fun he => hdash (by simp [he])
    have hpiece : ∀ x ∈ p, isspace x = false := fun x hx => hs x (by simp [hx])
    have hleft := leadingDigits_piece (r := c :: t) hpiece ha hb (by simp [hc, hno])
    have hright := leadingDigits_piece (a := []) (b := []) (r := c :: s) hpiece rfl rfl
      (by simp [hc, hno])
    simp only [List.append_nil, List.nil_append] at hright
    rw [hleft, hright]

theorem cidrOf_padded {s t : List Char} (hs : ∀ c ∈ s, isspace c = false) (hdash : '-' ∉ s)
    (h : Padded s t) : cidrOf t = cidrOf s := by
  have hdash' : '-' ∉ t := fun hmem => hdash ((h.mem_iff rfl).mp hmem)
  rw [cidrOf, cidrOf, strtol_of_notMem hdash, strtol_of_notMem hdash',
    leadingDigits_padded hs hdash h]

/-- `atoi3` does not trim. -/
theorem digits3_padded {s t : List Char} (hs : ∀ c ∈ s, isSep c = false) (h : Padded s t)
    (hne : t ≠ s) : digits3 t = none := by
  obtain ⟨a, b, ha, hb, rfl⟩ := h.eq_of_notMem hs
  obtain ⟨c, hmem, hc⟩ : ∃ c ∈ a ++ s ++ b, isspace c = true := by
    cases a with
    | cons c a => exact ⟨c, by simp, List.all_eq_true.mp ha c List.mem_cons_self⟩
    | nil =>
      cases b with
      | cons c b => exact ⟨c, by simp, List.all_eq_true.mp hb c List.mem_cons_self⟩
      | nil => simp at hne
  refine digits3_of_all_false (List.all_eq_false.mpr ⟨c, hmem, ?_⟩)
  intro hd
  rw [isspace_of_isdigit hd] at hc
  cases hc

/-! ## The branches -/

/-- The number behind the only dash is one number, and it is padded. -/
def PadsLoneNumber (s t : List Char) : Prop :=
  s.count '-' = 1 ∧ ∃ s1 s2 t1 t2, s = s1 ++ '-' :: s2 ∧ t = t1 ++ '-' :: t2 ∧
    '-' ∉ s1 ∧ '-' ∉ t1 ∧ '.' ∉ s2 ∧ t2 ≠ s2

/-- The two texts beside the first separator. -/
theorem Padded.split {s t u : List Char} {d : Char} (hd : isSep d = true)
    (h : Padded (s ++ d :: u) t) (hs : d ∉ s) (hu : d ∉ u) :
    ∃ s' u', t = s' ++ d :: u' ∧ d ∉ s' ∧ d ∉ u' ∧ Padded s s' ∧ Padded u u' := by
  have hsplit := h.splitOn hd
  rw [List.splitOn_append_cons_self_of_not_mem hs, List.splitOn_eq_singleton hu] at hsplit
  generalize hgs : t.splitOn d = gs at hsplit
  cases hsplit with
  | @cons _ s' _ _ h0 hrest =>
    cases hrest with
    | @cons _ u' _ _ h1 hrest =>
      cases hrest with
      | nil =>
        have hs' : d ∉ s' := notMem_of_mem_splitOn (t := t) (by simp [hgs])
        have hu' : d ∉ u' := notMem_of_mem_splitOn (t := t) (by simp [hgs])
        have hjoin : [d].intercalate (t.splitOn d) = t := List.intercalate_splitOn d
        refine ⟨s', u', ?_, hs', hu', h0, h1⟩
        rw [← hjoin, hgs]
        simp [List.intercalate]

/-- Behind the dash stands an address, or a number that must not be
padded. -/
theorem rangeEnds_padded {s1 s2 t1 t2 : List Char} (hs1 : ∀ c ∈ s1, isspace c = false)
    (hs2 : ∀ c ∈ s2, isspace c = false) (h1 : Padded s1 t1) (h2 : Padded s2 t2)
    {ends : BitVec 32 × BitVec 32} (hends : rangeEnds s1 s2 = some ends) :
    rangeEnds t1 t2 = if '.' ∉ s2 ∧ t2 ≠ s2 then none else some ends := by
  cases hd : dotted 3 s1 with
  | none =>
    rw [rangeEnds_of_none hd] at hends
    cases hends
  | some a =>
    have hd' : dotted 3 t1 = some a := by rw [dotted_padded hs1 h1, hd]
    rw [rangeEnds_of_some hd] at hends
    rw [rangeEnds_of_some hd', dotted_padded hs2 h2]
    cases hd2 : dotted 3 s2 with
    | some b =>
      have hdot : '.' ∈ s2 := by
        by_contra hno
        have hfew : dotted 3 s2 = none := dotted_of_few (by simp [List.splitOn_eq_singleton hno])
        rw [hfew] at hd2
        cases hd2
      rw [hd2] at hends
      rw [if_neg (fun h => h.1 hdot), ← hends]
    | none =>
      rw [hd2] at hends
      simp only at hends ⊢
      have hall : s2.all isdigit = true := by
        cases hall : s2.all isdigit with
        | true => rfl
        | false => simp [digits3_of_all_false hall] at hends
      have hsep : ∀ c ∈ s2, isSep c = false := by
        intro c hc
        cases hcs : isSep c with
        | false => rfl
        | true =>
          have hdigit := List.all_eq_true.mp hall c hc
          rw [isdigit_of_isSep hcs] at hdigit
          cases hdigit
      have hdot : '.' ∉ s2 := fun hmem => absurd (hsep '.' hmem) (by decide)
      by_cases hne : t2 = s2
      · rw [if_neg (fun h => h.2 hne), hne, hends]
      · rw [if_pos ⟨hdot, hne⟩, digits3_padded hsep h2 hne]
        rfl

/-- Outside the one-dash branch padding changes nothing. -/
theorem parseIps_padded {str str' : CString} (hfree : ∀ c ∈ str.chars, isspace c = false)
    (hpad : Padded str.chars str'.chars) (hdash : str.chars.count '-' ≠ 1) (exclude : Bool)
    (l : IpListIntervals) : parseIps exclude l str' = parseIps exclude l str := by
  rw [parseIps_eq, parseIps_eq, hpad.count_eq rfl, hpad.count_eq rfl, dotted_padded hfree hpad,
    if_neg hdash, if_neg hdash]
  by_cases hnone : str.chars.count '/' = 0 ∧ str.chars.count '-' = 0
  · rw [if_pos hnone, if_pos hnone]
  · rw [if_neg hnone, if_neg hnone]
    by_cases hslash : 1 < str.chars.count '/'
    · rw [if_pos hslash, if_pos hslash]
    · rw [if_neg hslash, if_neg hslash]
      by_cases hzero : str.chars.count '-' = 0
      · rw [if_pos hzero, if_pos hzero]
        have hnodash : '-' ∉ str.chars := List.count_eq_zero.mp hzero
        obtain ⟨t, u, hstr, ht, hu⟩ := exists_split_of_count_one
          (show str.chars.count '/' = 1 by omega)
        rw [hstr] at hpad hfree hnodash
        obtain ⟨t', u', hstr', ht', -, hpt, hpu⟩ := hpad.split rfl ht hu
        rw [parseCidr_text exclude l hstr ht, parseCidr_text exclude l hstr' ht',
          cidrOf_padded (fun c hc => hfree c (by simp [hc])) (fun h => hnodash (by simp [h])) hpu,
          dotted_padded (fun c hc => hfree c (by simp [hc])) hpt]
      · rw [if_neg hzero, if_neg hzero]
        have hsplit := hpad.splitOn (d := '.') rfl
        have hlen := hsplit.length_eq
        by_cases hfour : (str.chars.splitOn '.').length = 4
        · obtain ⟨f0, f1, f2, f3, hf⟩ := List.length_eq_four.mp hfour
          obtain ⟨g0, g1, g2, g3, hg⟩ := List.length_eq_four.mp (hlen ▸ hfour)
          have hpieces : ∀ f ∈ str.chars.splitOn '.', ∀ c ∈ f, isspace c = false :=
            fun _ hf => notSpace_of_mem_splitOn hfree hf
          rw [hf] at hpieces
          rw [hf, hg] at hsplit
          simp only [List.forall₂_cons, List.Forall₂.nil, and_true] at hsplit
          obtain ⟨h0, h1, h2, h3⟩ := hsplit
          rw [parseBlocks_four hf, parseBlocks_four hg, blocksOf, blocksOf,
            fieldBytes_padded (hpieces f0 (by simp)) h0,
            fieldBytes_padded (hpieces f1 (by simp)) h1,
            fieldBytes_padded (hpieces f2 (by simp)) h2,
            fieldBytes_padded (hpieces f3 (by simp)) h3]
          simp only [h3.mem_iff (c := '-') rfl]
        · rw [parseBlocks_of_length_ne hfour,
            parseBlocks_of_length_ne (by rw [← hlen]; exact hfour)]

/-- **An accepted entry stays accepted with the same intervals, unless the
padding stands around a lone number behind the only dash.** -/
theorem padded_accepted_iff (str str' : CString) (hfree : ∀ c ∈ str.chars, isspace c = false)
    (hpad : Padded str.chars str'.chars) {l l' : IpListIntervals}
    (haccepted : parseIpsAdd l str = some (true, l')) :
    parseIpsAdd l str' = some (true, l') ↔ ¬ PadsLoneNumber str.chars str'.chars := by
  unfold parseIpsAdd at haccepted ⊢
  by_cases hdash : str.chars.count '-' = 1
  · have hdash' : str'.chars.count '-' = 1 := by rw [hpad.count_eq rfl, hdash]
    have hslash : str'.chars.count '/' = str.chars.count '/' := hpad.count_eq rfl
    obtain ⟨s1, s2, hstr, hs1, hs2⟩ := exists_split_of_count_one hdash
    have hpad' := hpad
    rw [hstr] at hpad' hfree
    obtain ⟨t1, t2, hstr', ht1, ht2, hp1, hp2⟩ := hpad'.split rfl hs1 hs2
    have hlone : PadsLoneNumber str.chars str'.chars ↔ '.' ∉ s2 ∧ t2 ≠ s2 := by
      constructor
      · rintro ⟨-, u1, u2, v1, v2, hu, hv, hu1, hv1, h⟩
        rw [hstr, List.append_cons_inj_of_notMem hs1 hs2] at hu
        rw [hstr', List.append_cons_inj_of_notMem ht1 ht2] at hv
        obtain ⟨-, -, rfl⟩ := hu
        obtain ⟨-, -, rfl⟩ := hv
        exact h
      · intro h
        exact ⟨hdash, s1, s2, t1, t2, hstr, hstr', hs1, ht1, h⟩
    rw [parseIps_eq, if_neg (by omega), if_pos hdash] at haccepted
    rw [parseIps_eq, if_neg (by omega), if_pos hdash', hslash, hlone]
    split at haccepted
    · cases haccepted
    · rename_i hno
      rw [if_neg hno, parseRange_text false l hstr' ht1]
      rw [parseRange_text false l hstr hs1] at haccepted
      cases hends : rangeEnds s1 s2 with
      | none => simp [hends] at haccepted
      | some ends =>
        have hpadded := rangeEnds_padded (fun c hc => hfree c (by simp [hc]))
          (fun c hc => hfree c (by simp [hc])) hp1 hp2 hends
        rw [hends] at haccepted
        rw [hpadded]
        by_cases hbad : '.' ∉ s2 ∧ t2 ≠ s2
        · simp [hbad]
        · rw [if_neg hbad, haccepted]
          exact iff_of_true rfl hbad
  · rw [parseIps_padded hfree hpad hdash, haccepted]
    exact iff_of_true rfl fun h => hdash h.1

theorem padded_accepted_cidr :
    parseIpsAdd {} ⟨" 10 / 8".toList, 4096, by decide, by decide⟩ =
      some (true, { intervals := [⟨0x0A000000, 0x0B000000⟩] }) := by
  have hpad : Padded "10/8".toList " 10 / 8".toList :=
    .sep (p := ['1', '0']) (a := [' ']) (b := [' ']) (by simp [isSep]) rfl rfl rfl
      (.piece (p := ['8']) (a := [' ']) (b := []) (by simp [isSep]) rfl rfl)
  have hlone : ¬ PadsLoneNumber "10/8".toList " 10 / 8".toList := by
    rintro ⟨hdash, -⟩
    exact absurd hdash (by decide)
  exact (padded_accepted_iff ⟨"10/8".toList, 4096, by decide, by decide⟩
    ⟨" 10 / 8".toList, 4096, by decide, by decide⟩ (by simp [isspace]) hpad (by decide)).mpr hlone

/-- White space behind the lone number is not accepted. -/
theorem padded_rejected :
    parseIpsAdd {} ⟨"10.4.5.8-20".toList, 4096, by decide, by decide⟩ =
      some (true, { intervals := [⟨0x0A040508, 0x0A040515⟩] }) ∧
    Padded "10.4.5.8-20".toList "10.4.5.8-20 ".toList ∧
    parseIpsAdd {} ⟨"10.4.5.8-20 ".toList, 4096, by decide, by decide⟩ = some (false, {}) := by
  refine ⟨by decide, ?_, by decide⟩
  exact .sep (p := ['1', '0']) (a := []) (b := []) (by simp [isSep]) rfl rfl rfl
    (.sep (p := ['4']) (a := []) (b := []) (by simp [isSep]) rfl rfl rfl
      (.sep (p := ['5']) (a := []) (b := []) (by simp [isSep]) rfl rfl rfl
        (.sep (p := ['8']) (a := []) (b := []) (by simp [isSep]) rfl rfl rfl
          (.piece (p := ['2', '0']) (a := []) (b := [' ']) (by simp [isSep]) rfl rfl))))

end Leeloo.IpsParser
