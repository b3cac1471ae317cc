/-
Leeloo.IpsParserText — what the scanners of `ips_parser.cpp` compute, as
functions of the text they are given.

Each scanner reads a part of a longer string: `str` points at `t ++ rest`
and the length it is given is that of `t`. The theorems say that it stays
inside the string, whatever `rest` is, and that its result is the value
that `digits3`, `numeral3` or `dotted` gives to `t` alone.
-/
import Leeloo.IpsParser

namespace Leeloo.IpsParser

open CString Text

/-- The value of a text of one to three digits. -/
def digits3 (t : List Char) : Option Nat :=
  if t ≠ [] ∧ t.length ≤ 3 ∧ t.all isdigit = true then some (decimal t) else none

/-- The same with white space around the digits. -/
def numeral3 (t : List Char) : Option Nat := digits3 (trim t)

/-- The `uint32_t` for a value that may be missing. -/
def encode : Option Nat → BitVec 32
  | none => -1
  | some n => BitVec.ofNat 32 n

/-! ## Small facts about the values -/

theorem digits3_eq_some {t : List Char} (hne : t ≠ []) (hlen : t.length ≤ 3)
    (hall : t.all isdigit = true) : digits3 t = some (decimal t) :=
  if_pos ⟨hne, hlen, hall⟩

theorem digits3_of_all_false {t : List Char} (hall : t.all isdigit = false) :
    digits3 t = none :=
  if_neg (by simp [hall])

theorem digits3_of_length {t : List Char} (hlen : t.length = 0 ∨ 4 ≤ t.length) :
    digits3 t = none := by
  refine if_neg ?_
  intro h
  have hpos : 0 < t.length := List.length_pos_of_ne_nil h.1
  have hle : t.length ≤ 3 := h.2.1
  omega

theorem digits3_lt {t : List Char} {n : Nat} (h : digits3 t = some n) : n < 1000 := by
  simp only [digits3] at h
  split at h
  · rename_i hd
    obtain ⟨-, hlen, hall⟩ := hd
    cases h
    have hlt : decimal t < 10 ^ t.length := decimal_lt hall
    have hpow : 10 ^ t.length ≤ 10 ^ 3 := Nat.pow_le_pow_right (by omega) hlen
    omega
  · cases h

/-- A value is never taken for the error code. -/
theorem encode_digits3_eq_neg_one {t : List Char} : encode (digits3 t) = -1 ↔ digits3 t = none := by
  cases h : digits3 t with
  | none => simp [encode]
  | some n =>
    have hlt := digits3_lt h
    have hmod : n % 2 ^ 32 = n := Nat.mod_eq_of_lt (by omega)
    simp only [encode, BitVec.toNat_eq, BitVec.toNat_ofNat, hmod, reduceCtorEq, iff_false]
    show n ≠ 4294967295
    omega

/-- The comparison with 255 rejects the missing values and the large ones. -/
theorem encode_digits3_gt {t : List Char} :
    encode (digits3 t) > 0xFF ↔ ∀ n, digits3 t = some n → 255 < n := by
  cases h : digits3 t with
  | none => simp [encode]
  | some n =>
    have hlt := digits3_lt h
    have hmod : n % 4294967296 = n := Nat.mod_eq_of_lt (by omega)
    simp [encode, BitVec.lt_def, hmod]

theorem numeral3_eq_none_of_mem {c : Char} {t : List Char} (hc : c ∈ t)
    (hspace : isspace c = false) (hdigit : isdigit c = false) : numeral3 t = none := by
  have hmem : c ∈ trim t := mem_trim_of_not_isspace hc hspace
  have hall : (trim t).all isdigit = false := List.all_eq_false.mpr ⟨c, hmem, by simp [hdigit]⟩
  exact digits3_of_all_false hall

/-! ## `count_char_buf` -/

theorem countCharLoop_text (c : Char) (p t rest : List Char) (ret : Nat) :
    countCharLoop (p ++ t ++ rest) c t.length p.length ret = some (ret + t.count c) := by
  induction t generalizing p ret with
  | nil => simp [countCharLoop]
  | cons x t ih =>
    have hpos : p.length + 1 = (p ++ [x]).length := by simp
    rw [List.length_cons, countCharLoop, read_scan, Option.bind_eq_bind, Option.bind_some,
      List.append_cons, hpos, ih, List.count_cons]
    cases hxc : decide (x = c) <;> simp_all
    omega

/-- **`count_char_buf` counts.** -/
theorem countCharBuf_text (t rest : List Char) (c : Char) :
    countCharBuf (t ++ rest) t.length c = some (t.count c) := by
  simpa [countCharBuf] using countCharLoop_text c [] t rest 0

/-! ## `atoi3` and `atoi3_trim` -/

theorem pow10_get {n : Nat} (h : n < 3) : pow10[n]? = some (BitVec.ofNat 32 (10 ^ n)) := by
  match n with
  | 0 => rfl
  | 1 => rfl
  | 2 => rfl

theorem atoi3Loop_text (p t rest : List Char) (cur : BitVec 32) (h : t.length ≤ 3) :
    atoi3Loop (p ++ t ++ rest) t.length p.length cur =
      some (if t.all isdigit then cur + BitVec.ofNat 32 (decimal t) else -1) := by
  induction t generalizing p cur with
  | nil => simp [atoi3Loop]
  | cons c t ih =>
    have hlen : t.length < 3 := by
      rw [List.length_cons] at h
      omega
    rw [List.length_cons, atoi3Loop, read_scan, Option.bind_eq_bind, Option.bind_some]
    cases hc : isdigit c with
    | false => simp [not_isdigit_iff.mp hc, hc]
    | true =>
      have hin : ¬ (c < '0' ∨ '9' < c) := by
        rw [← not_isdigit_iff, hc]
        simp
      have hpos : p.length + 1 = (p ++ [c]).length := by simp
      rw [if_neg hin, pow10_get hlen, Option.bind_eq_bind, Option.bind_some, List.append_cons,
        hpos, ih _ _ (by omega)]
      simp only [List.all_cons, hc, Bool.true_and, decimal_cons, BitVec.ofNat_add,
        BitVec.ofNat_mul, BitVec.add_assoc]

/-- **`atoi3` reads one to three digits.** -/
theorem atoi3_text (t rest : List Char) :
    atoi3 (t ++ rest) t.length = some (encode (digits3 t)) := by
  unfold atoi3
  split
  · rename_i hlen
    rw [digits3_of_length hlen]
    rfl
  · rename_i hlen
    have hrun := atoi3Loop_text [] t rest 0 (by omega)
    simp only [List.nil_append, List.length_nil] at hrun
    rw [hrun]
    cases hall : t.all isdigit with
    | false => simp [digits3_of_all_false hall, encode]
    | true =>
      have hne : t ≠ [] := by
        intro h
        simp [h] at hlen
      simp [digits3_eq_some hne (by omega) hall, encode]

theorem trimFront_text (p t rest : List Char) (newLen : Nat) :
    trimFront (p ++ t ++ rest) t.length p.length newLen =
      some (p.length + (t.takeWhile isspace).length, newLen - (t.takeWhile isspace).length) := by
  induction t generalizing p newLen with
  | nil => simp [trimFront]
  | cons c t ih =>
    rw [List.length_cons, trimFront, read_scan, Option.bind_eq_bind, Option.bind_some]
    cases hc : isspace c with
    | false => simp [hc]
    | true =>
      have hpos : p.length + 1 = (p ++ [c]).length := by simp
      rw [if_pos rfl, List.append_cons, hpos, ih]
      simp [hc]
      omega

/-- From the back, the loop stops at the latest on the character at `i`. -/
theorem trimBack_text (p v rest : List Char) (x : Char) (newLen : Nat) :
    trimBack (p ++ x :: v ++ rest) p.length v.length newLen =
      some (newLen - (v.length - (v.rdropWhile isspace).length)) := by
  induction v using List.reverseRecOn generalizing rest newLen with
  | nil => simp [trimBack]
  | append_singleton v c ih =>
    have hread : read (p ++ x :: (v ++ [c]) ++ rest) (p.length + (v.length + 1)) = some c := by
      have hstr : p ++ x :: (v ++ [c]) ++ rest = (p ++ x :: v) ++ c :: rest := by simp
      have hpos : p.length + (v.length + 1) = (p ++ x :: v).length := by simp
      rw [hstr, hpos]
      exact read_append_cons _ _ _
    have hlen : (v ++ [c]).length = v.length + 1 := by simp
    rw [hlen, trimBack, hread, Option.bind_eq_bind, Option.bind_some]
    cases hc : isspace c with
    | false => simp [hc]
    | true =>
      have hstr : p ++ x :: (v ++ [c]) ++ rest = p ++ x :: v ++ c :: rest := by simp
      have hle : (v.rdropWhile isspace).length ≤ v.length := (List.rdropWhile_prefix _ v).length_le
      rw [if_pos rfl, hstr, ih, List.rdropWhile_concat_pos _ _ _ hc]
      congr 1
      omega

/-- **`atoi3_trim` reads one to three digits between white space.** -/
theorem atoi3Trim_text (t rest : List Char) :
    atoi3Trim (t ++ rest) t.length = some (encode (numeral3 t)) := by
  cases t with
  | nil => rfl
  | cons c t =>
    generalize htext : c :: t = u
    have hne : u.length ≠ 0 := by simp [← htext]
    have hsplit : u.takeWhile isspace ++ u.dropWhile isspace = u := List.takeWhile_append_dropWhile
    have hfront := trimFront_text [] u rest u.length
    simp only [List.nil_append, List.length_nil, Nat.zero_add] at hfront
    unfold atoi3Trim numeral3
    rw [if_neg hne, hfront, Option.bind_eq_bind, Option.bind_some]
    generalize hsp : u.takeWhile isspace = sp at hsplit
    cases hdrop : u.dropWhile isspace with
    | nil =>
      -- nothing but white space: the second loop does not run
      rw [hdrop, List.append_nil] at hsplit
      have hnone : u.length - 1 - sp.length = 0 := by rw [hsplit]; omega
      simp [hsplit, trimBack, atoi3, trim, hdrop, digits3, encode]
    | cons x v =>
      have hx : isspace x = false := by
        have hhead := List.head_dropWhile_not (p := isspace) (l := u) (by simp [hdrop])
        simpa [hdrop] using hhead
      rw [hdrop] at hsplit
      have hu : u.length = sp.length + (v.length + 1) := by rw [← hsplit]; simp
      have hback : u.length - 1 - sp.length = v.length := by omega
      have hstr : u ++ rest = sp ++ x :: v ++ rest := by rw [hsplit]
      have htrim : trim u = x :: v.rdropWhile isspace := by
        rw [← trim_cons_of_not_isspace hx v, ← hdrop, trim, trim, hdrop, List.dropWhile_cons]
        simp [hx]
      have hle : (v.rdropWhile isspace).length ≤ v.length := (List.rdropWhile_prefix _ v).length_le
      obtain ⟨w, hw⟩ := List.rdropWhile_prefix isspace v
      have hnew : u.length - sp.length - (v.length - (v.rdropWhile isspace).length) =
          (trim u).length := by
        rw [htrim, List.length_cons]
        omega
      have hpart : List.drop sp.length (u ++ rest) = trim u ++ (w ++ rest) := by
        rw [hstr, htrim, List.append_assoc, List.drop_left]
        show x :: (v ++ rest) = x :: (v.rdropWhile isspace ++ (w ++ rest))
        rw [← List.append_assoc, hw]
      show (trimBack (u ++ rest) sp.length (u.length - 1 - sp.length) _).bind _ = _
      rw [hback, hstr, trimBack_text, ← hstr, Option.bind_some, hnew, hpart]
      exact atoi3_text (trim u) (w ++ rest)

/-- The length of the string is the longest that `atoi3_trim` can be
given: a length past the NUL makes it read outside. -/
theorem atoi3Trim_overrun {p : List Char} {len : Nat} (h : p.length + 1 < len) :
    atoi3Trim p len = none := by
  have hfront : ∀ n i newLen, i ≤ p.length → p.length < i + n →
      ∃ j k, trimFront p n i newLen = some (j, k) ∧ j ≤ p.length := by
    intro n
    induction n with
    | zero =>
      intro i newLen hi hin
      omega
    | succ n ih =>
      intro i newLen hi hin
      rcases Nat.lt_or_ge i p.length with hlt | hge
      · have hread : CString.read p i = some p[i] := by
          simp [CString.read, Nat.ne_of_lt hlt]
        cases hspace : isspace p[i] with
        | false => exact ⟨i, newLen, by simp [trimFront, hread, hspace], hi⟩
        | true =>
          obtain ⟨j, k, hrun, hj⟩ := ih (i + 1) (newLen - 1) (by omega) (by omega)
          exact ⟨j, k, by simpa [trimFront, hread, hspace] using hrun, hj⟩
      · have hread : CString.read p i = some '\x00' := by
          simp [CString.read, Nat.le_antisymm hi hge]
        exact ⟨i, newLen, by simp [trimFront, hread, show isspace '\x00' = false from rfl], hi⟩
  obtain ⟨j, k, hrun, hj⟩ := hfront len 0 len (by omega) (by omega)
  obtain ⟨n, hn⟩ : ∃ n, len - 1 - j = n + 1 := ⟨len - 2 - j, by omega⟩
  have hread : CString.read p (j + (n + 1)) = none := read_eq_none (by omega)
  unfold atoi3Trim
  rw [if_neg (by omega), hrun]
  simp [hn, trimBack, hread]

/-! ## `ipv4toi` -/

/-- The fields of an address from the `k`-th on, when the first `k` are
read as `value`: at most four numbers up to 255, more than `minDots`. -/
def dottedTail (minDots : Nat) : (k value : Nat) → List (List Char) → Option (BitVec 32)
  | k, value, [] => if minDots < k then some (BitVec.ofNat 32 (2 ^ (8 * (4 - k)) * value)) else none
  | k, value, f :: fs =>
    if k = 4 then none
    else match numeral3 f with
      | none => none
      | some o => if 255 < o then none else dottedTail minDots (k + 1) (256 * value + o) fs

/-- The address a text stands for; missing fields at the end are zero. -/
def dotted (minDots : Nat) (t : List Char) : Option (BitVec 32) :=
  dottedTail minDots 0 0 (t.splitOn '.')

/-- What a caller of `ipv4toi` uses: the address, when it is valid. -/
def result (r : BitVec 32 × Bool) : Option (BitVec 32) := if r.2 then some r.1 else none

theorem dottedTail_of_none {minDots k value : Nat} {f : List Char} {fs : List (List Char)}
    (h : numeral3 f = none) : dottedTail minDots k value (f :: fs) = none := by
  simp [dottedTail, h]

/-- Too few fields are no address. -/
theorem dottedTail_of_few {minDots k : Nat} (value : Nat) {fs : List (List Char)}
    (h : k + fs.length ≤ minDots) : dottedTail minDots k value fs = none := by
  induction fs generalizing k value with
  | nil =>
    have hk : ¬ minDots < k := by simpa using h
    simp [dottedTail, hk]
  | cons f fs ih =>
    have hfs : k + 1 + fs.length ≤ minDots := by
      simp only [List.length_cons] at h
      omega
    simp only [dottedTail]
    split
    · rfl
    · split
      · rfl
      · split
        · rfl
        · exact ih _ hfs

theorem dotted_of_few {minDots : Nat} {t : List Char} (h : (t.splitOn '.').length ≤ minDots) :
    dotted minDots t = none :=
  dottedTail_of_few 0 (by omega)

/-- White space in front of the first field does not matter. -/
theorem dotted_append_space {sp : List Char} (h : sp.all isspace = true) (minDots : Nat)
    (t : List Char) : dotted minDots (sp ++ t) = dotted minDots t := by
  induction sp with
  | nil => rfl
  | cons c sp ih =>
    simp only [List.all_cons, Bool.and_eq_true] at h
    have hdot : (c == '.') = false := by
      rw [beq_eq_false_iff_ne]
      intro he
      subst he
      exact absurd h.1 (by decide)
    obtain ⟨g, gs, hsplit⟩ := List.exists_cons_of_ne_nil (List.splitOn_ne_nil '.' (sp ++ t))
    have htrim : numeral3 (c :: g) = numeral3 g := by
      rw [numeral3, numeral3, trim_cons_of_isspace h.1]
    rw [← ih h.2, dotted, dotted, List.cons_append, List.splitOn_cons_eq_if_modifyHead, hdot,
      if_neg (by simp), hsplit]
    simp [dottedTail, htrim]

/-- The end of a field: the loop reads it and goes on behind the dot. -/
theorem ipv4toiLoop_field {str f rest : List Char} {size minDots n i startIdx k value : Nat}
    {c : Char} (hread : read str i = some c) (hend : c = '.' ∨ i = size)
    (hfield : str.drop startIdx = f ++ rest) (hlen : i - startIdx = f.length) (hk : k ≤ 4)
    (fs : List (List Char))
    (hnext : ∀ v, k < 4 → (ipv4toiLoop str size minDots n (i + 1)
        (BitVec.ofNat 32 (2 ^ (8 * (4 - (k + 1))) * v)) (3 - (k + 1 : Nat)) (i + 1)).map result =
      some (dottedTail minDots (k + 1) v fs)) :
    (ipv4toiLoop str size minDots (n + 1) i (BitVec.ofNat 32 (2 ^ (8 * (4 - k)) * value))
      (3 - (k : Int)) startIdx).map result = some (dottedTail minDots k value (f :: fs)) := by
  rw [ipv4toiLoop, hread, Option.bind_eq_bind, Option.bind_some, if_pos hend, hfield, hlen,
    atoi3Trim_text, dottedTail]
  by_cases hk4 : k = 4
  · subst hk4
    rfl
  · rw [if_neg (by omega), if_neg hk4, Option.bind_eq_bind, Option.bind_some]
    cases hn : numeral3 f with
    | none =>
      rw [if_pos (by decide)]
      rfl
    | some o =>
      have hgt : encode (some o) > 0xFF ↔ 255 < o := by
        have h := encode_digits3_gt (t := trim f)
        rw [numeral3] at hn
        simpa [hn] using h
      show Option.map result (if encode (some o) > 0xFF then _ else _) =
        some (if 255 < o then _ else _)
      by_cases ho : 255 < o
      · rw [if_pos (hgt.mpr ho), if_pos ho]
        rfl
      · have hidx : (8 * (3 - (k : Int))).toNat = 8 * (4 - (k + 1)) := by omega
        have hnextIdx : 3 - (k : Int) - 1 = 3 - ((k + 1 : Nat) : Int) := by omega
        have hpow : 2 ^ (8 * (4 - k)) * value = 2 ^ (8 + 8 * (4 - (k + 1))) * value := by
          rw [show 8 * (4 - k) = 8 + 8 * (4 - (k + 1)) by omega]
        have hret : BitVec.ofNat 32 (2 ^ (8 * (4 - k)) * value) |||
            encode (some o) <<< (8 * (4 - (k + 1))) =
              BitVec.ofNat 32 (2 ^ (8 * (4 - (k + 1))) * (256 * value + o)) := by
          rw [hpow, encode, Word.ofNat_shiftLeft, Word.ofNat_or_of_lt]
          · congr 1
            rw [Nat.pow_add]
            ring
          · rw [Nat.pow_add]
            exact Nat.mul_lt_mul_of_pos_right (by omega) (Nat.two_pow_pos _)
        rw [if_neg (fun h => ho (hgt.mp h)), if_neg ho, hidx, hnextIdx, hret]
        exact hnext _ (by omega)

/-- The loop, on a field of which `f` is read and `u` is not. -/
theorem ipv4toiLoop_text (minDots k value : Nat) (hk : k ≤ 4) (p f u rest : List Char) :
    (ipv4toiLoop (p ++ f ++ u ++ rest) (p ++ f ++ u).length minDots (u.length + 1) (p ++ f).length
      (BitVec.ofNat 32 (2 ^ (8 * (4 - k)) * value)) (3 - (k : Int)) p.length).map result =
    some (dottedTail minDots k value (List.splitOnPPrepend (· == '.') u f.reverse)) := by
  induction u generalizing p f k value with
  | nil =>
    obtain ⟨c, hread⟩ := read_append (p ++ f) rest
    have hfield : (p ++ f ++ [] ++ rest).drop p.length = f ++ rest := by simp
    rw [List.splitOnPPrepend_nil, List.reverse_reverse]
    refine ipv4toiLoop_field (by simpa using hread) (Or.inr (by simp)) hfield (by simp) hk [] ?_
    intro v hk4
    have hvalid : (3 - ((k + 1 : Nat) : Int) ≤ 2 - minDots) ↔ minDots < k + 1 := by omega
    simp only [List.length_nil, ipv4toiLoop, Option.map_some, result, decide_eq_true_eq, hvalid,
      dottedTail]
  | cons c u ih =>
    have hread : read (p ++ f ++ c :: u ++ rest) (p ++ f).length = some c :=
      read_scan (p ++ f) u rest c
    by_cases hdot : c = '.'
    · subst hdot
      have hfield : (p ++ f ++ '.' :: u ++ rest).drop p.length = f ++ ('.' :: u ++ rest) := by simp
      rw [List.splitOnPPrepend_cons_pos (by simp), List.reverse_reverse, List.length_cons]
      refine ipv4toiLoop_field hread (Or.inl rfl) hfield (by simp) hk _ ?_
      intro v hk4
      have hnext := ih (k + 1) v (by omega) (p ++ f ++ ['.']) []
      simpa [List.append_assoc, Nat.add_assoc] using hnext
    · have hnot : ¬ (c = '.' ∨ (p ++ f).length = (p ++ f ++ c :: u).length) := by
        simp [hdot]
      have hgo : (ipv4toiLoop (p ++ f ++ c :: u ++ rest) (p ++ f ++ c :: u).length minDots
          (u.length + 1) ((p ++ f).length + 1) (BitVec.ofNat 32 (2 ^ (8 * (4 - k)) * value))
          (3 - (k : Int)) p.length).map result =
          some (dottedTail minDots k value
            (List.splitOnPPrepend (· == '.') u (c :: f.reverse))) := by
        have hnext := ih k value hk p (f ++ [c])
        simpa [List.append_assoc, Nat.add_assoc] using hnext
      rw [List.splitOnPPrepend_cons_neg (by simp [hdot]), List.length_cons, ipv4toiLoop, hread,
        Option.bind_eq_bind, Option.bind_some, if_neg hnot]
      cases hspace : isspace c with
      | true => simpa using hgo
      | false =>
        cases hdigit : isdigit c with
        | true =>
          have hin : ¬ (c < '0' ∨ '9' < c) := by
            rw [← not_isdigit_iff, hdigit]
            simp
          rw [if_neg (by simp), if_neg hin]
          exact hgo
        | false =>
          -- the character stays in its field, which then has no value
          obtain ⟨g, gs, hsplit⟩ := List.exists_cons_of_ne_nil
            (List.splitOnP_ne_nil (fun x => x == '.') u)
          have hmem : c ∈ (c :: f.reverse).reverse ++ g := by simp
          rw [if_neg (by simp), if_pos (not_isdigit_iff.mp hdigit),
            List.splitOnPPrepend_eq_modifyHead, hsplit, List.modifyHead_cons,
            dottedTail_of_none (numeral3_eq_none_of_mem hmem hspace hdigit)]
          rfl

theorem skipSpaces_append {sp : List Char} (h : sp.all isspace = true) (p rest : List Char)
    (n : Nat) : skipSpaces (p ++ sp ++ rest) (sp.length + n) p.length =
      skipSpaces (p ++ sp ++ rest) n (p ++ sp).length := by
  induction sp generalizing p with
  | nil => simp
  | cons c sp ih =>
    simp only [List.all_cons, Bool.and_eq_true] at h
    have hlen : (c :: sp).length + n = sp.length + n + 1 := by simp; omega
    have hnext := ih h.2 (p ++ [c])
    rw [hlen, skipSpaces, read_scan, Option.bind_eq_bind, Option.bind_some, if_pos h.1]
    simpa [List.append_assoc] using hnext

/-- **`ipv4toi` reads the address that its text stands for.** -/
theorem ipv4toi_text (minDots : Nat) (t rest : List Char) :
    (ipv4toi (t ++ rest) t.length minDots).map result = some (dotted minDots t) := by
  cases t with
  | nil => simp [ipv4toi, result, dotted, dottedTail, numeral3, digits3]
  | cons c t =>
    generalize htext : c :: t = u
    have hne : u.length ≠ 0 := by simp [← htext]
    have hsplit : u.takeWhile isspace ++ u.dropWhile isspace = u := List.takeWhile_append_dropWhile
    have hsp : (u.takeWhile isspace).all isspace = true := List.all_takeWhile
    generalize u.takeWhile isspace = sp at hsplit hsp
    generalize hv : u.dropWhile isspace = v at hsplit
    subst hsplit
    have hskip : skipSpaces (sp ++ v ++ rest) ((sp ++ v).length + 1) 0 =
        skipSpaces (sp ++ v ++ rest) (v.length + 1) sp.length := by
      have h := skipSpaces_append hsp [] (v ++ rest) (v.length + 1)
      simpa [List.append_assoc, Nat.add_assoc] using h
    have hloop := ipv4toiLoop_text minDots 0 0 (by omega) sp [] v rest
    simp only [List.append_nil, List.reverse_nil, List.splitOnPPrepend_nil_right] at hloop
    obtain ⟨x, hread⟩ := read_append sp (v ++ rest)
    rw [← List.append_assoc] at hread
    rw [ipv4toi, if_neg hne, hskip, skipSpaces, hread, dotted_append_space hsp]
    simp only [Option.bind_eq_bind, Option.bind_some]
    cases hx : isspace x with
    | false =>
      have hlen : sp.length + v.length + 1 - sp.length = v.length + 1 := by omega
      simpa [hlen, dotted, List.splitOn_eq_splitOnP] using hloop
    | true =>
      -- only white space, and more of it behind the text
      cases v with
      | cons y v =>
        have hy : isspace y = false := by
          have hhead := List.head_dropWhile_not (p := isspace) (l := sp ++ y :: v) (by simp [hv])
          simpa [hv] using hhead
        rw [List.append_assoc, List.cons_append, read_append_cons] at hread
        cases hread
        simp [hx] at hy
      | nil =>
        have hnone : sp.length + 1 - (sp.length + 1) = 0 := by omega
        have hvalid : ¬ (3 : Int) ≤ 2 - minDots := by omega
        simp [skipSpaces, ipv4toiLoop, result, hvalid, dotted, dottedTail, numeral3, digits3]

/-- The two ways `ipv4toi` ends. -/
theorem ipv4toi_cases (minDots : Nat) (t rest : List Char) :
    (∃ a, ipv4toi (t ++ rest) t.length minDots = some (a, true) ∧ dotted minDots t = some a) ∨
      (∃ a, ipv4toi (t ++ rest) t.length minDots = some (a, false) ∧ dotted minDots t = none) := by
  obtain ⟨⟨a, valid⟩, hrun, hresult⟩ := Option.map_eq_some_iff.mp (ipv4toi_text minDots t rest)
  cases valid with
  | true => exact Or.inl ⟨a, hrun, hresult.symm⟩
  | false => exact Or.inr ⟨a, hrun, hresult.symm⟩

end Leeloo.IpsParser
