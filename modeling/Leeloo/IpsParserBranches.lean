/-
Leeloo.IpsParserBranches — what the branches of `__parse_ips` compute, as
functions of the text.

The theorems of `IpsParserText` take the scanners out of the way: here a
branch is read as a function of the parts of the string between its
separators, and the insertions it ends with as one list of intervals that
is appended.
-/
import Leeloo.IpsParserText

namespace Leeloo.IpsParser

open CString Text HalfOpen
open IpListIntervals (appended closedEnd)

/-! ## The choice of the branch -/

/-- **The branch depends on the numbers of dashes and slashes.** -/
theorem parseIps_eq (exclude : Bool) (l : IpListIntervals) (str : CString) :
    parseIps exclude l str =
      if str.chars.count '/' = 0 ∧ str.chars.count '-' = 0 then
        some (match dotted 3 str.chars with
          | none => (false, l)
          | some ip => (true, appended exclude l [⟨ip, closedEnd ip⟩]))
      else if str.chars.count '-' = 1 then
        if 0 < str.chars.count '/' then some (false, l) else parseRange exclude l str
      else if 1 < str.chars.count '/' then some (false, l)
      else if str.chars.count '-' = 0 then parseCidr exclude l str
      else parseBlocks exclude l str := by
  have hcount : ∀ c, countCharBuf str.chars str.chars.length c = some (str.chars.count c) := by
    intro c
    have h := countCharBuf_text str.chars [] c
    rwa [List.append_nil] at h
  have hcases := ipv4toi_cases 3 str.chars []
  rw [List.append_nil] at hcases
  unfold parseIps
  simp only [hcount, Option.bind_eq_bind, Option.bind_some]
  congr 1
  obtain ⟨a, hrun, ha⟩ | ⟨a, hrun, ha⟩ := hcases
  · have hrun : ipv4toi str.chars str.chars.length 3 = some (a, true) := hrun
    simp [hrun, ha, IpListIntervals.insert_eq_appended]
  · have hrun : ipv4toi str.chars str.chars.length 3 = some (a, false) := hrun
    simp [hrun, ha]

/-! ## The CIDR branch -/

/-- The prefix length that the code reads behind the slash: a `long`
narrowed to an `int`. -/
def cidrOf (u : List Char) : Int := (BitVec.ofInt 32 (strtol u)).toInt

/-- The number behind the slash, clamped to a `long`. -/
def longOf (u : List Char) : Nat := min (decimal (leadingDigits u)) (2 ^ 63 - 1)

/-- Narrowing makes a number negative when it sets the sign bit. -/
theorem cidrOf_neg_iff {u : List Char} (h : '-' ∉ u) :
    cidrOf u < 0 ↔ 2 ^ 31 ≤ longOf u % 2 ^ 32 := by
  have hlt := Nat.mod_lt (longOf u) (Nat.two_pow_pos 32)
  rw [cidrOf, strtol_of_notMem h, ← longOf, BitVec.toInt_ofInt, Int.bmod_def]
  omega

theorem cidrOf_of_lt {u : List Char} (h : '-' ∉ u) (hlt : longOf u < 2 ^ 31) :
    cidrOf u = longOf u := by
  rw [cidrOf, strtol_of_notMem h, ← longOf, BitVec.toInt_ofInt, Int.bmod_def]
  omega

/-- **The CIDR branch inserts the block of its address.** -/
theorem parseCidr_text (exclude : Bool) (l : IpListIntervals) {str : CString} {t u : List Char}
    (hstr : str.chars = t ++ '/' :: u) (ht : '/' ∉ t) :
    parseCidr exclude l str =
      if cidrOf u < 0 then some (false, l)
      else match dotted 0 t with
        | none => some (false, l)
        | some ip =>
          (IpListIntervals.insertCidr exclude l ip (cidrOf u)).map fun l => (true, l) := by
  unfold parseCidr
  rw [hstr, strchr_append_cons ht]
  simp only [drop_append_cons]
  show (if cidrOf u < 0 then _ else _) = _
  congr 1
  obtain ⟨a, hrun, ha⟩ | ⟨a, hrun, ha⟩ := ipv4toi_cases 0 t ('/' :: u)
  · have hrun : ipv4toi (t ++ '/' :: u) t.length 0 = some (a, true) := hrun
    simp only [hrun, ha, Option.bind_eq_bind, Option.bind_some, not_true_eq_false, if_false]
    show (IpListIntervals.insertCidr exclude l a (cidrOf u)).bind _ = _
    rw [Option.map_eq_bind]
    rfl
  · have hrun : ipv4toi (t ++ '/' :: u) t.length 0 = some (a, false) := hrun
    simp [hrun, ha]

/-! ## The one-dash branch -/

/-- The two addresses of a range: behind the dash stands an address, or a
number that replaces the last octet of the first. -/
def rangeEnds (t u : List Char) : Option (BitVec 32 × BitVec 32) := do
  let a ← dotted 3 t
  match dotted 3 u with
  | some b => some (a, b)
  | none =>
    let b ← digits3 u
    if 255 < b then none else some (a, (a &&& 0xFFFFFF00) ||| BitVec.ofNat 32 b)

/-- The interval of a range, with its ends in order. -/
def rangeInterval (ends : BitVec 32 × BitVec 32) : Interval 32 :=
  ⟨min ends.1 ends.2, closedEnd (max ends.1 ends.2)⟩

/-- It covers the range, less the last address. -/
theorem mem_rangeInterval_iff {a b v : BitVec 32} :
    v ∈ (rangeInterval (a, b)).toSet ↔ v ∈ Set.Icc (min a b) (max a b) ∧ v ≠ 0xFFFFFFFF := by
  rw [rangeInterval, IpListIntervals.mem_closed_iff, ← and_assoc]
  rfl

theorem rangeEnds_of_none {t u : List Char} (h : dotted 3 t = none) : rangeEnds t u = none := by
  simp [rangeEnds, h]

/-- Behind the dash, `b` is what `rangeEnds` says when the first address
is `a`. -/
theorem rangeEnds_of_some {t u : List Char} {a : BitVec 32} (h : dotted 3 t = some a) :
    rangeEnds t u =
      match dotted 3 u with
      | some b => some (a, b)
      | none => (digits3 u).bind fun b =>
          if 255 < b then none else some (a, (a &&& 0xFFFFFF00) ||| BitVec.ofNat 32 b) := by
  simp [rangeEnds, h]

/-- **The one-dash branch inserts the range between its two ends.** -/
theorem parseRange_text (exclude : Bool) (l : IpListIntervals) {str : CString} {t u : List Char}
    (hstr : str.chars = t ++ '-' :: u) (ht : '-' ∉ t) :
    parseRange exclude l str =
      some (match rangeEnds t u with
        | none => (false, l)
        | some ends => (true, appended exclude l [rangeInterval ends])) := by
  have hdrop : (t ++ '-' :: u).drop (t.length + 1) = u := drop_append_cons t u '-'
  have hsize : (t ++ '-' :: u).length - (t.length + 1) = u.length := by
    rw [← List.length_drop, hdrop]
  unfold parseRange
  rw [hstr, strchr_append_cons ht]
  simp only [Option.bind_eq_bind, Option.bind_some, hdrop, hsize]
  cases u with
  | nil =>
    have hnone : rangeEnds t [] = none := by
      cases hd : dotted 3 t with
      | none => exact rangeEnds_of_none hd
      | some a => rw [rangeEnds_of_some hd]; rfl
    simp [CString.read, hnone]
  | cons c u =>
    have hc : c ≠ '\x00' := by
      intro h
      exact str.noNul (by rw [hstr, h]; simp)
    rw [read_zero_append_cons, Option.bind_some, if_neg hc]
    obtain ⟨a, hfirst, ha⟩ | ⟨a, hfirst, ha⟩ := ipv4toi_cases 3 t ('-' :: c :: u)
    · have hfirst : ipv4toi (t ++ '-' :: c :: u) t.length 3 = some (a, true) := hfirst
      simp only [hfirst, Option.bind_some, not_true_eq_false, if_false]
      rw [rangeEnds_of_some ha]
      have hsecond := ipv4toi_cases 3 (c :: u) []
      rw [List.append_nil] at hsecond
      obtain ⟨b, hb, hdotted⟩ | ⟨b, hb, hdotted⟩ := hsecond
      · have hb : ipv4toi (c :: u) (c :: u).length 3 = some (b, true) := hb
        simp only [hb, hdotted, Option.bind_some, if_true]
        rw [IpListIntervals.insert_eq_appended]
        rfl
      · -- no address: just a number, read without trimming
        have hb : ipv4toi (c :: u) (c :: u).length 3 = some (b, false) := hb
        have hatoi := atoi3_text (c :: u) []
        rw [List.append_nil] at hatoi
        simp only [hb, hdotted, hatoi, Option.bind_some, Bool.false_eq_true, if_false]
        have hgt := encode_digits3_gt (t := c :: u)
        cases hn : digits3 (c :: u) with
        | none =>
          rw [if_pos (by decide)]
          rfl
        | some n =>
          have hn255 : encode (some n) > 0xFF ↔ 255 < n := by simpa [hn] using hgt
          by_cases h255 : 255 < n
          · rw [if_pos (hn255.mpr h255)]
            simp [h255]
          · rw [if_neg (fun h => h255 (hn255.mp h))]
            simp [h255, encode, rangeInterval, IpListIntervals.insert_eq_appended]
    · have hfirst : ipv4toi (t ++ '-' :: c :: u) t.length 3 = some (a, false) := hfirst
      simp [hfirst, rangeEnds_of_none ha]

/-! ## One field of a block range -/

/-- The bytes `set` is given, once for each field. -/
def byteInterval (m n : Nat) : ByteInterval := .set (BitVec.ofNat 8 m) (BitVec.ofNat 8 n)

theorem encode_setWidth (n : Nat) : (encode (some n)).setWidth 8 = BitVec.ofNat 8 n := by
  rw [encode, BitVec.toNat_eq]
  simp

theorem encode_numeral3_ne_neg_one {t : List Char} {n : Nat} (h : numeral3 t = some n) :
    encode (some n) ≠ -1 := by
  rw [ne_eq, ← h, numeral3, encode_digits3_eq_neg_one, ← numeral3, h]
  simp

theorem parseByte_text (t rest : List Char) :
    parseByte (t ++ rest) t.length = some ((numeral3 t).map fun n => byteInterval n n) := by
  unfold parseByte
  rw [atoi3Trim_text, Option.bind_eq_bind, Option.bind_some]
  cases hn : numeral3 t with
  | none => simp [encode]
  | some n =>
    rw [if_neg (encode_numeral3_ne_neg_one hn), encode_setWidth]
    rfl

theorem parsePair_text (t u rest : List Char) :
    parsePair (t ++ '-' :: u ++ rest) t.length u.length =
      some ((numeral3 t).bind fun m => (numeral3 u).map fun n => byteInterval m n) := by
  have hfirst := atoi3Trim_text t ('-' :: u ++ rest)
  have hsecond : (t ++ '-' :: u ++ rest).drop (t.length + 1) = u ++ rest := by
    rw [List.append_assoc, List.cons_append]
    exact drop_append_cons t (u ++ rest) '-'
  unfold parsePair
  rw [hsecond, List.append_assoc, hfirst, atoi3Trim_text]
  simp only [Option.bind_eq_bind, Option.bind_some]
  cases hm : numeral3 t with
  | none => simp [encode]
  | some m =>
    cases hn : numeral3 u with
    | none => simp [encode]
    | some n =>
      have hne : ¬ (encode (some m) = -1 ∨ encode (some n) = -1) := by
        rw [not_or]
        exact ⟨encode_numeral3_ne_neg_one hm, encode_numeral3_ne_neg_one hn⟩
      rw [if_neg hne, encode_setWidth, encode_setWidth]
      rfl

/-- The bytes of a field: those of its number, or of its two numbers. -/
def fieldBytes (f : List Char) : Option ByteInterval :=
  match f.splitOn '-' with
  | [t] => (numeral3 t).map fun n => byteInterval n n
  | [t, u] => (numeral3 t).bind fun m => (numeral3 u).map fun n => byteInterval m n
  | _ => none

theorem fieldBytes_byte {t : List Char} (ht : '-' ∉ t) :
    fieldBytes t = (numeral3 t).map fun n => byteInterval n n := by
  rw [fieldBytes, List.splitOn_eq_singleton ht]

/-- A second dash leaves no number behind the first. -/
theorem fieldBytes_pair {t : List Char} (ht : '-' ∉ t) (u : List Char) :
    fieldBytes (t ++ '-' :: u) =
      (numeral3 t).bind fun m => (numeral3 u).map fun n => byteInterval m n := by
  rw [fieldBytes, List.splitOn_append_cons_self_of_not_mem ht]
  by_cases hu : '-' ∈ u
  · obtain ⟨v, w, rfl, hv⟩ := List.eq_append_cons_of_mem hu
    obtain ⟨g, gs, hsplit⟩ := List.exists_cons_of_ne_nil (List.splitOn_ne_nil '-' w)
    rw [List.splitOn_append_cons_self_of_not_mem hv, hsplit, numeral3_eq_none_of_mem hu rfl rfl]
    simp
  · rw [List.splitOn_eq_singleton hu]

theorem parseField_text (f rest : List Char) :
    parseField (f ++ rest) f.length = some (fieldBytes f) := by
  by_cases hf : '-' ∈ f
  · obtain ⟨t, u, rfl, ht⟩ := List.eq_append_cons_of_mem hf
    have hlen : (t ++ '-' :: u).length - (t.length + 1) = u.length := by
      rw [← List.length_drop, drop_append_cons]
    rw [parseField, memchr_append_cons ht, fieldBytes_pair ht]
    show parsePair (t ++ '-' :: u ++ rest) t.length _ = _
    rw [hlen]
    exact parsePair_text t u rest
  · rw [parseField, memchr_eq_none hf, fieldBytes_byte hf]
    exact parseByte_text f rest

theorem parseLast_text {f : List Char} (hf : '-' ∈ f) (len : Nat) :
    parseLast f f.length len = some (fieldBytes f) := by
  obtain ⟨t, u, rfl, ht⟩ := List.eq_append_cons_of_mem hf
  have hlen : (t ++ '-' :: u).length - (t.length + 1) = u.length := by
    rw [← List.length_drop, drop_append_cons]
  have hpair := parsePair_text t u []
  rw [List.append_nil] at hpair
  rw [parseLast, strchr_append_cons ht, fieldBytes_pair ht]
  show parsePair (t ++ '-' :: u) t.length _ = _
  rw [hlen, hpair]

/-- **Without a dash in it, the last field is read outside the string.** -/
theorem parseLast_overrun {t : List Char} (ht : '-' ∉ t) {sizeCur len : Nat}
    (h : t.length + 1 < len) : parseLast t sizeCur len = none := by
  rw [parseLast, strchr_eq_none ht]
  show parseByte t len = none
  rw [parseByte, atoi3Trim_overrun h]
  rfl

/-! ## The loop over the fields -/

theorem fieldsLoop_cons {f : List Char} (hf : '.' ∉ f) (n : Nat) (cur : List Char)
    (intervals : List ByteInterval) :
    fieldsLoop (n + 1) (f ++ '.' :: cur) intervals =
      (fieldBytes f).elim (some none) fun i => fieldsLoop n cur (intervals ++ [i]) := by
  rw [fieldsLoop, strchr_append_cons hf]
  simp only [parseField_text, drop_append_cons, Option.bind_eq_bind, Option.bind_some]
  cases fieldBytes f <;> rfl

theorem fieldsLoop_last {cur : List Char} (h : '.' ∉ cur) (n : Nat)
    (intervals : List ByteInterval) :
    fieldsLoop n cur intervals = some (some ⟨none, cur, intervals⟩) := by
  cases n <;> simp [fieldsLoop, strchr_eq_none h]

/-- The loop sets an interval for each dot it passes, at most `n`. -/
theorem fieldsLoop_intervals (n : Nat) (cur : List Char) (intervals : List ByteInterval) :
    ∃ r, fieldsLoop n cur intervals = some r ∧ ∀ x, r = some x →
      x.intervals.length = intervals.length + min n ((cur.splitOn '.').length - 1) := by
  induction n generalizing cur intervals with
  | zero => exact ⟨_, rfl, by simp⟩
  | succ n ih =>
    by_cases hdot : '.' ∈ cur
    · obtain ⟨f, cur, rfl, hf⟩ := List.eq_append_cons_of_mem hdot
      have hpos := List.length_pos_of_ne_nil (List.splitOn_ne_nil '.' cur)
      rw [fieldsLoop_cons hf, List.splitOn_append_cons_self_of_not_mem hf]
      cases fieldBytes f with
      | none => exact ⟨none, rfl, by simp⟩
      | some i =>
        obtain ⟨r, hrun, hr⟩ := ih cur (intervals ++ [i])
        refine ⟨r, hrun, fun x hx => ?_⟩
        rw [hr x hx, List.length_append, List.length_cons, List.length_cons, List.length_nil]
        omega
    · exact ⟨_, fieldsLoop_last hdot _ _, by simp [List.splitOn_eq_singleton hdot]⟩

/-! ## The insertions -/

/-- The intervals of a block range, one for each choice of the first three
bytes. -/
def blockIntervals (i0 i1 i2 i3 : ByteInterval) : List (Interval 32) :=
  i0.values.flatMap fun a => i1.values.flatMap fun b => i2.values.map fun c =>
    ⟨ipBase a b c ||| i3.min.setWidth 32, closedEnd (ipBase a b c ||| i3.max.setWidth 32)⟩

/-- A loop whose body appends, appends what its passes append. -/
theorem foldl_appended {α : Type} (exclude : Bool) (f : α → List (Interval 32)) (xs : List α)
    (l : IpListIntervals) :
    xs.foldl (fun l x => appended exclude l (f x)) l = appended exclude l (xs.flatMap f) := by
  induction xs generalizing l with
  | nil => simp [IpListIntervals.appended_nil]
  | cons x xs ih => simp [ih, IpListIntervals.appended_appended]

theorem insertBlocks_eq_appended (exclude : Bool) (l : IpListIntervals)
    (i0 i1 i2 i3 : ByteInterval) :
    insertBlocks exclude l i0 i1 i2 i3 = appended exclude l (blockIntervals i0 i1 i2 i3) := by
  simp only [insertBlocks, IpListIntervals.insert_eq_appended, foldl_appended, blockIntervals,
    List.map_eq_flatMap]

/-! ## The block by block branch -/

/-- What is made of four fields. Without a dash in the last one it is read
outside the string, unless a field before it is already rejected. -/
def blocksOf (exclude : Bool) (l : IpListIntervals) (f0 f1 f2 f3 : List Char) :
    Option (Bool × IpListIntervals) :=
  (fieldBytes f0).elim (some (false, l)) fun i0 => (fieldBytes f1).elim (some (false, l)) fun i1 =>
    (fieldBytes f2).elim (some (false, l)) fun i2 =>
      if '-' ∈ f3 then
        (fieldBytes f3).elim (some (false, l)) fun i3 =>
          some (true, appended exclude l (blockIntervals i0 i1 i2 i3))
      else none

/-- The text of four fields. -/
theorem eq_of_splitOn_four {t f0 f1 f2 f3 : List Char} (hsplit : t.splitOn '.' = [f0, f1, f2, f3]) :
    t = f0 ++ '.' :: (f1 ++ '.' :: (f2 ++ '.' :: f3)) := by
  have hjoin : ['.'].intercalate (t.splitOn '.') = t := List.intercalate_splitOn '.'
  rw [← hjoin, hsplit]
  simp [List.intercalate]

theorem fieldsLoop_four {t f0 f1 f2 f3 : List Char} (hsplit : t.splitOn '.' = [f0, f1, f2, f3]) :
    fieldsLoop 4 t [] =
      (fieldBytes f0).elim (some none) fun i0 => (fieldBytes f1).elim (some none) fun i1 =>
        (fieldBytes f2).elim (some none) fun i2 => some (some ⟨none, f3, [i0, i1, i2]⟩) := by
  have hno : ∀ f ∈ [f0, f1, f2, f3], '.' ∉ f := by
    intro f hf
    rw [← hsplit] at hf
    exact notMem_of_mem_splitOn hf
  have h0 : '.' ∉ f0 := hno f0 (by simp)
  have h1 : '.' ∉ f1 := hno f1 (by simp)
  have h2 : '.' ∉ f2 := hno f2 (by simp)
  have h3 : '.' ∉ f3 := hno f3 (by simp)
  rw [eq_of_splitOn_four hsplit, fieldsLoop_cons h0]
  cases fieldBytes f0 with
  | none => rfl
  | some i0 =>
    rw [Option.elim_some, fieldsLoop_cons h1]
    cases fieldBytes f1 with
    | none => rfl
    | some i1 =>
      rw [Option.elim_some, fieldsLoop_cons h2]
      cases fieldBytes f2 with
      | none => rfl
      | some i2 => exact fieldsLoop_last h3 1 _

/-- The last of four fields starts inside the string, behind a dot. -/
theorem length_last_lt {t f0 f1 f2 f3 : List Char} (hsplit : t.splitOn '.' = [f0, f1, f2, f3]) :
    f3.length < t.length := by
  rw [eq_of_splitOn_four hsplit]
  simp
  omega

theorem parseBlocks_four {str : CString} {f0 f1 f2 f3 : List Char}
    (hsplit : str.chars.splitOn '.' = [f0, f1, f2, f3]) (exclude : Bool) (l : IpListIntervals) :
    parseBlocks exclude l str = blocksOf exclude l f0 f1 f2 f3 := by
  have hlt := length_last_lt hsplit
  have hoff : str.chars.length - (str.chars.length - f3.length) = f3.length := by omega
  unfold parseBlocks blocksOf
  rw [fieldsLoop_four hsplit]
  cases fieldBytes f0 with
  | none => rfl
  | some i0 =>
    cases fieldBytes f1 with
    | none => rfl
    | some i1 =>
      cases fieldBytes f2 with
      | none => rfl
      | some i2 =>
        simp only [Option.elim_some, Option.bind_eq_bind, Option.bind_some, hoff]
        by_cases hdash : '-' ∈ f3
        · rw [parseLast_text hdash, if_pos hdash]
          cases fieldBytes f3 with
          | none => rfl
          | some i3 => simp [insertBlocks_eq_appended]
        · have hfits := str.fits
          have hwrap : f3.length + 1 < subPtr none (str.addr + (str.chars.length - f3.length)) := by
            simp only [subPtr]
            omega
          rw [parseLast_overrun hdash hwrap, if_neg hdash]
          rfl

/-- **Only four fields are accepted.** -/
theorem parseBlocks_of_length_ne {str : CString} (h : (str.chars.splitOn '.').length ≠ 4)
    (exclude : Bool) (l : IpListIntervals) : parseBlocks exclude l str = some (false, l) := by
  obtain ⟨r, hrun, hr⟩ := fieldsLoop_intervals 4 str.chars []
  unfold parseBlocks
  rw [hrun]
  cases r with
  | none => rfl
  | some x =>
    obtain ⟨dot, cur, intervals⟩ := x
    have hlen : intervals.length = min 4 ((str.chars.splitOn '.').length - 1) := by
      simpa using hr _ rfl
    match intervals, hlen with
    | [], _ => rfl
    | [i0], _ => rfl
    | [i0, i1], _ => rfl
    | [i0, i1, i2], hlen =>
      simp only [List.length_cons, List.length_nil] at hlen
      omega
    | _ :: _ :: _ :: _ :: _, _ => rfl

end Leeloo.IpsParser
