/-
Leeloo.ParserBounds — where `__parse_ips` and its helpers read, and the
lengths they give to `atoi3_trim`.

Reads are checked by the model itself: a read outside the string makes a
function return `none`. The one other `none` is the negative shift of
`cidr2mask`, which comes behind the last read. The lengths are listed by
the functions named `…Trims`, one beside each function that calls
`atoi3_trim`, in the order of the calls.
-/
import Leeloo.Rejection

namespace Leeloo.IpsParser

open CString Text

/-- A call of `atoi3_trim`: the length it is given, and the length of the
string from its pointer on. -/
structure TrimCall where
  len : Nat
  left : Nat
  deriving DecidableEq, Repr

def TrimCall.Fits (c : TrimCall) : Prop := c.len ≤ c.left

/-! ## The calls -/

/-- The calls of the second loop of `ipv4toi`. -/
def ipv4toiLoopTrims (str : List Char) (size : Nat) :
    (n i : Nat) → (curIdx : Int) → (startIdx : Nat) → List TrimCall
  | 0, _, _, _ => []
  | n + 1, i, curIdx, startIdx =>
    match read str i with
    | none => []
    | some c =>
      if c = '.' ∨ i = size then
        if curIdx < 0 then []
        else
          ⟨i - startIdx, (str.drop startIdx).length⟩ ::
            match atoi3Trim (str.drop startIdx) (i - startIdx) with
            | none => []
            | some curInt =>
              if curInt > 0xFF then []
              else ipv4toiLoopTrims str size n (i + 1) (curIdx - 1) (i + 1)
      else if isspace c then ipv4toiLoopTrims str size n (i + 1) curIdx startIdx
      else if c < '0' ∨ '9' < c then []
      else ipv4toiLoopTrims str size n (i + 1) curIdx startIdx

/-- The calls of `ipv4toi`. -/
def ipv4toiTrims (str : List Char) (size : Nat) : List TrimCall :=
  if size = 0 then []
  else match skipSpaces str (size + 1) 0 with
    | none => []
    | some i => ipv4toiLoopTrims str size (size + 1 - i) i 3 i

/-- The calls for a field written as a pair. -/
def parsePairTrims (cur : List Char) (dash len : Nat) : List TrimCall :=
  [⟨dash, cur.length⟩, ⟨len, (cur.drop (dash + 1)).length⟩]

/-- The calls in the body of the `while`. -/
def parseFieldTrims (cur : List Char) (dot : Nat) : List TrimCall :=
  match memchr cur '-' dot with
  | some dash => parsePairTrims cur dash (dot - (dash + 1))
  | none => [⟨dot, cur.length⟩]

/-- The calls of the `while` loop. -/
def fieldsLoopTrims : (n : Nat) → (cur : List Char) → List TrimCall
  | 0, _ => []
  | n + 1, cur =>
    match strchr cur '.' with
    | none => []
    | some dot =>
      parseFieldTrims cur dot ++
        match parseField cur dot with
        | some (some _) => fieldsLoopTrims n (cur.drop (dot + 1))
        | _ => []

/-- The calls for the last field. -/
def parseLastTrims (cur : List Char) (sizeCur len : Nat) : List TrimCall :=
  match strchr cur '-' with
  | some dash => parsePairTrims cur dash (sizeCur - (dash + 1))
  | none => [⟨len, cur.length⟩]

/-- The calls of the block by block branch. -/
def parseBlocksTrims (str : CString) : List TrimCall :=
  fieldsLoopTrims 4 str.chars ++
    match fieldsLoop 4 str.chars [] with
    | some (some ⟨dot, cur, [_, _, _]⟩) =>
      let offset := str.chars.length - cur.length
      parseLastTrims cur (str.chars.length - offset) (subPtr dot (str.addr + offset))
    | _ => []

/-- The calls of the branch for exactly one dash. -/
def parseRangeTrims (str : CString) : List TrimCall :=
  match strchr str.chars '-' with
  | none => []
  | some idxSep =>
    let part2 := str.chars.drop (idxSep + 1)
    if read part2 0 = some '\x00' then []
    else
      ipv4toiTrims str.chars idxSep ++
        match ipv4toi str.chars idxSep 3 with
        | some (_, true) => ipv4toiTrims part2 (str.chars.length - (idxSep + 1))
        | _ => []

/-- The calls of the CIDR branch. -/
def parseCidrTrims (str : CString) : List TrimCall :=
  match strchr str.chars '/' with
  | none => []
  | some slash =>
    if cidrOf (str.chars.drop (slash + 1)) < 0 then [] else ipv4toiTrims str.chars slash

/-- The calls of `__parse_ips`. -/
def parseIpsTrims (str : CString) : List TrimCall :=
  let sizeStr := str.chars.length
  match countCharBuf str.chars sizeStr '-', countCharBuf str.chars sizeStr '/' with
  | some ndashes, some nslashes =>
    if nslashes = 0 ∧ ndashes = 0 then ipv4toiTrims str.chars sizeStr
    else if ndashes = 1 then if 0 < nslashes then [] else parseRangeTrims str
    else if 1 < nslashes then []
    else if ndashes = 0 then parseCidrTrims str
    else parseBlocksTrims str
  | _, _ => []

/-! ## Addresses -/

theorem ipv4toiLoopTrims_fits {str : List Char} {size n i : Nat} (curIdx : Int) {startIdx : Nat}
    (hend : n + i ≤ str.length + 1) :
    ∀ c ∈ ipv4toiLoopTrims str size n i curIdx startIdx, c.Fits := by
  induction n generalizing i curIdx startIdx with
  | zero => simp [ipv4toiLoopTrims]
  | succ n ih =>
    intro c hc
    have hskip : ∀ idx, ∀ c ∈ ipv4toiLoopTrims str size n (i + 1) idx startIdx, c.Fits :=
      fun idx => ih idx (by omega)
    have hnext : ∀ idx, ∀ c ∈ ipv4toiLoopTrims str size n (i + 1) idx (i + 1), c.Fits :=
      fun idx => ih idx (by omega)
    have hfits : TrimCall.Fits ⟨i - startIdx, (str.drop startIdx).length⟩ := by
      simp only [TrimCall.Fits, List.length_drop]
      omega
    unfold ipv4toiLoopTrims at hc
    split at hc
    · cases hc
    · split at hc
      · split at hc
        · cases hc
        · cases List.mem_cons.mp hc with
          | inl he => exact he ▸ hfits
          | inr hc =>
            split at hc
            · cases hc
            · split at hc
              · cases hc
              · exact hnext _ c hc
      · split at hc
        · exact hskip _ c hc
        · split at hc
          · cases hc
          · exact hskip _ c hc

theorem skipSpaces_le {str : List Char} {n i j : Nat} (h : skipSpaces str n i = some j) :
    j ≤ i + n := by
  induction n generalizing i with
  | zero =>
    cases h
    omega
  | succ n ih =>
    simp only [skipSpaces, Option.bind_eq_bind, Option.bind_eq_some_iff] at h
    obtain ⟨c, -, h⟩ := h
    split at h
    · have hle := ih h
      omega
    · cases h
      omega

theorem ipv4toiTrims_fits {str : List Char} {size : Nat} (h : size ≤ str.length) :
    ∀ c ∈ ipv4toiTrims str size, c.Fits := by
  intro c hc
  unfold ipv4toiTrims at hc
  split at hc
  · cases hc
  · split at hc
    · cases hc
    · rename_i i hskip
      have hle := skipSpaces_le hskip
      exact ipv4toiLoopTrims_fits 3 (by omega) c hc

/-! ## Fields -/

theorem parsePairTrims_fits {t u rest : List Char} :
    ∀ c ∈ parsePairTrims (t ++ '-' :: u ++ rest) t.length u.length, c.Fits := by
  have hdrop : (t ++ '-' :: u ++ rest).drop (t.length + 1) = u ++ rest := by
    rw [List.append_assoc, List.cons_append]
    exact drop_append_cons t (u ++ rest) '-'
  simp only [parsePairTrims, hdrop, TrimCall.Fits]
  simp

theorem parseFieldTrims_fits (f rest : List Char) :
    ∀ c ∈ parseFieldTrims (f ++ rest) f.length, c.Fits := by
  unfold parseFieldTrims
  by_cases hf : '-' ∈ f
  · obtain ⟨t, u, rfl, ht⟩ := List.eq_append_cons_of_mem hf
    have hlen : (t ++ '-' :: u).length - (t.length + 1) = u.length := by
      rw [← List.length_drop, drop_append_cons]
    rw [memchr_append_cons ht]
    show ∀ c ∈ parsePairTrims _ t.length _, c.Fits
    rw [hlen]
    exact parsePairTrims_fits
  · rw [memchr_eq_none hf]
    simp [TrimCall.Fits]

theorem fieldsLoopTrims_fits (n : Nat) (cur : List Char) : ∀ c ∈ fieldsLoopTrims n cur, c.Fits := by
  induction n generalizing cur with
  | zero => simp [fieldsLoopTrims]
  | succ n ih =>
    unfold fieldsLoopTrims
    by_cases hdot : '.' ∈ cur
    · obtain ⟨f, rest, rfl, hf⟩ := List.eq_append_cons_of_mem hdot
      rw [strchr_append_cons hf]
      intro c hc
      cases List.mem_append.mp hc with
      | inl hc => exact parseFieldTrims_fits f ('.' :: rest) c hc
      | inr hc =>
        split at hc
        · exact ih _ c hc
        · cases hc
    · rw [strchr_eq_none hdot]
      simp

theorem parseLastTrims_fits {cur : List Char} (h : '-' ∈ cur) (len : Nat) :
    ∀ c ∈ parseLastTrims cur cur.length len, c.Fits := by
  obtain ⟨t, u, rfl, ht⟩ := List.eq_append_cons_of_mem h
  have hlen : (t ++ '-' :: u).length - (t.length + 1) = u.length := by
    rw [← List.length_drop, drop_append_cons]
  have hpair : ∀ c ∈ parsePairTrims (t ++ '-' :: u ++ []) t.length u.length, c.Fits :=
    parsePairTrims_fits
  rw [List.append_nil] at hpair
  rw [parseLastTrims, strchr_append_cons ht]
  show ∀ c ∈ parsePairTrims _ t.length _, c.Fits
  rw [hlen]
  exact hpair

/-! ## Branches -/

theorem parseRangeTrims_fits (str : CString) : ∀ c ∈ parseRangeTrims str, c.Fits := by
  unfold parseRangeTrims
  by_cases hdash : '-' ∈ str.chars
  · obtain ⟨t, u, hstr, ht⟩ := List.eq_append_cons_of_mem hdash
    have hsize : (t ++ '-' :: u).length - (t.length + 1) = u.length := by
      rw [← List.length_drop, drop_append_cons]
    have hfirst : ∀ c ∈ ipv4toiTrims (t ++ '-' :: u) t.length, c.Fits :=
      ipv4toiTrims_fits (by simp)
    have hsecond : ∀ c ∈ ipv4toiTrims u u.length, c.Fits := ipv4toiTrims_fits (Nat.le_refl _)
    rw [hstr, strchr_append_cons ht]
    simp only [drop_append_cons, hsize]
    intro c hc
    split at hc
    · cases hc
    · cases List.mem_append.mp hc with
      | inl hc => exact hfirst c hc
      | inr hc =>
        split at hc
        · exact hsecond c hc
        · cases hc
  · rw [strchr_eq_none hdash]
    simp

theorem parseCidrTrims_fits (str : CString) : ∀ c ∈ parseCidrTrims str, c.Fits := by
  unfold parseCidrTrims
  by_cases hslash : '/' ∈ str.chars
  · obtain ⟨t, u, hstr, ht⟩ := List.eq_append_cons_of_mem hslash
    have hfirst : ∀ c ∈ ipv4toiTrims (t ++ '/' :: u) t.length, c.Fits :=
      ipv4toiTrims_fits (by simp)
    rw [hstr, strchr_append_cons ht]
    intro c hc
    simp only at hc
    split at hc
    · cases hc
    · exact hfirst c hc
  · rw [strchr_eq_none hslash]
    simp

/-- Four fields whose last is read although nothing says how long it is. -/
def Overruns (s : List Char) : Prop :=
  2 ≤ s.count '-' ∧ s.count '/' ≤ 1 ∧ ∃ f0 f1 f2 f3, s.splitOn '.' = [f0, f1, f2, f3] ∧
    IsField f0 ∧ IsField f1 ∧ IsField f2 ∧ '-' ∉ f3

theorem isField_iff {f : List Char} : IsField f ↔ ∃ i, fieldBytes f = some i :=
  Option.isSome_iff_exists

/-- In the block by block branch only a last field without a dash is read
outside the string. -/
theorem parseBlocks_eq_none_iff {str : CString} (hdash : 2 ≤ str.chars.count '-')
    (hslash : str.chars.count '/' ≤ 1) (exclude : Bool) (l : IpListIntervals) :
    parseBlocks exclude l str = none ↔ Overruns str.chars := by
  constructor
  · intro h
    by_cases hlen : (str.chars.splitOn '.').length = 4
    · obtain ⟨f0, f1, f2, f3, hsplit⟩ := List.length_eq_four.mp hlen
      refine ⟨hdash, hslash, f0, f1, f2, f3, hsplit, ?_⟩
      rw [parseBlocks_four hsplit, blocksOf] at h
      unfold IsField
      cases h0 : fieldBytes f0 with
      | none => simp [h0] at h
      | some i0 =>
        cases h1 : fieldBytes f1 with
        | none => simp [h0, h1] at h
        | some i1 =>
          cases h2 : fieldBytes f2 with
          | none => simp [h0, h1, h2] at h
          | some i2 =>
            refine ⟨rfl, rfl, rfl, fun hd => ?_⟩
            cases h3 : fieldBytes f3 <;> simp [h0, h1, h2, h3, hd] at h
    · rw [parseBlocks_of_length_ne hlen] at h
      cases h
  · rintro ⟨-, -, f0, f1, f2, f3, hsplit, h0, h1, h2, h3⟩
    obtain ⟨i0, h0⟩ := isField_iff.mp h0
    obtain ⟨i1, h1⟩ := isField_iff.mp h1
    obtain ⟨i2, h2⟩ := isField_iff.mp h2
    rw [parseBlocks_four hsplit, blocksOf, h0, h1, h2]
    simp [h3]

theorem parseBlocksTrims_fits {str : CString} (hdash : 2 ≤ str.chars.count '-')
    (hslash : str.chars.count '/' ≤ 1) (h : ¬ Overruns str.chars) :
    ∀ c ∈ parseBlocksTrims str, c.Fits := by
  intro c hc
  cases List.mem_append.mp hc with
  | inl hc => exact fieldsLoopTrims_fits 4 str.chars c hc
  | inr hc =>
    obtain ⟨r, hrun, hr⟩ := fieldsLoop_intervals 4 str.chars []
    rw [hrun] at hc
    split at hc
    · rename_i dot cur i0 i1 i2 heq
      have hr3 := hr _ (Option.some.inj heq)
      simp only [List.length_cons, List.length_nil] at hr3
      have hlen : (str.chars.splitOn '.').length = 4 := by omega
      obtain ⟨f0, f1, f2, f3, hsplit⟩ := List.length_eq_four.mp hlen
      rw [heq, fieldsLoop_four hsplit] at hrun
      have hlast : IsField f0 ∧ IsField f1 ∧ IsField f2 ∧ cur = f3 := by
        unfold IsField
        cases h0 : fieldBytes f0 with
        | none => simp [h0] at hrun
        | some j0 =>
          cases h1 : fieldBytes f1 with
          | none => simp [h0, h1] at hrun
          | some j1 =>
            cases h2 : fieldBytes f2 with
            | none => simp [h0, h1, h2] at hrun
            | some j2 =>
              simp [h0, h1, h2] at hrun
              exact ⟨rfl, rfl, rfl, hrun.2.1.symm⟩
      obtain ⟨h0, h1, h2, rfl⟩ := hlast
      have hmem : '-' ∈ cur := by
        by_contra hno
        exact h ⟨hdash, hslash, f0, f1, f2, cur, hsplit, h0, h1, h2, hno⟩
      have hlt := length_last_lt hsplit
      have hoff : str.chars.length - (str.chars.length - cur.length) = cur.length := by omega
      simp only [hoff] at hc
      exact parseLastTrims_fits hmem _ c hc
    · cases hc

/-! ## The whole parser -/

/-- The CIDR branch is taken and has read all it reads when it calls
`insert_cidr` with a prefix length above 32. -/
def ShiftsNegative (str : CString) : Prop :=
  str.chars.count '-' = 0 ∧ str.chars.count '/' = 1 ∧
    ∃ slash ip, strchr str.chars '/' = some slash ∧
      ipv4toi str.chars slash 0 = some (ip, true) ∧ 32 < cidrOf (str.chars.drop (slash + 1))

/-- Every read is inside the string, so that nothing but the shift ends a
call early, and every length fits. -/
structure StaysInside (str : CString) : Prop where
  reads : ∀ exclude l, parseIps exclude l str = none → ShiftsNegative str
  lengths : ∀ c ∈ parseIpsTrims str, c.Fits

theorem shiftsNegative_of_parseCidr {str : CString} (hdash : str.chars.count '-' = 0)
    (hslash : str.chars.count '/' = 1) {exclude : Bool} {l : IpListIntervals}
    (h : parseCidr exclude l str = none) : ShiftsNegative str := by
  have hpos : 0 < str.chars.count '/' := by omega
  refine ⟨hdash, hslash, ?_⟩
  replace hslash : '/' ∈ str.chars := List.count_pos_iff.mp hpos
  obtain ⟨t, u, hstr, ht⟩ := List.eq_append_cons_of_mem hslash
  rw [parseCidr_text exclude l hstr ht] at h
  split at h
  · cases h
  · rename_i hneg
    obtain ⟨ip, hrun, hd⟩ | ⟨ip, hrun, hd⟩ := ipv4toi_cases 0 t ('/' :: u)
    · have hcidr : 32 < cidrOf u := by
        by_contra hle
        have hnat : cidrOf u = ((cidrOf u).toNat : Int) := by omega
        rw [hd] at h
        simp only at h
        rw [hnat, IpListIntervals.insertCidr_of_le exclude l ip (by omega)] at h
        cases h
      refine ⟨t.length, ip, ?_, ?_, ?_⟩
      · rw [hstr, strchr_append_cons ht]
      · rw [hstr]
        exact hrun
      · rw [hstr, drop_append_cons]
        exact hcidr
    · rw [hd] at h
      cases h

theorem parseRange_ne_none (exclude : Bool) (l : IpListIntervals) {str : CString}
    (hdash : '-' ∈ str.chars) : parseRange exclude l str ≠ none := by
  obtain ⟨t, u, hstr, ht⟩ := List.eq_append_cons_of_mem hdash
  rw [parseRange_text exclude l hstr ht]
  simp

/-- The parser ends early at an overrun or at the shift. -/
theorem parseIps_eq_none {exclude : Bool} {l : IpListIntervals} {str : CString}
    (h : parseIps exclude l str = none) : Overruns str.chars ∨ ShiftsNegative str := by
  rw [parseIps_eq] at h
  by_cases hnone : str.chars.count '/' = 0 ∧ str.chars.count '-' = 0
  · rw [if_pos hnone] at h
    cases h
  · rw [if_neg hnone] at h
    by_cases hone : str.chars.count '-' = 1
    · have hmem : '-' ∈ str.chars := List.count_pos_iff.mp (by omega)
      rw [if_pos hone] at h
      split at h
      · cases h
      · exact absurd h (parseRange_ne_none exclude l hmem)
    · rw [if_neg hone] at h
      by_cases hslash : 1 < str.chars.count '/'
      · rw [if_pos hslash] at h
        cases h
      · rw [if_neg hslash] at h
        by_cases hzero : str.chars.count '-' = 0
        · rw [if_pos hzero] at h
          exact Or.inr (shiftsNegative_of_parseCidr hzero (by omega) h)
        · rw [if_neg hzero] at h
          have htwo : 2 ≤ str.chars.count '-' := by omega
          have hle : str.chars.count '/' ≤ 1 := by omega
          exact Or.inl ((parseBlocks_eq_none_iff htwo hle exclude l).mp h)

theorem parseIpsTrims_fits {str : CString} (hover : ¬ Overruns str.chars) :
    ∀ c ∈ parseIpsTrims str, c.Fits := by
  have hcount : ∀ c, countCharBuf str.chars str.chars.length c = some (str.chars.count c) := by
    intro c
    have h := countCharBuf_text str.chars [] c
    rwa [List.append_nil] at h
  have hsimple : ∀ c ∈ ipv4toiTrims str.chars str.chars.length, c.Fits :=
    ipv4toiTrims_fits (Nat.le_refl _)
  unfold parseIpsTrims
  simp only [hcount]
  intro c hc
  split at hc
  · exact hsimple c hc
  · split at hc
    · split at hc
      · cases hc
      · exact parseRangeTrims_fits str c hc
    · split at hc
      · cases hc
      · split at hc
        · exact parseCidrTrims_fits str c hc
        · exact parseBlocksTrims_fits (by omega) (by omega) hover c hc

/-- **The parser reads inside its string, and gives `atoi3_trim` lengths
that fit, exactly when it does not come to a last field without a dash.** -/
theorem staysInside_iff (str : CString) : StaysInside str ↔ ¬ Overruns str.chars := by
  constructor
  · intro hinside hover
    have hdash := hover.1
    have hslash := hover.2.1
    have hnone : parseIps false {} str = none := by
      rw [parseIps_eq, if_neg (by omega), if_neg (by omega), if_neg (by omega), if_neg (by omega)]
      exact (parseBlocks_eq_none_iff hdash hslash false {}).mpr hover
    have hzero := (hinside.reads false {} hnone).1
    omega
  · intro hover
    exact ⟨fun exclude l h => (parseIps_eq_none h).resolve_left hover, parseIpsTrims_fits hover⟩

/-- The help text's own example is read outside, with a length of nearly
`2^64`. -/
theorem usageSample_leaves :
    ¬ StaysInside ⟨"192.168-170.4-8.0".toList, 4096, by decide, by decide⟩ ∧
    (parseIpsTrims ⟨"192.168-170.4-8.0".toList, 4096, by decide, by decide⟩).getLast? =
      some ⟨2 ^ 64 - 4112, 1⟩ := by
  refine ⟨fun h => ?_, by decide⟩
  have hzero := (h.reads false {} (by decide)).1
  exact absurd hzero (by decide)

end Leeloo.IpsParser
