/-
Leeloo.IpRangesRand — `tools/ip_ranges_rand.cpp`: the addresses that its
arguments add and do not remove, each printed once in a random order.

The program is the parser, `aggregate`, the index cache and `random_sets`
with `uni` as the generator, one behind the other, so its theorem is put
together from theirs. `RandEngine` is what `random_engine<uint32_t>` makes
of the Mersenne twister: the number that each call returns. `none` is a
string on which the parser is undefined, or a failed lookup.

Where nothing but 255.255.255.255 is added the list keeps an empty interval
at the end; the cache and the lookups are not disturbed by it
(`atCached_append_empty`).
-/
import Leeloo.IpSessions
import Leeloo.Display
import Leeloo.RandomSets
import Leeloo.Lib.RandomShuffle

namespace Leeloo

open CString Text HalfOpen IpsParser RandomShuffle ListIntervals

/-! ## An empty interval at the end -/

section Trailing

variable {w : Nat} {l : ListIntervals w w} {ns : List (Interval w)} {e : Interval w}

theorem getRthValueLoop_append_left {cur : BitVec w} (m : List (Interval w))
    (h : cur.toNat < widthSum ns) :
    getRthValueLoop w cur (ns ++ m) = getRthValueLoop w cur ns := by
  induction ns generalizing cur with
  | nil => simp at h
  | cons i ns ih =>
    rw [List.cons_append, getRthValueLoop, getRthValueLoop]
    by_cases hin : cur < i.width
    · rw [if_pos hin, if_pos hin]
    · have hge : i.width ≤ cur := not_lt.mp hin
      have hsub := Word.toNat_sub_of_le hge
      have hle : i.width.toNat ≤ cur.toNat := hge
      rw [widthSum_cons] at h
      rw [if_neg hin, if_neg hin]
      exact ih (by rw [hsub]; omega)

/-- The lookup of a rank ends in front of the empty interval. -/
theorem atCached_append_empty (h : Cached l) (hl : l.intervals = ns ++ [e]) (he : e.width = 0)
    (hp : AllProper ns) (hs : Separated (· ≤ ·) ns) (hw : w ≤ 63) {r : BitVec w}
    (hr : r.toNat < (values ns).length) : l.atCached r = (values ns)[r.toNat]? := by
  have hzero : e.width.toNat = 0 := by rw [he]; simp
  have hwidth : widthSum l.intervals = widthSum ns := by
    rw [hl, widthSum_append, widthSum_cons, widthSum_nil, hzero, Nat.add_zero]
  have hsum := widthSum_lt hp hs
  have hpow : 2 ^ w ≤ 2 ^ 63 := Nat.pow_le_pow_right (by omega) hw
  have hlen := length_le_widthSum hp
  have hlong : l.intervals.length ≤ 2 ^ 63 := by
    rw [hl, List.length_append, List.length_singleton]
    omega
  rw [length_values] at hr
  have hsize : r < l.size := by
    rw [BitVec.lt_def, toNat_size (by omega), hwidth]
    exact hr
  obtain ⟨idx, k, hidx, hlt, hrk⟩ :=
    h.getCachedIntervalIdx_spec (r := r) (by omega) hlong (by omega)
  have hwalk : getRthValueLoop w r l.intervals =
      getRthValueLoop w (BitVec.ofNat w k) (l.intervals.drop idx) := by
    have happ := getRthValueLoop_append (s := w) (l.intervals.take idx) (l.intervals.drop idx) r k
      hrk
    rwa [List.take_append_drop] at happ
  have hvalue : (values ns)[r.toNat]? = some (getRthValueLoop w r l.intervals) := by
    rw [hl, getRthValueLoop_append_left [e] hr, getRthValueLoop_values (le_refl w) hp hr,
      BitVec.setWidth_eq]
  rw [hvalue]
  unfold atCached
  simp only [if_pos (And.intro hsize h.pos), BitVec.setWidth_eq, hidx, Option.bind_eq_bind,
    Option.bind_some]
  by_cases hk : k = 0
  · subst hk
    -- a rank at the start of the empty interval would be the size
    have hbefore : idx < ns.length := by
      by_contra hge
      have htake : widthSum (l.intervals.take idx) = widthSum ns := by
        have hlast : idx = ns.length := by
          rw [hl, List.length_append, List.length_singleton] at hlt
          omega
        rw [hl, hlast, List.take_left]
      omega
    have hmem : l.intervals[idx] ∈ ns := by
      simp only [hl, List.getElem_append_left hbefore]
      exact List.getElem_mem hbefore
    have hpos : BitVec.ofNat w 0 < (l.intervals[idx]).width := by
      have := Interval.toNat_width_pos (hp _ hmem)
      rw [BitVec.lt_def]
      simpa using this
    rw [if_pos Nat.cast_zero, List.getElem?_eq_getElem hlt, hwalk, List.drop_eq_getElem_cons hlt,
      getRthValueLoop_head _ hpos]
    simp
  · rw [if_neg (by omega), getRthValue_to_end, hwalk]
    simp

end Trailing

/-- Buffers are filled from the size and the lookups alone. -/
theorem randomSets_congr {Seed : Type} {w : Nat} {l k : ListIntervals w w} (hsize : l.size = k.size)
    (hat : ∀ r, l.atCached r = k.atCached r) (u : Uprng Seed w) (seed : Seed) (d : BitVec w) :
    l.randomSets u seed d = k.randomSets u seed d := by
  have hfill : ∀ n st, l.fillBuffer u n st = k.fillBuffer u n st := by
    intro n
    induction n with
    | zero => exact fun st => rfl
    | succ n ih =>
      intro st
      simp only [fillBuffer, hat, ih]
  have hfull : ∀ sizeDiv full fuel i st,
      l.fullBuffers u sizeDiv full fuel i st = k.fullBuffers u sizeDiv full fuel i st := by
    intro sizeDiv full fuel
    induction fuel with
    | zero => exact fun i st => rfl
    | succ fuel ih =>
      intro i st
      simp only [fullBuffers, hfill, ih]
  simp only [randomSets, hsize, hfill, hfull]

/-- The number of addresses of a list that serves every lookup. -/
theorem Served.toNat_size_eq_ncard {l : ListIntervals 32 32} (h : Served l) :
    l.size.toNat = (covers l.intervals).ncard := by
  have hset : covers l.intervals = ((values l.intervals).toFinset : Set (BitVec 32)) := by
    ext v
    rw [List.coe_toFinset]
    exact (mem_values_iff h.proper).symm
  rw [h.toNat_size, hset, Set.ncard_coe_finset,
    List.toFinset_card_of_nodup (values_nodup h.proper h.separated)]

/-- A list in order behaves as one that serves every lookup, and covers the
same addresses. -/
theorem Tidy.exists_served {l m : IpListIntervals} (h : Tidy l.intervals)
    (hc : l.createIndexCache 256 = some m) :
    ∃ k : IpListIntervals, Served k ∧ covers k.intervals = covers l.intervals ∧
      l.size = k.size ∧ m.size = k.size ∧ ∀ r, m.atCached r = k.atCached r := by
  have hm : m.intervals = l.intervals := by
    unfold createIndexCache at hc
    rw [if_pos (by decide)] at hc
    cases hc
    rfl
  have hsize : m.size = l.size := by rw [size, size, hm]
  obtain hn | ⟨ns, hns, hn⟩ := h.cases
  · exact ⟨m, served_of_cache hn hc, by rw [hm], hsize.symm, rfl, fun r => rfl⟩
  · obtain ⟨k, hk⟩ : ∃ k, createIndexCache ({ intervals := ns } : IpListIntervals) 256 = some k :=
      ⟨_, if_pos (by decide)⟩
    have hserved : Served k := served_of_cache hn hk
    have hki : k.intervals = ns := by
      unfold createIndexCache at hk
      rw [if_pos (by decide)] at hk
      cases hk
      rfl
    have hsep : Separated (· ≤ ·) ns := hn.consecutive.separated
    have hlast : Interval.width ⟨lastIp, lastIp⟩ = 0 := by decide
    have hwidth : widthSum l.intervals = widthSum ns := by
      rw [hns, widthSum_append, widthSum_cons, hlast]
      simp
    have hsum := widthSum_lt hn.proper hsep
    have hlk : l.size = k.size := by
      apply BitVec.eq_of_toNat_eq
      rw [toNat_size (by omega), toNat_size (by rw [hki]; omega), hwidth, hki]
    have hlen := length_le_widthSum hn.proper
    obtain ⟨-, hcached⟩ := createIndexCache_cached (le_refl 32)
      (by rw [hns, List.length_append, List.length_singleton]; omega) (by omega) hc
    refine ⟨k, hserved, ?_, hlk, hsize.trans hlk, fun r => ?_⟩
    · rw [hki, hns, covers_append, covers_singleton]
      ext v
      simp
    · by_cases hr : r.toNat < (values ns).length
      · rw [atCached_append_empty hcached (by rw [hm, hns]) hlast hn.proper hsep (by decide) hr,
          hserved.cached.atCached_values (le_refl 32) hserved.proper hserved.separated
            hserved.width (by rwa [hki]), hki]
      · have hout : ∀ o : IpListIntervals, o.size = k.size → o.atCached r = none := by
          intro o ho
          unfold atCached
          rw [if_neg]
          rintro ⟨hlt, -⟩
          rw [BitVec.lt_def, ho, hserved.toNat_size, hki] at hlt
          exact hr hlt
        rw [hout m (hsize.trans hlk), hout k rfl]

/-- **`random_sets` on a list in order**: every address once. -/
theorem Tidy.randomSets {Seed : Type} {u : Uprng Seed 32} {seed : Seed} {l m : IpListIntervals}
    (h : Tidy l.intervals) (hc : l.createIndexCache 256 = some m) (hu : u.Enumerates seed l.size)
    (d : BitVec 32) :
    ∃ bufs, ListIntervals.randomSets m u seed d = some bufs ∧ bufs.flatten.Nodup ∧
      ∀ v, v ∈ bufs.flatten ↔ v ∈ covers l.intervals := by
  obtain ⟨k, hserved, hcov, hlk, hmk, hat⟩ := h.exists_served hc
  obtain ⟨bufs, hrun, hnodup, hmem, -, -⟩ := randomSets_all hserved (hlk ▸ hu) d
  exact ⟨bufs, (randomSets_congr hmk hat u seed d).trans hrun, hnodup, hcov ▸ hmem⟩

/-- `size()` counts the addresses. -/
theorem Tidy.toNat_size {l : IpListIntervals} (h : Tidy l.intervals) :
    l.size.toNat = (covers l.intervals).ncard := by
  obtain ⟨m, hm⟩ : ∃ m, l.createIndexCache 256 = some m := ⟨_, if_pos (by decide)⟩
  obtain ⟨k, hserved, hcov, hlk, -, -⟩ := h.exists_served hm
  rw [hlk, hserved.toNat_size_eq_ncard, hcov]

/-! ## The engine -/

/-- `random_engine<uint32_t>`: what call number `k` returns, made with the
bounds 0 and `b`. -/
structure RandEngine where
  draw : Nat → BitVec 32 → BitVec 32
  le : ∀ k b, draw k b ≤ b

namespace RandEngine

/-- The callback of `init_final_perm`. `init` makes two calls, and the
shuffle asks for a draw below 2, 3, and so on, so its call with `n` is call
number `n`. -/
def gen (e : RandEngine) (n : Nat) : Nat := (e.draw n (BitVec.ofNat 32 n - 1)).toNat

/-- The draws of the callback are indices. -/
theorem gen_lt (e : RandEngine) {n : Nat} (hpos : 0 < n) (hn : n < 2 ^ 32) : e.gen n < n := by
  have hle : (e.draw n (BitVec.ofNat 32 n - 1)).toNat ≤ (BitVec.ofNat 32 n - 1).toNat := e.le n _
  have hsub : (BitVec.ofNat 32 n - 1).toNat = n - 1 := by
    have hof : (BitVec.ofNat 32 n).toNat = n := by rw [BitVec.toNat_ofNat, Nat.mod_eq_of_lt hn]
    rw [Word.toNat_sub_of_le (by rw [BitVec.le_def, hof]; exact hpos), hof]
    rfl
  unfold gen
  omega

/-- The shuffle stays inside the permutation. -/
theorem randomShuffle_isSome (e : RandEngine) {l : List (BitVec 32)} (hl : l.length < 2 ^ 32) :
    (randomShuffle e.gen l).isSome = true := by
  rw [randomShuffle_isSome_iff]
  intro k hk hlt
  have := e.gen_lt (n := k + 1) (by omega) (by omega)
  omega

/-- What `uni::init` takes from the engine; the permutation has at most
`2^32 - 1` elements. -/
def uni (e : RandEngine) : UniEngine where
  draw max := (e.draw 0 (max - 1), e.draw 1 (max - 1))
  shuffle :=
    { run := fun l =>
        if hl : l.length < 2 ^ 32 then (randomShuffle e.gen l).get (e.randomShuffle_isSome hl)
        else l
      perm := fun l => by
        by_cases hl : l.length < 2 ^ 32
        · rw [dif_pos hl]
          exact randomShuffle_perm (Option.some_get _).symm
        · rw [dif_neg hl] }

/-- The engine that draws zeros. -/
def zeros : RandEngine := ⟨fun _ _ => 0, fun _ _ => Nat.zero_le _⟩

theorem draw_lt (e : RandEngine) (k : Nat) {max : BitVec 32} (hpos : 0 < max) :
    e.draw k (max - 1) < max := by
  have hle : (e.draw k (max - 1)).toNat ≤ (max - 1).toNat := e.le k _
  have hpos : 0 < max.toNat := hpos
  have hsub : (max - 1).toNat = max.toNat - 1 := by
    rw [Word.toNat_sub_of_le (by rw [BitVec.le_def]; exact hpos)]
    rfl
  rw [BitVec.lt_def]
  omega

/-- `uni` enumerates its range when its offset sums fit in 32 bits. -/
theorem enumerates (e : RandEngine) {max : BitVec 32}
    (hsum : (e.draw 0 (max - 1)).toNat + max.toNat ≤ 2 ^ 32) : uniUprng.Enumerates e.uni max := by
  by_cases hzero : max = 0
  · subst hzero
    exact List.Perm.refl _
  · have hpos : 0 < max := by
      rw [BitVec.lt_def]
      have hne : max.toNat ≠ 0 := fun h => hzero (BitVec.eq_of_toNat_eq (by simpa using h))
      simpa using Nat.pos_of_ne_zero hne
    exact uniUprng_enumerates (e.draw_lt 0 hpos) (e.draw_lt 1 hpos) hsum

end RandEngine

/-! ## The program -/

namespace IpRangesRand

/-- What the program leaves: its status, and the lines of both streams. -/
structure Output where
  status : Nat
  err : List (List Char)
  out : List (List Char)

/-- The help text. -/
def usage (path : List Char) : List (List Char) :=
  ["Usage: ".toList ++ path ++ " range1 [-][range2] [-][range3] ...".toList, [],
    ("This tool will aggregate all the given ranges and will write a random order of the " ++
      "corresponding IP.").toList, [],
    "where range can be described as:".toList,
    "\tCIDR notation:\t192.168.1.0/24".toList,
    "\tRanges:\t\t10.4-5.8.9-250".toList,
    "\tSingle IP:\t192.168.1.10".toList, [],
    "A '-' symbol before any range will remove it from the final set.".toList]

def warning (ipRange : List Char) : List Char :=
  "Warning: '".toList ++ ipRange ++ "' is an invalid IP range.".toList

def countLine (size : Nat) : List Char :=
  "Number of IPs after aggregation: ".toList ++ Nat.toDigits 10 size

/-- `&ip_range[1]`. -/
def behindFirst (ipRange : CString) (h : ¬ ipRange.chars.length ≤ 1) : CString where
  chars := ipRange.chars.drop 1
  addr := ipRange.addr + 1
  noNul hmem := ipRange.noNul (List.mem_of_mem_drop hmem)
  fits := by
    have hfits := ipRange.fits
    rw [List.length_drop]
    omega

/-- The body of the loop over the arguments. -/
def addRange (l : IpListIntervals) (ipRange : CString) : Option (Bool × IpListIntervals) :=
  if h : ipRange.chars.length ≤ 1 then some (false, l)
  else if ipRange.chars[0]? = some '-' then parseIpsRemove l (behindFirst ipRange h)
  else parseIpsAdd l ipRange

/-- The loop over the arguments: the warnings, and the list. -/
def addRanges (l : IpListIntervals) :
    List CString → Option (List (List Char) × IpListIntervals)
  | [] => some ([], l)
  | ipRange :: argv => do
    let (ret, l) ← addRange l ipRange
    let (warnings, l) ← addRanges l argv
    some (if ret then warnings else warning ipRange.chars :: warnings, l)

def main (sorts : Sorts 32) (mtRand : RandEngine) (path : List Char) (argv : List CString) :
    Option Output :=
  if argv.length < 1 then some ⟨1, usage path, []⟩
  else do
    let (warnings, l) ← addRanges {} argv
    let l := l.aggregate sorts
    let count := countLine l.size.toNat
    let l ← l.createIndexCache 256
    let sets ← l.randomSets uniUprng mtRand.uni 16
    some ⟨0, warnings ++ [count], sets.flatMap fun ips => ips.map ip2str⟩

/-! ## The arguments -/

/-- The call an argument of two characters or more makes. -/
def call (ipRange : CString) : Option IpCall :=
  if h : ipRange.chars.length ≤ 1 then none
  else if ipRange.chars[0]? = some '-' then some (.removeText (behindFirst ipRange h))
  else some (.addText ipRange)

/-- The argument without the '-' symbol. -/
def rangeText (ipRange : CString) : List Char :=
  if ipRange.chars[0]? = some '-' then ipRange.chars.drop 1 else ipRange.chars

/-- An argument that the program understands. -/
def IsRange (ipRange : CString) : Prop :=
  ¬ ipRange.chars.length ≤ 1 ∧ IsPhrase (rangeText ipRange)

/-- An argument on which the parser is undefined. -/
def IsTrap (ipRange : CString) : Prop :=
  ¬ ipRange.chars.length ≤ 1 ∧ Trap (rangeText ipRange)

/-- What is added by the arguments and not removed by them, less
255.255.255.255. -/
def rangeAddresses (argv : List CString) : Set (BitVec 32) :=
  sessionAddresses (argv.filterMap call)

theorem ordered_of_call {argv : List CString} : ∀ c ∈ argv.filterMap call, c.Ordered := by
  intro c hc
  obtain ⟨ipRange, -, hcall⟩ := List.mem_filterMap.mp hc
  unfold call at hcall
  split at hcall
  · cases hcall
  · split at hcall
    · cases hcall
      trivial
    · cases hcall
      trivial

/-- One argument, by what the parser does with its text. -/
theorem addRange_eq (l : IpListIntervals) {ipRange : CString} (h : ¬ ipRange.chars.length ≤ 1) :
    ∃ exclude str, addRange l ipRange = parseIps exclude l str ∧
      str.chars = rangeText ipRange ∧
      ∃ c, call ipRange = some c ∧ ∀ m, c.step m = (parseIps exclude m str).map (·.2) := by
  unfold addRange call rangeText
  by_cases hdash : ipRange.chars[0]? = some '-'
  · simp only [dif_neg h, if_pos hdash]
    exact ⟨true, behindFirst ipRange h, rfl, rfl, _, rfl, fun m => rfl⟩
  · simp only [dif_neg h, if_neg hdash]
    exact ⟨false, ipRange, rfl, rfl, _, rfl, fun m => rfl⟩

theorem parseIps_isPhrase {str : CString} (h : IsPhrase str.chars) (exclude : Bool)
    (l : IpListIntervals) : ∃ m, parseIps exclude l str = some (true, m) := by
  obtain ⟨p, hp⟩ := h
  exact ⟨_, p.parseIps_text hp.symm exclude l⟩

open Classical in
/-- **The loop over the arguments** makes the calls of the session, and
warns of each argument that is no range. -/
theorem addRanges_spec {argv : List CString} (htrap : ∀ ipRange ∈ argv, ¬ IsTrap ipRange)
    (l : IpListIntervals) :
    ∃ m, runIp l (argv.filterMap call) = some m ∧
      addRanges l argv =
        some ((argv.filter fun ipRange => ¬ IsRange ipRange).map (warning ·.chars), m) := by
  induction argv generalizing l with
  | nil => exact ⟨l, rfl, rfl⟩
  | cons ipRange argv ih =>
    obtain ⟨hfirst, hrest⟩ := List.forall_mem_cons.mp htrap
    by_cases hshort : ipRange.chars.length ≤ 1
    · obtain ⟨m, hm, hargs⟩ := ih hrest l
      have hcall : call ipRange = none := dif_pos hshort
      have hrange : ¬ IsRange ipRange := fun h => h.1 hshort
      have hadd : addRange l ipRange = some (false, l) := dif_pos hshort
      refine ⟨m, ?_, ?_⟩
      · rw [List.filterMap_cons_none hcall, hm]
      · simp [addRanges, hadd, hargs, hrange]
    · obtain ⟨exclude, str, hadd, hstr, c, hcall, hstep⟩ := addRange_eq l hshort
      rw [List.filterMap_cons_some hcall]
      obtain hphrase | ht | href := parseIps_cases str
      · have hrange : IsRange ipRange := ⟨hshort, hstr ▸ hphrase⟩
        obtain ⟨k, hk⟩ := parseIps_isPhrase hphrase exclude l
        obtain ⟨m, hm, hargs⟩ := ih hrest k
        refine ⟨m, ?_, ?_⟩
        · simp only [runIp, List.foldlM_cons, hstep, hk, Option.map_some, Option.bind_eq_bind,
            Option.bind_some]
          exact hm
        · simp [addRanges, hadd, hk, hargs, hrange]
      · exact absurd ⟨hshort, hstr ▸ ht⟩ hfirst
      · have hrange : ¬ IsRange ipRange := by
          rintro ⟨-, hphrase⟩
          obtain ⟨k, hk⟩ := parseIps_isPhrase (hstr ▸ hphrase) exclude l
          rw [href exclude l] at hk
          cases hk
        obtain ⟨m, hm, hargs⟩ := ih hrest l
        refine ⟨m, ?_, ?_⟩
        · simp only [runIp, List.foldlM_cons, hstep, href exclude l, Option.map_some,
            Option.bind_eq_bind, Option.bind_some]
          exact hm
        · simp [addRanges, hadd, href exclude l, hargs, hrange]

/-- On a trap among the arguments the loop is undefined. -/
theorem addRanges_trap {argv : List CString} (h : ∃ ipRange ∈ argv, IsTrap ipRange)
    (l : IpListIntervals) : addRanges l argv = none := by
  induction argv generalizing l with
  | nil =>
    obtain ⟨ipRange, hmem, -⟩ := h
    exact absurd hmem List.not_mem_nil
  | cons ipRange argv ih =>
    cases hadd : addRange l ipRange with
    | none => simp [addRanges, hadd]
    | some res =>
      obtain ⟨ret, m⟩ := res
      obtain ⟨trap, hmem, hshort, ht⟩ := h
      obtain rfl | hrest := List.mem_cons.mp hmem
      · obtain ⟨exclude, str, heq, hstr, -⟩ := addRange_eq l hshort
        rw [heq, parseIps_trap (hstr ▸ ht) exclude l] at hadd
        cases hadd
      · simp [addRanges, hadd, ih ⟨trap, hrest, hshort, ht⟩ m]

/-- Different addresses are printed differently. -/
theorem ip2str_injective : Function.Injective ip2str := by
  intro a b h
  have hvalue := (Address.ofIp a).dotted_zero
  rw [Address.text_ofIp, h, ← Address.text_ofIp, (Address.ofIp b).dotted_zero, Address.value_ofIp,
    Address.value_ofIp] at hvalue
  exact (Option.some.inj hvalue).symm

/-- An argument on which the parser is defined is no trap. -/
theorem not_isTrap_of_ne {ipRange : CString} (h : addRange {} ipRange ≠ none) :
    ¬ IsTrap ipRange := by
  rintro ⟨hshort, ht⟩
  obtain ⟨exclude, str, heq, hstr, -⟩ := addRange_eq {} hshort
  exact h (heq.trans (parseIps_trap (hstr ▸ ht) exclude {}))

open Classical in
/-- **The whole program.** With no argument it prints its usage; with a trap
among its arguments it is undefined; otherwise, for every engine whose
offset sums fit in 32 bits, as they do up to `2^31` addresses, it warns of
the arguments that are no ranges, counts the addresses the others add and
do not remove, and prints each of them once. 255.255.255.255 is never one
of them. -/
theorem ip_ranges_rand_main (sorts : Sorts 32) (mtRand : RandEngine) (path : List Char)
    (argv : List CString) :
    (argv = [] → main sorts mtRand path argv = some ⟨1, usage path, []⟩) ∧
      ((∃ ipRange ∈ argv, IsTrap ipRange) → main sorts mtRand path argv = none) ∧
      (argv ≠ [] → (∀ ipRange ∈ argv, ¬ IsTrap ipRange) →
        (mtRand.draw 0 (BitVec.ofNat 32 (rangeAddresses argv).ncard - 1)).toNat +
          (rangeAddresses argv).ncard ≤ 2 ^ 32 →
        ∃ out, main sorts mtRand path argv = some
            { status := 0
              err := (argv.filter fun ipRange => ¬ IsRange ipRange).map (warning ·.chars) ++
                [countLine (rangeAddresses argv).ncard]
              out := out } ∧
          out.Nodup ∧ ∀ line, line ∈ out ↔ ∃ v ∈ rangeAddresses argv, line = ip2str v) := by
  refine ⟨?_, ?_, fun hne htrap hsum => ?_⟩
  · rintro rfl
    rfl
  · intro htrap
    have hlen : ¬ argv.length < 1 := by
      obtain ⟨ipRange, hmem, -⟩ := htrap
      have := List.length_pos_of_mem hmem
      omega
    simp [main, hlen, addRanges_trap htrap]
  · obtain ⟨l, hrun, hargs⟩ := addRanges_spec htrap {}
    have hcov : covers (l.aggregate sorts).intervals = rangeAddresses argv :=
      covers_session sorts ordered_of_call hrun
    have htidy : Tidy (l.aggregate sorts).intervals :=
      tidy_aggregate (runIp_closedPending closedPending_nil ordered_of_call hrun) sorts
    have hsize := htidy.toNat_size
    rw [hcov] at hsize
    obtain ⟨m, hm⟩ : ∃ m, createIndexCache (l.aggregate sorts) 256 = some m :=
      ⟨_, if_pos (by decide)⟩
    have hu : uniUprng.Enumerates mtRand.uni (l.aggregate sorts).size := by
      refine mtRand.enumerates ?_
      have hof : BitVec.ofNat 32 (rangeAddresses argv).ncard = (l.aggregate sorts).size := by
        rw [← hsize, BitVec.ofNat_toNat, BitVec.setWidth_eq]
      rwa [hsize, ← hof]
    obtain ⟨sets, hsets, hnodup, hmem⟩ := htidy.randomSets hm hu 16
    refine ⟨sets.flatten.map ip2str, ?_, hnodup.map ip2str_injective, fun line => ?_⟩
    · have hlen : ¬ argv.length < 1 := by
        have := List.length_pos_iff.mpr hne
        omega
      simp only [main, if_neg hlen, hargs, Option.bind_eq_bind, Option.bind_some, hm, hsets, hsize,
        List.map_flatten, List.flatMap]
    · rw [List.mem_map, ← hcov]
      constructor
      · rintro ⟨v, hv, rfl⟩
        exact ⟨v, (hmem v).mp hv, rfl⟩
      · rintro ⟨v, hv, rfl⟩
        exact ⟨v, (hmem v).mpr hv, rfl⟩

/-- `10.0.0.0/30 -10.0.0.1 x`, and an engine that draws zeros. -/
theorem ip_ranges_rand_main_block :
    let argv : List CString :=
      [⟨"10.0.0.0/30".toList, 4096, by decide, by decide⟩,
        ⟨"-10.0.0.1".toList, 4112, by decide, by decide⟩, ⟨"x".toList, 4128, by decide, by decide⟩]
    ∃ out, (main (Sorts.insertion 32) RandEngine.zeros [] argv).map
        Output.out = some out ∧
      out.Nodup ∧ ∀ line, line ∈ out ↔ ∃ v ∈ rangeAddresses argv, line = ip2str v := by
  intro argv
  have hcard : (rangeAddresses argv).ncard ≤ 2 ^ 32 := by
    have : Finite (BitVec 32) := Finite.of_equiv (Fin (2 ^ 32)) BitVec.equivFin.symm.toEquiv
    refine (Set.ncard_le_ncard (Set.subset_univ _)).trans (le_of_eq ?_)
    rw [Set.ncard_univ, Nat.card_congr BitVec.equivFin.toEquiv, Nat.card_fin]
  have htrap : ∀ ipRange ∈ argv, ¬ IsTrap ipRange := by
    intro ipRange hmem
    simp only [argv, List.mem_cons, List.not_mem_nil, or_false] at hmem
    obtain rfl | rfl | rfl := hmem
    · exact not_isTrap_of_ne (by decide)
    · exact not_isTrap_of_ne (by decide)
    · exact not_isTrap_of_ne (by decide)
  obtain ⟨out, hmain, hout⟩ := (ip_ranges_rand_main (Sorts.insertion 32)
    RandEngine.zeros [] argv).2.2 (List.cons_ne_nil _ _) htrap
      (by simpa [RandEngine.zeros] using hcard)
  exact ⟨out, by rw [hmain]; rfl, hout⟩

end IpRangesRand

end Leeloo
