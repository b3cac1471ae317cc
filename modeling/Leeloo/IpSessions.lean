/-
Leeloo.IpSessions — what a sequence of additions and removals means, from
the strings on: the list that `aggregate` leaves, and the answers it gives.

`IpCall.addresses` is the set of addresses a call names; a string names
what the phrase it spells stands for, and nothing when it is refused.
`IpSession.stored` is what the session added and did not remove. The
lookups ask an aggregated list, by number or by text; they need no more
than intervals in order (`contains_answers`), which holds also where the
empty interval at the last address was kept.
-/
import Leeloo.ParserLanguage
import Leeloo.Contains

namespace Leeloo

open CString Text HalfOpen IpsParser
open IpListIntervals (appended closedEnd)

/-- `contains(const char*)`. -/
def IpListIntervals.containsText (l : IpListIntervals) (ipStr : CString) : Option Bool := do
  let (ip, valid) ← ipv4toi ipStr.chars ipStr.chars.length 3
  if ¬ valid then some false else l.contains ip

/-! ## What a string names -/

/-- The addresses a string names. -/
def textAddresses (s : List Char) : Set (BitVec 32) :=
  {v | ∃ p : Phrase, p.text = s ∧ v ∈ p.addresses}

theorem appended_inj {exclude : Bool} {l : IpListIntervals} {ivs jvs : List (Interval 32)}
    (h : appended exclude l ivs = appended exclude l jvs) : ivs = jvs := by
  cases exclude with
  | true =>
    have hrem := congrArg ListIntervals.removedIntervals h
    exact List.append_cancel_left hrem
  | false =>
    have hadd := congrArg ListIntervals.intervals h
    exact List.append_cancel_left hadd

/-- Phrases with one text are stored as the same intervals. -/
theorem Phrase.intervals_eq_of_text {p q : Phrase} {str : CString} (hp : p.text = str.chars)
    (hq : q.text = str.chars) : p.intervals = q.intervals := by
  have hsame := (p.parseIps_text hp.symm false {}).symm.trans (q.parseIps_text hq.symm false {})
  simp only [Option.some.injEq, Prod.mk.injEq, true_and] at hsame
  exact appended_inj hsame

/-- The intervals of a phrase cover what its text names, less the last
address. -/
theorem covers_of_text {p : Phrase} {str : CString} (hp : p.text = str.chars) :
    covers p.intervals = textAddresses str.chars \ {lastIp} := by
  ext v
  constructor
  · intro hv
    rw [p.covers_intervals] at hv
    exact ⟨⟨p, hp, hv.1⟩, hv.2⟩
  · rintro ⟨⟨q, hq, hv⟩, hlast⟩
    rw [Phrase.intervals_eq_of_text hp hq, q.covers_intervals]
    exact ⟨hv, hlast⟩

/-! ## The calls of a session -/

namespace IpCall

/-- The call is a removal. -/
def excludes : IpCall → Bool
  | addIp _ => false
  | removeIp _ => true
  | addPair _ _ => false
  | removePair _ _ => true
  | addText _ => false
  | removeText _ => true

/-- The addresses a call names. -/
def addresses : IpCall → Set (BitVec 32)
  | addIp a => {a}
  | removeIp a => {a}
  | addPair a b => Set.Icc a b
  | removePair a b => Set.Icc a b
  | addText str => textAddresses str.chars
  | removeText str => textAddresses str.chars

/-- The call is undefined. -/
def Traps : IpCall → Prop
  | addText str => Trap str.chars
  | removeText str => Trap str.chars
  | _ => False

/-- A call appends intervals that cover what it names, less the last
address. -/
structure Appends (c : IpCall) (l l' : IpListIntervals) (ivs : List (Interval 32)) : Prop where
  eq : l' = appended c.excludes l ivs
  covers : covers ivs = c.addresses \ {lastIp}

theorem covers_pair (a b : BitVec 32) :
    covers [(⟨a, closedEnd b⟩ : Interval 32)] = Set.Icc a b \ {lastIp} := by
  ext v
  rw [covers_singleton, IpListIntervals.mem_closed_iff, ← and_assoc]
  rfl

theorem covers_single {a : BitVec 32} (h : a ≠ lastIp) :
    covers [(⟨a, a + 1⟩ : Interval 32)] = {a} \ {lastIp} := by
  have hend : closedEnd a = a + 1 := if_pos h
  rw [← hend, covers_pair, Set.Icc_self]

/-- A string, read for addition or for removal. -/
theorem exists_of_text (exclude : Bool) {l l' : IpListIntervals} {str : CString}
    (h : (parseIps exclude l str).map (·.2) = some l') :
    ∃ ivs, l' = appended exclude l ivs ∧ covers ivs = textAddresses str.chars \ {lastIp} := by
  obtain ⟨p, hp⟩ | ht | hr := parseIps_cases str
  · rw [p.parseIps_text hp.symm exclude l] at h
    cases h
    exact ⟨p.intervals, rfl, covers_of_text hp⟩
  · rw [parseIps_trap ht exclude l] at h
    cases h
  · have hnone : textAddresses str.chars = ∅ := by
      refine Set.eq_empty_of_forall_notMem ?_
      rintro v ⟨p, hp, -⟩
      have hsame := (p.parseIps_text hp.symm exclude l).symm.trans (hr exclude l)
      simp at hsame
    rw [hr exclude l] at h
    cases h
    exact ⟨[], (IpListIntervals.appended_nil exclude l).symm, by simp [hnone]⟩

/-- **One call.** -/
theorem exists_appends {c : IpCall} {l l' : IpListIntervals} (h : c.step l = some l') :
    ∃ ivs, c.Appends l l' ivs := by
  cases c with
  | addIp a =>
    cases h
    by_cases ha : a = lastIp
    · refine ⟨[], ?_, by simp [addresses, ha]⟩
      simp [IpListIntervals.addIp, ha, lastIp, appended, excludes]
    · exact ⟨[⟨a, a + 1⟩], if_pos ha, covers_single ha⟩
  | removeIp a =>
    cases h
    by_cases ha : a = lastIp
    · refine ⟨[], ?_, by simp [addresses, ha]⟩
      simp [IpListIntervals.removeIp, ha, lastIp, appended, excludes]
    · exact ⟨[⟨a, a + 1⟩], if_pos ha, covers_single ha⟩
  | addPair a b =>
    cases h
    exact ⟨[⟨a, closedEnd b⟩], rfl, covers_pair a b⟩
  | removePair a b =>
    cases h
    exact ⟨[⟨a, closedEnd b⟩], rfl, covers_pair a b⟩
  | addText str =>
    obtain ⟨ivs, heq, hcov⟩ := exists_of_text false h
    exact ⟨ivs, heq, hcov⟩
  | removeText str =>
    obtain ⟨ivs, heq, hcov⟩ := exists_of_text true h
    exact ⟨ivs, heq, hcov⟩

/-- A call is defined unless its string is a trap. -/
theorem step_eq_none_iff (c : IpCall) (l : IpListIntervals) : c.step l = none ↔ c.Traps := by
  have htext : ∀ exclude (str : CString), (parseIps exclude l str).map (·.2) = none ↔
      Trap str.chars := by
    intro exclude str
    rw [Option.map_eq_none_iff]
    obtain ⟨p, hp⟩ | ht | hr := parseIps_cases str
    · have hacc := p.parseIps_text hp.symm exclude l
      refine iff_of_false (by simp [hacc]) fun ht => ?_
      rw [parseIps_trap ht exclude l] at hacc
      cases hacc
    · exact iff_of_true (parseIps_trap ht exclude l) ht
    · refine iff_of_false (by simp [hr exclude l]) fun ht => ?_
      have hnone := parseIps_trap ht exclude l
      rw [hr exclude l] at hnone
      cases hnone
  cases c with
  | addText str => exact htext false str
  | removeText str => exact htext true str
  | addIp a => simp [step, Traps]
  | removeIp a => simp [step, Traps]
  | addPair a b => simp [step, Traps]
  | removePair a b => simp [step, Traps]

end IpCall

/-! ## Sessions -/

/-- The addresses the additions of a session name, or its removals. -/
def named (exclude : Bool) (calls : List IpCall) : Set (BitVec 32) :=
  {v | ∃ c ∈ calls, c.excludes = exclude ∧ v ∈ c.addresses}

/-- What a session added and did not remove, in whatever order. -/
def sessionAddresses (calls : List IpCall) : Set (BitVec 32) :=
  (named false calls \ named true calls) \ {lastIp}

@[simp] theorem named_nil (exclude : Bool) : named exclude [] = ∅ := by
  simp [named]

theorem named_cons (exclude : Bool) (c : IpCall) (calls : List IpCall) :
    named exclude (c :: calls) =
      (if c.excludes = exclude then c.addresses else ∅) ∪ named exclude calls := by
  ext v
  simp only [named, Set.mem_ofPred_eq, List.mem_cons, Set.mem_union]
  constructor
  · rintro ⟨d, rfl | hd, hex, hv⟩
    · exact Or.inl (by rwa [if_pos hex])
    · exact Or.inr ⟨d, hd, hex, hv⟩
  · rintro (hv | ⟨d, hd, hex, hv⟩)
    · split at hv
      · rename_i hex
        exact ⟨c, Or.inl rfl, hex, hv⟩
      · exact hv.elim
    · exact ⟨d, Or.inr hd, hex, hv⟩

/-- A session is defined unless one of its strings is a trap. -/
theorem exists_runIp_iff (l : IpListIntervals) (calls : List IpCall) :
    (∃ l', runIp l calls = some l') ↔ ∀ c ∈ calls, ¬ c.Traps := by
  induction calls generalizing l with
  | nil => exact iff_of_true ⟨l, rfl⟩ fun c hc => absurd hc List.not_mem_nil
  | cons c calls ih =>
    simp only [runIp, List.foldlM_cons, List.forall_mem_cons]
    cases hstep : c.step l with
    | none =>
      have htraps := (c.step_eq_none_iff l).mp hstep
      exact iff_of_false (by simp) fun h => h.1 htraps
    | some m =>
      have hback : ¬ c.Traps := by
        intro ht
        rw [(c.step_eq_none_iff l).mpr ht] at hstep
        cases hstep
      simpa [hback, runIp] using ih m

/-- **What a session queues**: its additions behind the intervals, its
removals behind the removed ones, the last address apart. -/
theorem runIp_covers {l l' : IpListIntervals} {calls : List IpCall} (h : runIp l calls = some l') :
    covers l'.intervals = covers l.intervals ∪ named false calls \ {lastIp} ∧
      covers l'.removedIntervals = covers l.removedIntervals ∪ named true calls \ {lastIp} := by
  induction calls generalizing l with
  | nil =>
    cases h
    simp
  | cons c calls ih =>
    simp only [runIp, List.foldlM_cons] at h
    obtain ⟨m, hm, hrest⟩ := Option.bind_eq_some_iff.mp h
    obtain ⟨ivs, heq, hcov⟩ := IpCall.exists_appends hm
    obtain ⟨hadd, hrem⟩ := ih hrest
    rw [hadd, hrem, named_cons, named_cons, heq]
    cases hex : c.excludes with
    | true =>
      simp only [appended, if_true, covers_append, hcov, Bool.true_eq_false, if_false,
        Set.empty_union, Set.union_sdiff_distrib, Set.union_assoc, and_self]
    | false =>
      simp only [appended, Bool.false_eq_true, if_false, covers_append, hcov, if_true,
        Set.empty_union, Set.union_sdiff_distrib, Set.union_assoc, and_self]

/-! ## What `aggregate` leaves -/

/-- Intervals in order, each of them non-empty or the empty one at the last
address. -/
structure Tidy (ints : List (Interval 32)) : Prop where
  bounds : ∀ i ∈ ints, i.lower < i.upper ∨ (i.lower = i.upper ∧ i.lower = lastIp)
  separated : Separated (· < ·) ints

theorem Tidy.consecutive {ints : List (Interval 32)} (h : Tidy ints) : Consecutive ints :=
  ⟨fun i hi => (h.bounds i hi).elim le_of_lt fun heq => le_of_eq heq.1, h.separated.imp le_of_lt⟩

/-- The empty interval can only stand last. -/
theorem Tidy.cases {ints : List (Interval 32)} (h : Tidy ints) :
    Normal ints ∨ ∃ ns, ints = ns ++ [⟨lastIp, lastIp⟩] ∧ Normal ns := by
  induction ints with
  | nil => exact Or.inl ⟨fun i hi => absurd hi List.not_mem_nil, List.Pairwise.nil⟩
  | cons i ints ih =>
    obtain ⟨hhead, htail⟩ := List.pairwise_cons.mp h.separated
    have hrest : Tidy ints := ⟨fun j hj => h.bounds j (List.mem_cons_of_mem _ hj), htail⟩
    obtain hi | ⟨heq, hlast⟩ := h.bounds i List.mem_cons_self
    · obtain hn | ⟨ns, rfl, hn⟩ := ih hrest
      · exact Or.inl ⟨List.forall_mem_cons.mpr ⟨hi, hn.proper⟩,
          List.pairwise_cons.mpr ⟨hhead, htail⟩⟩
      · refine Or.inr ⟨i :: ns, rfl, List.forall_mem_cons.mpr ⟨hi, hn.proper⟩, ?_⟩
        exact List.pairwise_cons.mpr
          ⟨fun j hj => hhead j (List.mem_append_left _ hj), hn.separated⟩
    · -- nothing starts above the last address
      have hnil : ints = [] := by
        refine List.eq_nil_iff_forall_not_mem.mpr fun j hj => ?_
        have habove := hhead j hj
        rw [← heq, hlast] at habove
        exact absurd (isTop_lastIp j.lower) (not_le.mpr habove)
      refine Or.inr ⟨[], ?_, fun j hj => absurd hj List.not_mem_nil, List.Pairwise.nil⟩
      rw [hnil]
      exact congrArg (· :: []) (HalfOpen.ext hlast (heq ▸ hlast))

theorem tidy_aggregate {l : IpListIntervals} (hl : ClosedPending l) (sorts : Sorts 32) :
    Tidy (l.aggregate sorts).intervals := by
  have hints := fun i hi => (hl.intervals i hi).proper_or_top
  by_cases hq : l.removedIntervals = []
  · rw [ListIntervals.aggregate_intervals_of_or sorts (Or.inl hq)]
    refine ⟨fun i hi => ?_, separated_aggregateContainer _ _⟩
    exact (bounds_aggregateContainer gapRel_lt_or_top sorts.stored hints i hi).imp_right
      fun htop => ⟨htop.1, isTop_iff.mp htop.2⟩
  · have hn := normal_aggregate_of_run hl sorts fun h => hq h.noRemoval
    exact ⟨fun i hi => Or.inl (hn.proper i hi), hn.separated⟩

/-- `aggregate` takes the difference of what is queued. -/
theorem covers_aggregate_of_run {l : IpListIntervals} (hl : ClosedPending l) (sorts : Sorts 32) :
    covers (l.aggregate sorts).intervals = covers l.intervals \ covers l.removedIntervals := by
  by_cases hq : l.removedIntervals = []
  · rw [ListIntervals.aggregate_intervals_of_or sorts (Or.inl hq), covers_aggregateContainer, hq]
    simp
  · have hsw := ListIntervals.aggregate_swept_of_queue gapRel_lt_or_top sorts l
      (fun i hi => gapRel_lt_or_top.le (hl.intervals i hi).proper_or_top)
      (fun i hi => (hl.removed i hi).proper_or_top) hq
    ext v
    exact hsw.mem_iff v

/-- **What a session leaves, aggregated.** -/
theorem covers_session {calls : List IpCall} {l : IpListIntervals} (sorts : Sorts 32)
    (hc : ∀ c ∈ calls, c.Ordered) (h : runIp {} calls = some l) :
    covers (l.aggregate sorts).intervals = sessionAddresses calls := by
  obtain ⟨hadd, hrem⟩ := runIp_covers h
  rw [covers_aggregate_of_run (runIp_closedPending closedPending_nil hc h), hadd, hrem]
  ext v
  simp only [covers_nil, Set.empty_union, Set.mem_sdiff, Set.mem_singleton_iff, sessionAddresses]
  tauto

/-! ## What the list answers -/

/-- `contains` on intervals in order. -/
theorem contains_answers {l : IpListIntervals} (h : Tidy l.intervals) (v : BitVec 32) :
    ∃ r, l.contains v = some r ∧ (r = true ↔ v ∈ covers l.intervals) := by
  have hlen : 2 * l.intervals.length ≤ 2 ^ 32 + 4 := by
    obtain hn | ⟨ns, heq, hn⟩ := h.cases
    · have := two_mul_length_le hn
      omega
    · have := two_mul_length_le hn
      rw [heq, List.length_append, List.length_singleton]
      omega
  have hg : Dichotomy.Guides l.intervals (Interval.contains · v) fun it => decide (v < it.lower) :=
    Dichotomy.guides_of_consecutive (by rw [List.map_id']; exact h.consecutive)
      (fun _ => Interval.contains_iff) fun _ => decide_eq_true_iff
  obtain ⟨r, hr, hnone⟩ := Dichotomy.exists_search (s := 32) hg hlen (by omega)
  refine ⟨r.isSome, ?_, ?_⟩
  · rw [ListIntervals.contains, containsLoop_eq, hr, Option.map_some]
  · rw [Option.isSome_iff_ne_none, ne_eq, hnone]
    simp only [not_forall, not_not, Interval.contains_iff, exists_prop]
    exact Iff.rfl

/-- `contains(const char*)` asks for the address the string spells. -/
theorem containsText_answers {l : IpListIntervals} (h : Tidy l.intervals) (str : CString) :
    ∃ r, IpListIntervals.containsText l str = some r ∧
      (r = true ↔ ∃ a : Address, a.text = str.chars ∧ a.Full ∧ a.value ∈ covers l.intervals) := by
  obtain ⟨ip, hrun, hd⟩ | ⟨ip, hrun, hd⟩ := ipv4toi_cases 3 str.chars []
  · have hrun : ipv4toi str.chars str.chars.length 3 = some (ip, true) := by simpa using hrun
    obtain ⟨a, ha, hfull, rfl⟩ := Address.dotted_eq_some_iff.mp hd
    obtain ⟨r, hr, hiff⟩ := contains_answers h a.value
    refine ⟨r, ?_, hiff.trans ⟨fun hv => ⟨a, ha, Nat.le_antisymm a.length_le hfull, hv⟩, ?_⟩⟩
    · unfold IpListIntervals.containsText
      simp [hrun, hr]
    · rintro ⟨b, hb, hbfull, hv⟩
      have hsame := (Address.dotted_full hbfull).symm.trans (hb ▸ hd)
      rwa [← Option.some.inj hsame]
  · have hrun : ipv4toi str.chars str.chars.length 3 = some (ip, false) := by simpa using hrun
    refine ⟨false, ?_, iff_of_false Bool.false_ne_true ?_⟩
    · unfold IpListIntervals.containsText
      simp [hrun]
    · rintro ⟨a, ha, hfull, -⟩
      rw [← ha, Address.dotted_full hfull] at hd
      cases hd

/-- **Sessions from the strings on.** A sequence of additions and removals,
by number or by text, is defined exactly when none of its strings is a
trap. The aggregated list then covers what the additions name and the
removals do not, less 255.255.255.255, and both lookups answer
accordingly. -/
theorem ip_session_answers (calls : List IpCall) (sorts : Sorts 32)
    (hc : ∀ c ∈ calls, c.Ordered) :
    ((∃ l, runIp {} calls = some l) ↔ ∀ c ∈ calls, ¬ c.Traps) ∧
      ∀ l, runIp {} calls = some l →
        covers (l.aggregate sorts).intervals = sessionAddresses calls ∧
        (∀ v, ∃ r, (l.aggregate sorts).contains v = some r ∧
          (r = true ↔ v ∈ sessionAddresses calls)) ∧
        ∀ str : CString, ∃ r, IpListIntervals.containsText (l.aggregate sorts) str = some r ∧
          (r = true ↔ ∃ a : Address, a.text = str.chars ∧ a.Full ∧
            a.value ∈ sessionAddresses calls) := by
  refine ⟨exists_runIp_iff {} calls, fun l h => ?_⟩
  have hcov := covers_session sorts hc h
  have htidy := tidy_aggregate (runIp_closedPending closedPending_nil hc h) sorts
  rw [← hcov]
  exact ⟨rfl, contains_answers htidy, containsText_answers htidy⟩

/-- A block less one of its addresses. -/
theorem ip_session_answers_block :
    let calls : List IpCall :=
      [.addText ⟨"10.0.0.0/30".toList, 4096, by decide, by decide⟩, .removeIp 0x0A000001]
    let l : IpListIntervals :=
      { intervals := [⟨0x0A000000, 0x0A000004⟩], removedIntervals := [⟨0x0A000001, 0x0A000002⟩] }
    runIp {} calls = some l ∧
      covers (l.aggregate (Sorts.insertion 32)).intervals = sessionAddresses calls :=
  ⟨by decide, ((ip_session_answers
    [.addText ⟨"10.0.0.0/30".toList, 4096, by decide, by decide⟩, .removeIp 0x0A000001]
    (Sorts.insertion 32) (by decide)).2
    { intervals := [⟨0x0A000000, 0x0A000004⟩], removedIntervals := [⟨0x0A000001, 0x0A000002⟩] }
    (by decide)).1⟩

end Leeloo
