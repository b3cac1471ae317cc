/-
Leeloo.Lib.Sweep — sweeping the end points of a list of tagged spans.

Nothing here is about one program. Each span `[lower, upper)` contributes
two events, one that opens its tag at `lower` and one that closes it at
`upper`. A sweep reads the events in key order; events of equal key come in
any order. After a prefix of the events, the tags that are open form the
multiset `openAfter`.

Two facts carry every use. No prefix closes more than it opened
(`balanced_of_sorted`), because a proper span opens strictly below the
point where it closes, whatever the order of ties. And at a cut of the
events by a value `v`, the open tags are those of exactly the spans that
contain `v` (`openAfter_of_cut`). The segments between consecutive events,
each with a value computed from what is open on it, are therefore exact
(`segments_value`) and leave out no value of a span (`exists_segment`).
-/
import Leeloo.Lib.HalfOpen
import Mathlib.Data.Multiset.Filter
import Mathlib.Algebra.Order.Group.Multiset
import Mathlib.Algebra.Order.Sub.Basic
import Mathlib.Tactic.Common

namespace Sweep

open HalfOpen

variable {κ ι β : Type}

/-- One end point of a span. -/
structure Event (κ ι : Type) where
  key : κ
  tag : ι
  /-- Whether the span opens or closes here. -/
  opens : Bool
  deriving DecidableEq, Repr

/-- The end points of a list of tagged spans. -/
def events (spans : List (HalfOpen κ × ι)) : List (Event κ ι) :=
  spans.flatMap fun s => [⟨s.1.lower, s.2, true⟩, ⟨s.1.upper, s.2, false⟩]

/-- The tags opened by some events. -/
def opened (es : List (Event κ ι)) : Multiset ι := ↑((es.filter (·.opens)).map (·.tag))

/-- The tags closed by some events. -/
def closed (es : List (Event κ ι)) : Multiset ι := ↑((es.filter (!·.opens)).map (·.tag))

/-- The tags still open after some events. -/
def openAfter [DecidableEq ι] (es : List (Event κ ι)) : Multiset ι := opened es - closed es

/-- No prefix closes more than it opened. -/
def Balanced (es : List (Event κ ι)) : Prop :=
  ∀ pre post, es = pre ++ post → closed pre ≤ opened pre

/-! ## Opened and closed tags -/

@[simp] theorem opened_nil : opened ([] : List (Event κ ι)) = 0 := rfl
@[simp] theorem closed_nil : closed ([] : List (Event κ ι)) = 0 := rfl

@[simp] theorem opened_append (es fs : List (Event κ ι)) :
    opened (es ++ fs) = opened es + opened fs := by
  simp [opened]

@[simp] theorem closed_append (es fs : List (Event κ ι)) :
    closed (es ++ fs) = closed es + closed fs := by
  simp [closed]

theorem opened_singleton (e : Event κ ι) : opened [e] = if e.opens then {e.tag} else 0 := by
  cases h : e.opens <;> simp [opened, h]

theorem closed_singleton (e : Event κ ι) : closed [e] = if e.opens then 0 else {e.tag} := by
  cases h : e.opens <;> simp [closed, h]

theorem opened_perm {es fs : List (Event κ ι)} (h : es.Perm fs) : opened es = opened fs :=
  Multiset.coe_eq_coe.mpr ((h.filter _).map _)

theorem closed_perm {es fs : List (Event κ ι)} (h : es.Perm fs) : closed es = closed fs :=
  Multiset.coe_eq_coe.mpr ((h.filter _).map _)

theorem opened_le_of_sublist {es fs : List (Event κ ι)} (h : es.Sublist fs) :
    opened es ≤ opened fs :=
  Multiset.coe_le.mpr ((h.filter _).map _).subperm

theorem closed_le_of_sublist {es fs : List (Event κ ι)} (h : es.Sublist fs) :
    closed es ≤ closed fs :=
  Multiset.coe_le.mpr ((h.filter _).map _).subperm

/-- The spans opened at the keys that satisfy `p`. -/
theorem opened_filter_events (p : κ → Bool) (spans : List (HalfOpen κ × ι)) :
    opened ((events spans).filter fun e => p e.key) =
      ↑((spans.filter fun s => p s.1.lower).map (·.2)) := by
  induction spans with
  | nil => rfl
  | cons s spans ih =>
    have hcons : events (s :: spans) =
        [⟨s.1.lower, s.2, true⟩, ⟨s.1.upper, s.2, false⟩] ++ events spans := rfl
    rw [hcons, List.filter_append, opened_append, ih]
    cases hl : p s.1.lower <;> cases hu : p s.1.upper <;> simp [opened, hl, hu]

/-- The spans closed at the keys that satisfy `p`. -/
theorem closed_filter_events (p : κ → Bool) (spans : List (HalfOpen κ × ι)) :
    closed ((events spans).filter fun e => p e.key) =
      ↑((spans.filter fun s => p s.1.upper).map (·.2)) := by
  induction spans with
  | nil => rfl
  | cons s spans ih =>
    have hcons : events (s :: spans) =
        [⟨s.1.lower, s.2, true⟩, ⟨s.1.upper, s.2, false⟩] ++ events spans := rfl
    rw [hcons, List.filter_append, closed_append, ih]
    cases hl : p s.1.lower <;> cases hu : p s.1.upper <;> simp [closed, hl, hu]

@[simp] theorem length_events (spans : List (HalfOpen κ × ι)) :
    (events spans).length = 2 * spans.length := by
  induction spans with
  | nil => rfl
  | cons s spans ih =>
    have hcons : events (s :: spans) =
        [⟨s.1.lower, s.2, true⟩, ⟨s.1.upper, s.2, false⟩] ++ events spans := rfl
    rw [hcons, List.length_append, ih]
    simp only [List.length_cons, List.length_nil]
    omega

theorem mem_events {spans : List (HalfOpen κ × ι)} {e : Event κ ι} :
    e ∈ events spans ↔ ∃ s ∈ spans,
      e = ⟨s.1.lower, s.2, true⟩ ∨ e = ⟨s.1.upper, s.2, false⟩ := by
  simp [events]

theorem Balanced.take {es : List (Event κ ι)} (h : Balanced es) (n : Nat) :
    Balanced (es.take n) := by
  intro pre post hes
  refine h pre (post ++ es.drop n) ?_
  rw [← List.append_assoc, ← hes, List.take_append_drop]

/-! ## One event more -/

section Open

variable [DecidableEq ι]

@[simp] theorem openAfter_nil : openAfter ([] : List (Event κ ι)) = 0 := rfl

/-- An opening event adds its tag. -/
theorem openAfter_append_opens {pre : List (Event κ ι)} {e : Event κ ι}
    (hpre : closed pre ≤ opened pre) (he : e.opens = true) :
    openAfter (pre ++ [e]) = e.tag ::ₘ openAfter pre := by
  unfold openAfter
  rw [opened_append, closed_append, opened_singleton, closed_singleton, if_pos he, if_pos he,
    add_zero, ← tsub_add_eq_add_tsub hpre, ← Multiset.singleton_add, add_comm]

/-- A closing event removes its tag. -/
theorem openAfter_append_closes {pre : List (Event κ ι)} {e : Event κ ι}
    (he : e.opens = false) : openAfter (pre ++ [e]) = (openAfter pre).erase e.tag := by
  unfold openAfter
  rw [opened_append, closed_append, opened_singleton, closed_singleton, he]
  simp only [Bool.false_eq_true, ↓reduceIte, add_zero]
  rw [tsub_add_eq_tsub_tsub, Multiset.sub_singleton]

/-- In a balanced list, a tag is open when it is closed. -/
theorem mem_openAfter {pre post : List (Event κ ι)} {e : Event κ ι}
    (h : Balanced (pre ++ e :: post)) (he : e.opens = false) : e.tag ∈ openAfter pre := by
  have hle := h (pre ++ [e]) post (by simp)
  rw [opened_append, closed_append, opened_singleton, closed_singleton, he] at hle
  simp only [Bool.false_eq_true, ↓reduceIte, add_zero] at hle
  have hcount := Multiset.count_le_of_le e.tag hle
  rw [Multiset.count_add, Multiset.count_singleton_self] at hcount
  unfold openAfter
  rw [Multiset.mem_sub]
  omega

/-- The first event of a balanced list opens its tag. -/
theorem opens_of_balanced {e : Event κ ι} {post : List (Event κ ι)} (h : Balanced (e :: post)) :
    e.opens = true := by
  by_contra he
  have hmem : e.tag ∈ openAfter ([] : List (Event κ ι)) := mem_openAfter h (by simpa using he)
  simp at hmem

end Open

/-! ## Sorted events -/

/-- A cut of the events keeps the keys that satisfy `p` on one side. -/
theorem filter_cut {pre post : List (Event κ ι)} {p : κ → Bool}
    (hpre : ∀ e ∈ pre, p e.key = true) (hpost : ∀ e ∈ post, p e.key = false) :
    (pre ++ post).filter (fun e => p e.key) = pre := by
  have hnil : post.filter (fun e => p e.key) = [] :=
    List.filter_eq_nil_iff.mpr fun e he => by simp [hpost e he]
  rw [List.filter_append, List.filter_eq_self.mpr hpre, hnil, List.append_nil]

section Sorted

variable [LinearOrder κ]

/-- A proper span that closes at `k` or below opens strictly below it. -/
theorem upper_le_sublist_lower_lt {spans : List (HalfOpen κ × ι)}
    (hproper : ∀ s ∈ spans, s.1.Proper) (k : κ) :
    (spans.filter fun s => decide (s.1.upper ≤ k)).Sublist
      (spans.filter fun s => decide (s.1.lower < k)) := by
  have hstrict : spans.filter (fun s => decide (s.1.upper ≤ k)) =
      (spans.filter fun s => decide (s.1.lower < k)).filter fun s => decide (s.1.upper ≤ k) := by
    rw [List.filter_filter]
    apply List.filter_congr
    intro s hs
    have hlt : s.1.lower < s.1.upper := hproper s hs
    by_cases hu : s.1.upper ≤ k
    · simp [hu, lt_of_lt_of_le hlt hu]
    · simp [hu]
  rw [hstrict]
  exact List.filter_sublist

/-- The spans opened by `v` are those that contain `v` and those closed by
`v`. -/
theorem opened_by_eq {spans : List (HalfOpen κ × ι)} (hproper : ∀ s ∈ spans, s.1.Proper) (v : κ) :
    (↑((spans.filter fun s => decide (s.1.lower ≤ v)).map (·.2)) : Multiset ι) =
      ↑((spans.filter fun s => decide (s.1.lower ≤ v) && decide (v < s.1.upper)).map (·.2)) +
        ↑((spans.filter fun s => decide (s.1.upper ≤ v)).map (·.2)) := by
  induction spans with
  | nil => rfl
  | cons s spans ih =>
    have hlt : s.1.lower < s.1.upper := hproper s List.mem_cons_self
    have ih := ih fun t ht => hproper t (List.mem_cons_of_mem _ ht)
    rcases lt_or_ge v s.1.upper with hv | hv
    · by_cases hl : s.1.lower ≤ v
      · simp only [List.filter_cons, hl, hv, not_le.mpr hv, decide_true, decide_false,
          Bool.and_self, ↓reduceIte, List.map_cons, ← Multiset.cons_coe, ih,
          Multiset.cons_add, Bool.false_eq_true]
      · simp only [List.filter_cons, hl, hv, not_le.mpr hv, decide_true, decide_false,
          Bool.false_and, Bool.false_eq_true, ↓reduceIte, ih]
    · have hl : s.1.lower ≤ v := le_trans (le_of_lt hlt) hv
      simp only [List.filter_cons, hl, hv, not_lt.mpr hv, decide_true, decide_false,
        Bool.and_false, Bool.false_eq_true, ↓reduceIte, List.map_cons, ← Multiset.cons_coe, ih,
        Multiset.add_cons]

/-- Every span has an event strictly below `k` when all end at `k` or
below. -/
theorem length_le_events_below {spans : List (HalfOpen κ × ι)} {k : κ}
    (hproper : ∀ s ∈ spans, s.1.Proper) (hk : ∀ s ∈ spans, s.1.upper ≤ k) :
    spans.length ≤ ((events spans).filter fun e => decide (e.key < k)).length := by
  induction spans with
  | nil => simp
  | cons s spans ih =>
    have ih := ih (fun t ht => hproper t (List.mem_cons_of_mem _ ht))
      fun t ht => hk t (List.mem_cons_of_mem _ ht)
    have hlt : s.1.lower < k :=
      lt_of_lt_of_le (hproper s List.mem_cons_self) (hk s List.mem_cons_self)
    have hcons : events (s :: spans) =
        ⟨s.1.lower, s.2, true⟩ :: ⟨s.1.upper, s.2, false⟩ :: events spans := rfl
    rw [hcons, List.filter_cons, List.filter_cons]
    simp only [hlt, decide_true, ↓reduceIte, List.length_cons]
    split
    · rw [List.length_cons]
      omega
    · omega

/-- **No prefix of sorted events closes more than it opened**, for every
order of ties. -/
theorem balanced_of_sorted {spans : List (HalfOpen κ × ι)} {es : List (Event κ ι)}
    (hperm : es.Perm (events spans)) (hsort : es.Pairwise fun a b => a.key ≤ b.key)
    (hproper : ∀ s ∈ spans, s.1.Proper) : Balanced es := by
  intro pre post hes
  rcases List.eq_nil_or_concat pre with hnil | ⟨init, last, hlast⟩
  · simp [hnil]
  rw [List.concat_eq_append] at hlast
  -- all that the prefix closes closes up to its last key, and opened strictly below it
  have hsplit := hsort
  rw [hes] at hsplit
  obtain ⟨hsortpre, _, hcross⟩ := List.pairwise_append.mp hsplit
  have hpre : ∀ a ∈ pre, a.key ≤ last.key := by
    intro a ha
    rw [hlast] at hsortpre ha
    rcases List.mem_append.mp ha with hinit | hsingle
    · exact (List.pairwise_append.mp hsortpre).2.2 a hinit last (by simp)
    · rw [List.mem_singleton.mp hsingle]
  have hpost : ∀ b ∈ post, last.key ≤ b.key := fun b hb => hcross last (by simp [hlast]) b hb
  have hclosed : closed pre ≤ closed (es.filter fun e => decide (e.key ≤ last.key)) := by
    apply closed_le_of_sublist
    rw [hes, List.filter_append, List.filter_eq_self.mpr (by simpa using hpre)]
    exact List.sublist_append_left _ _
  have hopened : opened (es.filter fun e => decide (e.key < last.key)) ≤ opened pre := by
    apply opened_le_of_sublist
    have hnil : post.filter (fun e => decide (e.key < last.key)) = [] :=
      List.filter_eq_nil_iff.mpr (by simpa using hpost)
    rw [hes, List.filter_append, hnil, List.append_nil]
    exact List.filter_sublist
  refine hclosed.trans (le_trans ?_ hopened)
  rw [closed_perm (hperm.filter _), opened_perm (hperm.filter _),
    closed_filter_events (fun k => decide (k ≤ last.key)),
    opened_filter_events (fun k => decide (k < last.key))]
  exact Multiset.coe_le.mpr ((upper_le_sublist_lower_lt hproper last.key).map _).subperm

/-- As many events as there are spans lie below the largest end, and they
come first. -/
theorem key_lt_of_mem_take {spans : List (HalfOpen κ × ι)} {es : List (Event κ ι)} {k : κ} {m : Nat}
    (hperm : es.Perm (events spans)) (hsort : es.Pairwise fun a b => a.key ≤ b.key)
    (hproper : ∀ s ∈ spans, s.1.Proper) (hk : ∀ s ∈ spans, s.1.upper ≤ k)
    (hm : m ≤ spans.length) : ∀ e ∈ es.take m, e.key < k := by
  have hbelow : spans.length ≤ (es.filter fun e => decide (e.key < k)).length := by
    rw [(hperm.filter _).length_eq]
    exact length_le_events_below hproper hk
  intro e he
  by_contra hge
  -- everything from `e` on is at `k` or above
  obtain ⟨j, hj, hej⟩ := List.mem_iff_getElem.mp he
  rw [List.length_take] at hj
  have hdrop : (es.drop j).filter (fun e => decide (e.key < k)) = [] := by
    apply List.filter_eq_nil_iff.mpr
    intro a ha
    have hcons : es.drop j = e :: es.drop (j + 1) := by
      rw [← hej, List.getElem_take, List.drop_eq_getElem_cons (by omega)]
    have hp := hsort.sublist (List.drop_sublist j es)
    rw [hcons] at ha hp
    have hle : e.key ≤ a.key := by
      rcases List.mem_cons.mp ha with heq | hmem
      · rw [heq]
      · exact (List.pairwise_cons.mp hp).1 a hmem
    simpa using le_trans (not_lt.mp hge) hle
  have hlen : (es.filter fun e => decide (e.key < k)).length ≤ j := by
    rw [← List.take_append_drop j es, List.filter_append, hdrop, List.append_nil]
    exact le_trans (List.length_filter_le _ _) (by simp)
  omega

/-- **What is open at a cut** of the events by `v`: the spans that contain
`v`. -/
theorem openAfter_of_cut [DecidableEq ι] {spans : List (HalfOpen κ × ι)}
    {pre post : List (Event κ ι)} {v : κ} (hperm : (pre ++ post).Perm (events spans))
    (hproper : ∀ s ∈ spans, s.1.Proper) (hpre : ∀ e ∈ pre, e.key ≤ v)
    (hpost : ∀ e ∈ post, v < e.key) :
    openAfter pre =
      ↑((spans.filter fun s => decide (s.1.lower ≤ v) && decide (v < s.1.upper)).map (·.2)) := by
  let upTo := fun k : κ => decide (k ≤ v)
  have hcut : (pre ++ post).filter (fun e => upTo e.key) = pre :=
    filter_cut (by simpa [upTo] using hpre) (by simpa [upTo] using hpost)
  have hopened : opened pre = ↑((spans.filter fun s => upTo s.1.lower).map (·.2)) := by
    rw [← hcut, opened_perm (hperm.filter _), opened_filter_events upTo]
  have hclosed : closed pre = ↑((spans.filter fun s => upTo s.1.upper).map (·.2)) := by
    rw [← hcut, closed_perm (hperm.filter _), closed_filter_events upTo]
  unfold openAfter
  rw [hopened, hclosed, opened_by_eq hproper v, Multiset.add_sub_cancel_right]

end Sorted

/-! ## The segments between consecutive events -/

/-- The spans between consecutive keys, from `prev` on. -/
def gaps (prev : κ) : List κ → List (HalfOpen κ)
  | [] => []
  | k :: ks => ⟨prev, k⟩ :: gaps k ks

/-- The spans between consecutive keys of a list. -/
def gapsOf : List κ → List (HalfOpen κ)
  | [] => []
  | k :: ks => gaps k ks

/-- The gaps after the events `pre`, the last of them at `prev`, each with
the value of what is open on it. -/
def segmentsFrom [DecidableEq ι] (val : Multiset ι → β) (pre : List (Event κ ι)) (prev : κ) :
    List (Event κ ι) → List (HalfOpen κ × β)
  | [] => []
  | e :: es => (⟨prev, e.key⟩, val (openAfter pre)) :: segmentsFrom val (pre ++ [e]) e.key es

/-- The segments of a whole list of events. -/
def segments [DecidableEq ι] (val : Multiset ι → β) :
    List (Event κ ι) → List (HalfOpen κ × β)
  | [] => []
  | e :: es => segmentsFrom val [e] e.key es

@[simp] theorem length_gaps (prev : κ) (ks : List κ) : (gaps prev ks).length = ks.length := by
  induction ks generalizing prev with
  | nil => rfl
  | cons k ks ih => simp [gaps, ih]

@[simp] theorem length_gapsOf (ks : List κ) : (gapsOf ks).length = ks.length - 1 := by
  cases ks <;> simp [gapsOf]

/-- The bounds of a gap are keys. -/
theorem bounds_of_mem_gaps {prev : κ} {ks : List κ} {g : HalfOpen κ} (h : g ∈ gaps prev ks) :
    g.lower ∈ prev :: ks ∧ g.upper ∈ ks := by
  induction ks generalizing prev with
  | nil => simp [gaps] at h
  | cons k ks ih =>
    rcases List.mem_cons.mp h with hhead | htail
    · subst hhead
      simp
    · obtain ⟨hlower, hupper⟩ := ih htail
      exact ⟨List.mem_cons_of_mem _ hlower, List.mem_cons_of_mem _ hupper⟩

theorem bounds_of_mem_gapsOf {ks : List κ} {g : HalfOpen κ} (h : g ∈ gapsOf ks) :
    g.lower ∈ ks ∧ g.upper ∈ ks := by
  cases ks with
  | nil => simp [gapsOf] at h
  | cons k ks =>
    obtain ⟨hlower, hupper⟩ := bounds_of_mem_gaps h
    exact ⟨hlower, List.mem_cons_of_mem _ hupper⟩

section Order

variable [LinearOrder κ]

/-- Sorted keys have gaps that follow each other. -/
theorem separated_gaps {prev : κ} {ks : List κ} (h : (prev :: ks).Pairwise (· ≤ ·)) :
    Separated (· ≤ ·) (gaps prev ks) := by
  induction ks generalizing prev with
  | nil => exact List.Pairwise.nil
  | cons k ks ih =>
    have htail := (List.pairwise_cons.mp h).2
    refine List.pairwise_cons.mpr ⟨?_, ih htail⟩
    intro g hg
    rcases List.mem_cons.mp (bounds_of_mem_gaps hg).1 with hk | hks
    · exact hk.ge
    · exact (List.pairwise_cons.mp htail).1 _ hks

/-- A gap of sorted keys may be empty but is not reversed. -/
theorem lower_le_upper_of_mem_gaps {prev : κ} {ks : List κ}
    (h : (prev :: ks).Pairwise (· ≤ ·)) {g : HalfOpen κ} (hg : g ∈ gaps prev ks) :
    g.lower ≤ g.upper := by
  induction ks generalizing prev with
  | nil => simp [gaps] at hg
  | cons k ks ih =>
    obtain ⟨hprev, htail⟩ := List.pairwise_cons.mp h
    rcases List.mem_cons.mp hg with hhead | hmem
    · subst hhead
      exact hprev k List.mem_cons_self
    · exact ih htail hmem

/-- The gaps of sorted keys follow each other. -/
theorem consecutive_gapsOf {ks : List κ} (h : ks.Pairwise (· ≤ ·)) : Consecutive (gapsOf ks) := by
  cases ks with
  | nil => exact ⟨by simp [gapsOf], List.Pairwise.nil⟩
  | cons k ks => exact ⟨fun g hg => lower_le_upper_of_mem_gaps h hg, separated_gaps h⟩

/-- The gaps leave out nothing between `prev` and the last key. -/
theorem exists_gap {prev v : κ} {ks : List κ} (hprev : prev ≤ v) (h : ∃ k ∈ ks, v < k) :
    ∃ g ∈ gaps prev ks, v ∈ g.toSet := by
  induction ks generalizing prev with
  | nil => simp at h
  | cons k ks ih =>
    rcases lt_or_ge v k with hlt | hge
    · exact ⟨⟨prev, k⟩, List.mem_cons_self, hprev, hlt⟩
    · have hks : ∃ k' ∈ ks, v < k' := by
        obtain ⟨k', hk', hlt⟩ := h
        rcases List.mem_cons.mp hk' with heq | hmem
        · exact absurd hlt (not_lt.mpr (heq ▸ hge))
        · exact ⟨k', hmem, hlt⟩
      obtain ⟨g, hg, hv⟩ := ih hge hks
      exact ⟨g, List.mem_cons_of_mem _ hg, hv⟩

/-- The gaps of sorted keys cover what lies between two keys. -/
theorem mem_gapsOf_iff {v : κ} {ks : List κ} (h : ks.Pairwise (· ≤ ·)) :
    (∃ g ∈ gapsOf ks, v ∈ g.toSet) ↔ (∃ k ∈ ks, k ≤ v) ∧ ∃ k ∈ ks, v < k := by
  constructor
  · intro ⟨g, hg, hlow, hup⟩
    obtain ⟨hlower, hupper⟩ := bounds_of_mem_gapsOf hg
    exact ⟨⟨g.lower, hlower, hlow⟩, ⟨g.upper, hupper, hup⟩⟩
  · intro ⟨⟨k, hk, hkv⟩, k', hk', hvk⟩
    cases ks with
    | nil => exact (List.not_mem_nil hk).elim
    | cons prev ks =>
      have hfirst : prev ≤ v := by
        rcases List.mem_cons.mp hk with heq | hmem
        · exact heq ▸ hkv
        · exact le_trans ((List.pairwise_cons.mp h).1 k hmem) hkv
      rcases List.mem_cons.mp hk' with heq | hmem
      · exact absurd hvk (not_lt.mpr (heq ▸ hfirst))
      · exact exists_gap hfirst ⟨k', hmem, hvk⟩

end Order

variable [DecidableEq ι]

theorem segmentsFrom_fst (val : Multiset ι → β) (pre : List (Event κ ι)) (prev : κ)
    (es : List (Event κ ι)) :
    (segmentsFrom val pre prev es).map (·.1) = gaps prev (es.map (·.key)) := by
  induction es generalizing pre prev with
  | nil => rfl
  | cons e es ih => simp [segmentsFrom, gaps, ih]

theorem segments_fst (val : Multiset ι → β) (es : List (Event κ ι)) :
    (segments val es).map (·.1) = gapsOf (es.map (·.key)) := by
  cases es with
  | nil => rfl
  | cons e es => exact segmentsFrom_fst val [e] e.key es

/-- Each segment lies between two neighbours of the list of events. -/
theorem mem_segmentsFrom {val : Multiset ι → β} {pre es : List (Event κ ι)} {l : Event κ ι}
    {s : HalfOpen κ × β} (h : s ∈ segmentsFrom val (pre ++ [l]) l.key es) :
    ∃ p a b q, pre ++ l :: es = p ++ a :: b :: q ∧
      s = (⟨a.key, b.key⟩, val (openAfter (p ++ [a]))) := by
  induction es generalizing pre l with
  | nil => simp [segmentsFrom] at h
  | cons e es ih =>
    rcases List.mem_cons.mp h with hhead | htail
    · exact ⟨pre, l, e, es, rfl, hhead⟩
    · obtain ⟨p, a, b, q, hes, hs⟩ := ih htail
      exact ⟨p, a, b, q, by simpa using hes, hs⟩

theorem mem_segments {val : Multiset ι → β} {es : List (Event κ ι)} {s : HalfOpen κ × β}
    (h : s ∈ segments val es) :
    ∃ p a b q, es = p ++ a :: b :: q ∧
      s = (⟨a.key, b.key⟩, val (openAfter (p ++ [a]))) := by
  cases es with
  | nil => simp [segments] at h
  | cons e es =>
    have h' : s ∈ segmentsFrom val ([] ++ [e]) e.key es := h
    exact mem_segmentsFrom h'

variable [LinearOrder κ]

/-- **A segment carries the value of what is open on it**: the value, at
each point of the segment, of the tags of the spans that contain the
point. -/
theorem segments_value {spans : List (HalfOpen κ × ι)} {es : List (Event κ ι)}
    {val : Multiset ι → β} {s : HalfOpen κ × β} {v : κ} (hperm : es.Perm (events spans))
    (hsort : es.Pairwise fun a b => a.key ≤ b.key) (hproper : ∀ s ∈ spans, s.1.Proper)
    (hs : s ∈ segments val es) (hv : v ∈ s.1.toSet) :
    s.2 = val ↑((spans.filter fun s =>
      decide (s.1.lower ≤ v) && decide (v < s.1.upper)).map (·.2)) := by
  obtain ⟨p, a, b, q, hes, hseg⟩ := mem_segments hs
  subst hseg
  obtain ⟨hav, hvb⟩ := hv
  have hcut : es = (p ++ [a]) ++ (b :: q) := by simp [hes]
  rw [hcut] at hperm hsort
  obtain ⟨hpa, hbq, _⟩ := List.pairwise_append.mp hsort
  have hpre : ∀ e ∈ p ++ [a], e.key ≤ v := by
    intro e he
    rcases List.mem_append.mp he with hep | hea
    · exact le_trans ((List.pairwise_append.mp hpa).2.2 e hep a (by simp)) hav
    · rw [List.mem_singleton.mp hea]
      exact hav
  have hpost : ∀ e ∈ b :: q, v < e.key := by
    intro e he
    rcases List.mem_cons.mp he with heb | heq
    · rw [heb]
      exact hvb
    · exact lt_of_lt_of_le hvb ((List.pairwise_cons.mp hbq).1 e heq)
  show val (openAfter (p ++ [a])) = _
  rw [openAfter_of_cut hperm hproper hpre hpost]

/-- **The segments leave out no value** of a span. -/
theorem exists_segment {spans : List (HalfOpen κ × ι)} {es : List (Event κ ι)}
    (val : Multiset ι → β) {v : κ} (hperm : es.Perm (events spans))
    (hsort : es.Pairwise fun a b => a.key ≤ b.key) (hv : ∃ s ∈ spans, v ∈ s.1.toSet) :
    ∃ s ∈ segments val es, v ∈ s.1.toSet := by
  obtain ⟨s, hs, hlow, hup⟩ := hv
  have hl : (⟨s.1.lower, s.2, true⟩ : Event κ ι) ∈ es :=
    hperm.mem_iff.mpr (mem_events.mpr ⟨s, hs, Or.inl rfl⟩)
  have hu : (⟨s.1.upper, s.2, false⟩ : Event κ ι) ∈ es :=
    hperm.mem_iff.mpr (mem_events.mpr ⟨s, hs, Or.inr rfl⟩)
  obtain ⟨g, hg, hvg⟩ := (mem_gapsOf_iff (List.pairwise_map.mpr hsort)).mpr
    ⟨⟨_, List.mem_map_of_mem hl, hlow⟩, ⟨_, List.mem_map_of_mem hu, hup⟩⟩
  rw [← segments_fst val] at hg
  obtain ⟨t, ht, heq⟩ := List.mem_map.mp hg
  exact ⟨t, ht, heq ▸ hvg⟩

/-! ## Values without a neutral element -/

section Combine

variable {α : Type} {op : α → α → α}

/-- The elements of a list combined from the first one on; `none` when
there are none. -/
def combine (op : α → α → α) : List α → Option α
  | [] => none
  | a :: as => some (as.foldl op a)

@[simp] theorem combine_nil : combine op [] = none := rfl

@[simp] theorem combine_cons (a : α) (as : List α) :
    combine op (a :: as) = some (as.foldl op a) := rfl

/-- The last element is combined last. -/
theorem combine_append_singleton (as : List α) (a : α) :
    combine op (as ++ [a]) = some ((combine op as).elim a (op · a)) := by
  cases as <;> simp [combine]

/-- A commutative and associative operation does not see the order. -/
theorem combine_perm (hcomm : ∀ a b, op a b = op b a)
    (hassoc : ∀ a b c, op (op a b) c = op a (op b c)) {as bs : List α} (h : as.Perm bs) :
    combine op as = combine op bs := by
  have hright : ∀ a b c, op (op a b) c = op (op a c) b := by
    intro a b c
    rw [hassoc, hcomm b c, ← hassoc]
  have : RightCommutative op := ⟨hright⟩
  induction h with
  | nil => rfl
  | cons a h => rw [combine_cons, combine_cons, h.foldl_eq]
  | swap a b l => rw [combine_cons, combine_cons, List.foldl_cons, List.foldl_cons, hcomm]
  | trans _ _ ih₁ ih₂ => exact ih₁.trans ih₂

/-- With an addition, the combination is the sum. -/
theorem combine_add_getD [AddCommMonoid α] (as : List α) :
    (combine (· + ·) as).getD 0 = as.sum := by
  cases as with
  | nil => rfl
  | cons a as => simp [List.sum_eq_foldl, List.foldl_cons]

end Combine

end Sweep
