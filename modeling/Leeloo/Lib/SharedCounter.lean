/-
Leeloo.Lib.SharedCounter — threads that draw from one shared state.

A call takes the shared state in one atomic step (`fetch`) and works by
itself on the position it took: it returns a value, or it fetches again.
The steps of any number of threads interleave in any way (`Reachable`).

Numbering the fetches gives every call a ticket, and the tickets order the
calls as a single thread would have made them: what the threads returned
is what the positions fetched in sequence give (`Reachable.values_perm`),
and a call that began after another one returned has the larger ticket
(`Reachable.real_time`).
-/
import Mathlib.Data.List.Nodup
import Mathlib.Data.List.Perm.Subperm
import Mathlib.Data.List.Range
import Mathlib.Logic.Function.Basic

namespace SharedCounter

variable {ι σ π α : Type*}

/-- The atomic step on the shared state, and what a thread makes of the
position it took; `none` is to fetch again. -/
structure Service (σ π α : Type*) where
  fetch : σ → π × σ
  result : π → Option α

/-- Where a thread is. `before` counts the calls that had returned when its
own began, and `ticket` the fetches made before its last one; both are only
recorded. -/
inductive Phase (π : Type*) where
  | idle
  | called (before : Nat)
  | fetched (before ticket : Nat) (pos : π)

/-- A call that has returned. -/
structure Return (ι α : Type*) where
  thread : ι
  before : Nat
  ticket : Nat
  value : α

/-- The shared state, the threads, the number of fetches and the calls that
have returned, in the order of their returns. -/
structure Config (ι σ π α : Type*) where
  shared : σ
  phase : ι → Phase π
  fetches : Nat
  returned : List (Return ι α)

/-- No thread is in a call. -/
def Config.start (st : σ) : Config ι σ π α := ⟨st, fun _ => .idle, 0, []⟩

/-- No thread holds a position. -/
def Config.Settled (c : Config ι σ π α) : Prop :=
  ∀ i before ticket pos, c.phase i ≠ .fetched before ticket pos

namespace Service

variable (S : Service σ π α)

/-- The shared state after `n` fetches. -/
def after (st : σ) (n : Nat) : σ := (fun st => (S.fetch st).2)^[n] st

/-- The position that fetch number `n` takes, the first being number 0. -/
def position (st : σ) (n : Nat) : π := (S.fetch (S.after st n)).1

/-- What the first `n` positions give, one after the other. -/
def sequential (st : σ) (n : Nat) : List α :=
  (List.range n).filterMap fun t => S.result (S.position st t)

theorem after_succ (st : σ) (n : Nat) : S.after st (n + 1) = (S.fetch (S.after st n)).2 :=
  Function.iterate_succ_apply' _ n st

end Service

section Steps

variable [DecidableEq ι]

/-- One step of one thread. -/
inductive Step (S : Service σ π α) : Config ι σ π α → Config ι σ π α → Prop
  | call {c : Config ι σ π α} (i : ι) : c.phase i = .idle →
      Step S c { c with phase := Function.update c.phase i (.called c.returned.length) }
  | fetch {c : Config ι σ π α} (i : ι) {before : Nat} : c.phase i = .called before →
      Step S c { c with
        shared := (S.fetch c.shared).2
        phase := Function.update c.phase i (.fetched before c.fetches (S.fetch c.shared).1)
        fetches := c.fetches + 1 }
  | again {c : Config ι σ π α} (i : ι) {before ticket : Nat} {pos : π} :
      c.phase i = .fetched before ticket pos → S.result pos = none →
      Step S c { c with phase := Function.update c.phase i (.called before) }
  | ret {c : Config ι σ π α} (i : ι) {before ticket : Nat} {pos : π} {v : α} :
      c.phase i = .fetched before ticket pos → S.result pos = some v →
      Step S c { c with
        phase := Function.update c.phase i .idle
        returned := c.returned ++ [⟨i, before, ticket, v⟩] }

/-- The configurations any interleaving of the threads can reach. -/
inductive Reachable (S : Service σ π α) (st : σ) : Config ι σ π α → Prop
  | start : Reachable S st (.start st)
  | step {c c' : Config ι σ π α} : Reachable S st c → Step S c c' → Reachable S st c'

end Steps

/-! ## The tickets -/

/-- What every interleaving keeps: each fetch is held by one thread, was
returned by one call, or gave nothing. -/
structure Inv (S : Service σ π α) (st : σ) (c : Config ι σ π α) : Prop where
  shared : c.shared = S.after st c.fetches
  fetched : ∀ i before ticket pos, c.phase i = .fetched before ticket pos →
    ticket < c.fetches ∧ pos = S.position st ticket
  returned : ∀ r ∈ c.returned, r.ticket < c.fetches ∧
    S.result (S.position st r.ticket) = some r.value
  holders : ∀ i j before before' ticket pos pos', c.phase i = .fetched before ticket pos →
    c.phase j = .fetched before' ticket pos' → i = j
  nodup : (c.returned.map Return.ticket).Nodup
  disjoint : ∀ i before ticket pos, c.phase i = .fetched before ticket pos →
    ticket ∉ c.returned.map Return.ticket
  accounted : ∀ ticket < c.fetches, (∃ i before pos, c.phase i = .fetched before ticket pos) ∨
    ticket ∈ c.returned.map Return.ticket ∨ S.result (S.position st ticket) = none

/-- What every interleaving keeps of the order: the calls that had returned
when a call began have smaller tickets. -/
structure Ordered (c : Config ι σ π α) : Prop where
  called : ∀ i before, c.phase i = .called before → before ≤ c.returned.length
  fetched : ∀ i before ticket pos, c.phase i = .fetched before ticket pos →
    before ≤ c.returned.length ∧ ∀ r ∈ c.returned.take before, r.ticket < ticket
  returned : ∀ k (r : Return ι α), c.returned[k]? = some r →
    r.before ≤ k ∧ ∀ r' ∈ c.returned.take r.before, r'.ticket < r.ticket

theorem inv_start (S : Service σ π α) (st : σ) : Inv S st (Config.start (ι := ι) st) where
  shared := rfl
  fetched := by nofun
  returned := by nofun
  holders := by nofun
  nodup := List.nodup_nil
  disjoint := by nofun
  accounted := by nofun

theorem ordered_start (st : σ) : Ordered (Config.start st : Config ι σ π α) where
  called := by nofun
  fetched := by nofun
  returned := by nofun

variable {S : Service σ π α} {st : σ} {c c' : Config ι σ π α}

/-- The values returned, read along the tickets. -/
theorem Inv.map_value (h : Inv S st c) :
    c.returned.map Return.value =
      (c.returned.map Return.ticket).filterMap fun t => S.result (S.position st t) := by
  have hall := h.returned
  generalize c.returned = rs at hall
  induction rs with
  | nil => rfl
  | cons r rs ih =>
    rw [List.map_cons, List.map_cons, List.filterMap_cons, (hall r List.mem_cons_self).2]
    exact congrArg _ (ih fun r hr => hall r (List.mem_cons_of_mem _ hr))

/-- The tickets returned are some of those drawn. -/
theorem Inv.tickets_subperm (h : Inv S st c) :
    (c.returned.map Return.ticket).Subperm (List.range c.fetches) := by
  apply h.nodup.subperm
  intro t ht
  obtain ⟨r, hr, rfl⟩ := List.mem_map.mp ht
  exact List.mem_range.mpr (h.returned r hr).1

/-- A longer history does not change what had returned when a call began. -/
theorem take_returned {l : List (Return ι α)} {r : Return ι α} {n : Nat} (hn : n ≤ l.length) :
    (l ++ [r]).take n = l.take n :=
  List.take_append_of_le_length hn

section Steps

variable [DecidableEq ι]

/-- A thread that holds a position after a move of thread `i` is `i` itself,
or held it before. -/
theorem eq_of_update {phase : ι → Phase π} {i j : ι} {p q : Phase π}
    (h : Function.update phase i p j = q) : (j = i ∧ p = q) ∨ (j ≠ i ∧ phase j = q) := by
  by_cases hij : j = i
  · rw [hij, Function.update_self] at h
    exact .inl ⟨hij, h⟩
  · rw [Function.update_of_ne hij] at h
    exact .inr ⟨hij, h⟩

/-- A move that leaves thread `i` without a position, all else being equal,
keeps every holder but `i`. -/
theorem fetched_of_update {phase : ι → Phase π} {i j : ι} {p : Phase π} {before ticket : Nat}
    {pos : π} (hp : ∀ before ticket pos, p ≠ .fetched before ticket pos)
    (h : Function.update phase i p j = .fetched before ticket pos) :
    j ≠ i ∧ phase j = .fetched before ticket pos := by
  obtain ⟨_, hq⟩ | hj := eq_of_update h
  · exact absurd hq (hp _ _ _)
  · exact hj

theorem Inv.call {i : ι} (h : Inv S st c) (hi : c.phase i = .idle) :
    Inv S st { c with phase := Function.update c.phase i (.called c.returned.length) } where
  shared := h.shared
  fetched j before ticket pos hj := h.fetched j _ _ _ (fetched_of_update (by nofun) hj).2
  returned := h.returned
  holders j j' before before' ticket pos pos' hj hj' :=
    h.holders j j' _ _ _ _ _ (fetched_of_update (by nofun) hj).2
      (fetched_of_update (by nofun) hj').2
  nodup := h.nodup
  disjoint j before ticket pos hj := h.disjoint j _ _ _ (fetched_of_update (by nofun) hj).2
  accounted ticket hlt := by
    obtain ⟨j, before, pos, hj⟩ | hrest := h.accounted ticket hlt
    · have hne : j ≠ i := by
        rintro rfl
        rw [hi] at hj
        cases hj
      exact .inl ⟨j, before, pos, (Function.update_of_ne hne _ _).trans hj⟩
    · exact .inr hrest

/-- The fetch takes the next ticket, which nobody has. -/
theorem Inv.fetch {i : ι} {before : Nat} (h : Inv S st c) (hi : c.phase i = .called before) :
    Inv S st { c with
      shared := (S.fetch c.shared).2
      phase := Function.update c.phase i (.fetched before c.fetches (S.fetch c.shared).1)
      fetches := c.fetches + 1 } where
  shared := by
    show (S.fetch c.shared).2 = _
    rw [h.shared, S.after_succ]
  fetched j before' ticket pos hj := by
    obtain ⟨_, hq⟩ | ⟨_, hj⟩ := eq_of_update hj
    · cases hq
      refine ⟨Nat.lt_succ_self _, ?_⟩
      rw [h.shared]
      rfl
    · obtain ⟨hlt, hpos⟩ := h.fetched j _ _ _ hj
      exact ⟨Nat.lt_succ_of_lt hlt, hpos⟩
  returned r hr := ⟨Nat.lt_succ_of_lt (h.returned r hr).1, (h.returned r hr).2⟩
  holders j j' before₁ before₂ ticket pos pos' hj hj' := by
    obtain ⟨hji, hq⟩ | ⟨_, hj⟩ := eq_of_update hj
    · obtain ⟨hji', _⟩ | ⟨_, hj'⟩ := eq_of_update hj'
      · rw [hji, hji']
      · cases hq
        exact absurd (h.fetched j' _ _ _ hj').1 (Nat.lt_irrefl _)
    · obtain ⟨_, hq'⟩ | ⟨_, hj'⟩ := eq_of_update hj'
      · cases hq'
        exact absurd (h.fetched j _ _ _ hj).1 (Nat.lt_irrefl _)
      · exact h.holders j j' _ _ _ _ _ hj hj'
  nodup := h.nodup
  disjoint j before' ticket pos hj := by
    obtain ⟨_, hq⟩ | ⟨_, hj⟩ := eq_of_update hj
    · cases hq
      intro hmem
      obtain ⟨r, hr, heq⟩ := List.mem_map.mp hmem
      exact absurd (h.returned r hr).1 (by omega)
    · exact h.disjoint j _ _ _ hj
  accounted ticket hlt := by
    by_cases hlast : ticket = c.fetches
    · exact .inl ⟨i, before, _, by rw [hlast]; exact Function.update_self ..⟩
    · obtain ⟨j, before', pos, hj⟩ | hrest := h.accounted ticket (by
        have hlt : ticket < c.fetches + 1 := hlt
        omega)
      · have hne : j ≠ i := by
          rintro rfl
          rw [hi] at hj
          cases hj
        exact .inl ⟨j, before', pos, (Function.update_of_ne hne _ _).trans hj⟩
      · exact .inr hrest

/-- A position that gives nothing is given up. -/
theorem Inv.again {i : ι} {before ticket : Nat} {pos : π} (h : Inv S st c)
    (hi : c.phase i = .fetched before ticket pos) (hnone : S.result pos = none) :
    Inv S st { c with phase := Function.update c.phase i (.called before) } where
  shared := h.shared
  fetched j before ticket pos hj := h.fetched j _ _ _ (fetched_of_update (by nofun) hj).2
  returned := h.returned
  holders j j' before before' ticket pos pos' hj hj' :=
    h.holders j j' _ _ _ _ _ (fetched_of_update (by nofun) hj).2
      (fetched_of_update (by nofun) hj').2
  nodup := h.nodup
  disjoint j before ticket pos hj := h.disjoint j _ _ _ (fetched_of_update (by nofun) hj).2
  accounted ticket' hlt := by
    obtain ⟨j, before', pos', hj⟩ | hrest := h.accounted ticket' hlt
    · by_cases hji : j = i
      · rw [hji, hi] at hj
        cases hj
        refine .inr (.inr ?_)
        rw [← (h.fetched i _ _ _ hi).2]
        exact hnone
      · exact .inl ⟨j, before', pos', (Function.update_of_ne hji _ _).trans hj⟩
    · exact .inr hrest

/-- A call returns what its position gives. -/
theorem Inv.ret {i : ι} {before ticket : Nat} {pos : π} {v : α} (h : Inv S st c)
    (hi : c.phase i = .fetched before ticket pos) (hv : S.result pos = some v) :
    Inv S st { c with
      phase := Function.update c.phase i .idle
      returned := c.returned ++ [⟨i, before, ticket, v⟩] } where
  shared := h.shared
  fetched j before ticket pos hj := h.fetched j _ _ _ (fetched_of_update (by nofun) hj).2
  returned r hr := by
    obtain hr | hr := List.mem_append.mp hr
    · exact h.returned r hr
    · obtain rfl := List.mem_singleton.mp hr
      obtain ⟨hlt, hpos⟩ := h.fetched i _ _ _ hi
      exact ⟨hlt, by rw [← hpos]; exact hv⟩
  holders j j' before before' ticket pos pos' hj hj' :=
    h.holders j j' _ _ _ _ _ (fetched_of_update (by nofun) hj).2
      (fetched_of_update (by nofun) hj').2
  nodup := by
    show (List.map Return.ticket (c.returned ++ [_])).Nodup
    rw [List.map_append, List.nodup_append]
    refine ⟨h.nodup, List.nodup_singleton _, ?_⟩
    rintro t ht _ hs rfl
    obtain rfl := List.mem_singleton.mp hs
    exact h.disjoint i _ _ _ hi ht
  disjoint j before' ticket' pos' hj hmem := by
    obtain ⟨hne, hheld⟩ := fetched_of_update (by nofun) hj
    replace hmem : ticket' ∈ List.map Return.ticket (c.returned ++ [_]) := hmem
    rw [List.map_append, List.mem_append] at hmem
    obtain hmem | hmem := hmem
    · exact h.disjoint j _ _ _ hheld hmem
    · obtain rfl : ticket' = ticket := List.mem_singleton.mp hmem
      exact hne (h.holders j i _ _ _ _ _ hheld hi)
  accounted ticket' hlt := by
    show _ ∨ ticket' ∈ List.map Return.ticket (c.returned ++ [_]) ∨ _
    rw [List.map_append, List.mem_append]
    obtain ⟨j, before', pos', hj⟩ | hmem | hnone := h.accounted ticket' hlt
    · by_cases hji : j = i
      · rw [hji, hi] at hj
        cases hj
        exact .inr (.inl (.inr (List.mem_singleton.mpr rfl)))
      · exact .inl ⟨j, before', pos', (Function.update_of_ne hji _ _).trans hj⟩
    · exact .inr (.inl (.inl hmem))
    · exact .inr (.inr hnone)

theorem Inv.step (h : Inv S st c) (hstep : Step S c c') : Inv S st c' := by
  cases hstep with
  | call i hi => exact h.call hi
  | fetch i hi => exact h.fetch hi
  | again i hi hnone => exact h.again hi hnone
  | ret i hi hv => exact h.ret hi hv

theorem Reachable.inv (h : Reachable S st c) : Inv S st c := by
  induction h with
  | start => exact inv_start S st
  | step _ hstep ih => exact ih.step hstep

/-! ## The order of the calls -/

/-- The next ticket is larger than those returned. -/
theorem Ordered.step (hc : Inv S st c) (h : Ordered c) (hstep : Step S c c') : Ordered c' := by
  cases hstep with
  | call i hi =>
    refine ⟨fun j before hj => ?_, fun j before ticket pos hj => ?_, h.returned⟩
    · obtain ⟨_, hq⟩ | ⟨_, hj⟩ := eq_of_update hj
      · cases hq
        exact le_refl _
      · exact h.called j _ hj
    · exact h.fetched j _ _ _ (fetched_of_update (by nofun) hj).2
  | fetch i hi =>
    refine ⟨fun j before hj => ?_, fun j before ticket pos hj => ?_, h.returned⟩
    · obtain ⟨_, hq⟩ | ⟨_, hj⟩ := eq_of_update hj
      · cases hq
      · exact h.called j _ hj
    · obtain ⟨_, hq⟩ | ⟨_, hj⟩ := eq_of_update hj
      · cases hq
        exact ⟨h.called i _ hi, fun r hr => (hc.returned r (List.mem_of_mem_take hr)).1⟩
      · exact h.fetched j _ _ _ hj
  | again i hi hnone =>
    refine ⟨fun j before hj => ?_, fun j before ticket pos hj => ?_, h.returned⟩
    · obtain ⟨_, hq⟩ | ⟨_, hj⟩ := eq_of_update hj
      · cases hq
        exact (h.fetched i _ _ _ hi).1
      · exact h.called j _ hj
    · exact h.fetched j _ _ _ (fetched_of_update (by nofun) hj).2
  | ret i hi hv =>
    refine ⟨fun j before hj => ?_, fun j before ticket pos hj => ?_, fun k r hr => ?_⟩
    · obtain ⟨_, hq⟩ | ⟨_, hj⟩ := eq_of_update hj
      · cases hq
      · exact (h.called j _ hj).trans (by simp)
    · obtain ⟨hle, hlt⟩ := h.fetched j _ _ _ (fetched_of_update (by nofun) hj).2
      refine ⟨hle.trans (by simp), fun r hr => hlt r ?_⟩
      replace hr : r ∈ (c.returned ++ [_]).take before := hr
      rwa [take_returned hle] at hr
    · replace hr : (c.returned ++ [_])[k]? = some r := hr
      by_cases hk : k < c.returned.length
      · rw [List.getElem?_append_left hk] at hr
        obtain ⟨hle, hlt⟩ := h.returned k r hr
        refine ⟨hle, fun r' hr' => hlt r' ?_⟩
        replace hr' : r' ∈ (c.returned ++ [_]).take r.before := hr'
        rwa [take_returned (hle.trans (by omega))] at hr'
      · obtain ⟨hlen, hget⟩ := List.getElem?_eq_some_iff.mp hr
        obtain rfl : k = c.returned.length := by
          rw [List.length_append, List.length_singleton] at hlen
          omega
        rw [List.getElem_concat_length rfl] at hget
        subst hget
        obtain ⟨hle, hlt⟩ := h.fetched i _ _ _ hi
        refine ⟨hle, fun r' hr' => hlt r' ?_⟩
        replace hr' : r' ∈ (c.returned ++ [_]).take _ := hr'
        rwa [take_returned hle] at hr'

theorem Reachable.ordered (h : Reachable S st c) : Ordered c := by
  induction h with
  | start => exact ordered_start st
  | step hreach hstep ih => exact ih.step hreach.inv hstep

/-- **Real time.** A call that had returned when another one began made an
earlier fetch. -/
theorem Reachable.real_time (h : Reachable S st c) {j k : Nat} {r r' : Return ι α}
    (hj : c.returned[j]? = some r) (hk : c.returned[k]? = some r') (hbefore : j < r'.before) :
    r.ticket < r'.ticket := by
  apply (h.ordered.returned k r' hk).2 r
  rw [List.mem_iff_getElem?]
  exact ⟨j, by rw [List.getElem?_take_of_lt hbefore, hj]⟩

/-! ## What the calls return -/

/-- **No value is made up or given twice**: what the threads have returned is
a part of what the positions fetched give in sequence. -/
theorem Reachable.values_subperm (h : Reachable S st c) :
    (c.returned.map Return.value).Subperm (S.sequential st c.fetches) := by
  obtain ⟨tickets, hperm, hsub⟩ := h.inv.tickets_subperm
  rw [h.inv.map_value]
  exact ⟨_, hperm.filterMap _, hsub.filterMap _⟩

/-- **No value is lost**: when no thread holds a position, the threads have
returned, in some order, what the positions give in sequence. -/
theorem Reachable.values_perm (h : Reachable S st c) (hsettled : c.Settled) :
    (c.returned.map Return.value).Perm (S.sequential st c.fetches) := by
  have hinv := h.inv
  have hkeep : ∀ t, t ∈ c.returned.map Return.ticket ↔
      t ∈ (List.range c.fetches).filter fun t => (S.result (S.position st t)).isSome := by
    intro t
    rw [List.mem_filter, List.mem_range]
    constructor
    · intro ht
      obtain ⟨r, hr, rfl⟩ := List.mem_map.mp ht
      exact ⟨(hinv.returned r hr).1, by rw [(hinv.returned r hr).2]; rfl⟩
    · rintro ⟨hlt, hsome⟩
      obtain ⟨i, before, pos, hi⟩ | hmem | hnone := hinv.accounted t hlt
      · exact absurd hi (hsettled _ _ _ _)
      · exact hmem
      · rw [hnone] at hsome
        cases hsome
  have hperm := (List.perm_ext_iff_of_nodup hinv.nodup (List.nodup_range.filter _)).mpr hkeep
  rw [hinv.map_value]
  refine (hperm.filterMap _).trans ?_
  rw [List.filterMap_filter]
  unfold Service.sequential
  refine List.Perm.of_eq (List.filterMap_congr fun t _ => ?_)
  cases S.result (S.position st t) with
  | none => rfl
  | some v => rfl

/-- The calls of a configuration happened one after the other: call number
`t` gave `f t`, each number belongs to one call, the numbers respect the
order of calls that did not overlap, and none is left out once the threads
have settled. -/
structure Linearized (c : Config ι σ π α) (f : Nat → Option α) : Prop where
  value : ∀ r ∈ c.returned, f r.ticket = some r.value
  once : (c.returned.map Return.ticket).Nodup
  realTime : ∀ (j k : Nat) (r r' : Return ι α), c.returned[j]? = some r →
    c.returned[k]? = some r' → j < r'.before → r.ticket < r'.ticket
  complete : c.Settled →
    (c.returned.map Return.value).Perm ((List.range c.fetches).filterMap f)

/-- **Every interleaving is linearizable**, in the order of the fetches. -/
theorem Reachable.linearized (h : Reachable S st c) :
    Linearized c fun t => S.result (S.position st t) where
  value r hr := (h.inv.returned r hr).2
  once := h.inv.nodup
  realTime _ _ _ _ hj hk hbefore := h.real_time hj hk hbefore
  complete := h.values_perm

end Steps

end SharedCounter
