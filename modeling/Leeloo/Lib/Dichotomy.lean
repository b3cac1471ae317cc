/-
Leeloo.Lib.Dichotomy — a dichotomy on a list, with machine words as the
ends of its window.

The search probes the middle of the window `[a, b)` and ends when the
element there is hit. Otherwise it goes on below the middle, or from the
middle on: the probed element leaves a lower window only. A window of at
most four is scanned from its start. The middle is half of the wrapped sum
of the ends.

`Guides` says that the probes tell the right side. Then the search ends
and finds what there is to hit, as long as the sum does not wrap
(`exists_search`); with more than four positions left that needs twice the
length to be at most `2^s + 4`. Beyond that bound the search can turn for
ever (`search_eq_none_of_cycle`).
-/
import Leeloo.Lib.HalfOpen
import Leeloo.Lib.Word

namespace Dichotomy

variable {α : Type*} {s : Nat}

/-- The first hit among `n` indices from `i` on; `none` is an access outside
the list. -/
def scan (xs : List α) (hit : α → Bool) : (n i : Nat) → Option (Option α)
  | 0, _ => some none
  | n + 1, i => do
    let x ← xs[i]?
    if hit x then some (some x) else scan xs hit n (i + 1)

/-- The search in the window `[a, b)`; `none` is an access outside the list,
or the end of the fuel. -/
def search (xs : List α) (hit below : α → Bool) :
    (fuel : Nat) → BitVec s → BitVec s → Option (Option α)
  | 0, _, _ => none
  | fuel + 1, a, b =>
    if 4 < (b - a).toNat then do
      let mid := (b + a) / 2
      let x ← xs[mid.toNat]?
      if hit x then some (some x)
      else if below x then search xs hit below fuel a mid
      else search xs hit below fuel mid b
    else scan xs hit (b.toNat - a.toNat) a.toNat

/-- Below a probe that says so lie the hits before it, and otherwise the
hits that are not before it. -/
structure Guides (xs : List α) (hit below : α → Bool) : Prop where
  lt_of_below : ∀ {i k : Nat} {x y : α}, xs[i]? = some x → xs[k]? = some y → hit y = true →
    below x = true → k < i
  le_of_not_below : ∀ {i k : Nat} {x y : α}, xs[i]? = some x → xs[k]? = some y → hit y = true →
    ¬ below x = true → i ≤ k

variable {xs : List α} {hit below : α → Bool}

/-- The search for the range of a value, among ranges that follow each
other, is guided by their lower bounds. -/
theorem guides_of_consecutive {κ : Type} [LinearOrder κ] {range : α → HalfOpen κ} {v : κ}
    (hc : HalfOpen.Consecutive (xs.map range))
    (hhit : ∀ x, hit x = true ↔ v ∈ (range x).toSet)
    (hbelow : ∀ x, below x = true ↔ v < (range x).lower) : Guides xs hit below where
  lt_of_below hx hy hyv hxv :=
    hc.lt_of_lt_lower (by rw [List.getElem?_map, hx, Option.map_some])
      (by rw [List.getElem?_map, hy, Option.map_some]) ((hhit _).mp hyv) ((hbelow _).mp hxv)
  le_of_not_below hx hy hyv hxv :=
    hc.le_of_not_lt_lower (by rw [List.getElem?_map, hx, Option.map_some])
      (by rw [List.getElem?_map, hy, Option.map_some]) ((hhit _).mp hyv) (mt (hbelow _).mpr hxv)

/-! ## What is found -/

theorem hit_of_scan {n i : Nat} {x : α} (h : scan xs hit n i = some (some x)) :
    x ∈ xs ∧ hit x = true := by
  induction n generalizing i with
  | zero => cases h
  | succ n ih =>
    unfold scan at h
    cases hy : xs[i]? with
    | none => simp [hy] at h
    | some y =>
      simp only [hy, Option.bind_eq_bind, Option.bind_some] at h
      by_cases hc : hit y = true
      · rw [if_pos hc] at h
        cases h
        exact ⟨List.mem_of_getElem? hy, hc⟩
      · rw [if_neg hc] at h
        exact ih h

/-- What is found is in the list, and hit. -/
theorem hit_of_search {fuel : Nat} {a b : BitVec s} {x : α}
    (h : search xs hit below fuel a b = some (some x)) : x ∈ xs ∧ hit x = true := by
  induction fuel generalizing a b with
  | zero => cases h
  | succ fuel ih =>
    unfold search at h
    by_cases hgt : 4 < (b - a).toNat
    · rw [if_pos hgt] at h
      cases hy : xs[((b + a) / 2).toNat]? with
      | none =>
        simp only [hy, Option.bind_eq_bind, Option.bind_none] at h
        cases h
      | some y =>
        simp only [hy, Option.bind_eq_bind, Option.bind_some] at h
        by_cases hc : hit y = true
        · rw [if_pos hc] at h
          cases h
          exact ⟨List.mem_of_getElem? hy, hc⟩
        · rw [if_neg hc] at h
          split at h
          · exact ih h
          · exact ih h
    · rw [if_neg hgt] at h
      exact hit_of_scan h

/-- A longer fuel does not change what is found. -/
theorem search_succ {r : Option α} {fuel : Nat} {a b : BitVec s}
    (h : search xs hit below fuel a b = some r) : search xs hit below (fuel + 1) a b = some r := by
  induction fuel generalizing a b with
  | zero => cases h
  | succ fuel ih =>
    unfold search at h ⊢
    by_cases hgt : 4 < (b - a).toNat
    · rw [if_pos hgt] at h ⊢
      cases hy : xs[((b + a) / 2).toNat]? with
      | none =>
        simp only [hy, Option.bind_eq_bind, Option.bind_none] at h
        cases h
      | some y =>
        simp only [hy, Option.bind_eq_bind, Option.bind_some] at h ⊢
        by_cases hc : hit y = true
        · rw [if_pos hc] at h ⊢
          exact h
        · rw [if_neg hc] at h ⊢
          by_cases hlt : below y = true
          · rw [if_pos hlt] at h ⊢
            exact ih h
          · rw [if_neg hlt] at h ⊢
            exact ih h
    · rw [if_neg hgt] at h ⊢
      exact h

theorem search_mono {r : Option α} {fuel fuel' : Nat} {a b : BitVec s} (hle : fuel ≤ fuel')
    (h : search xs hit below fuel a b = some r) : search xs hit below fuel' a b = some r := by
  induction fuel', hle using Nat.le_induction with
  | base => exact h
  | succ fuel' _ ih => exact search_succ ih

/-! ## When the search ends -/

/-- The scan looks at its `n` indices. -/
theorem scan_spec (n i : Nat) (hlen : i + n ≤ xs.length) :
    ∃ r, scan xs hit n i = some r ∧
      (r = none → ∀ k x, i ≤ k → k < i + n → xs[k]? = some x → ¬ hit x = true) := by
  induction n generalizing i with
  | zero =>
    refine ⟨none, rfl, ?_⟩
    intro _ k x hik hki
    omega
  | succ n ih =>
    have hi : i < xs.length := by omega
    unfold scan
    simp only [List.getElem?_eq_getElem hi, Option.bind_eq_bind, Option.bind_some]
    by_cases hc : hit xs[i] = true
    · rw [if_pos hc]
      exact ⟨_, rfl, by simp⟩
    · rw [if_neg hc]
      obtain ⟨r, hr, hnone⟩ := ih (i + 1) (by omega)
      refine ⟨r, hr, ?_⟩
      intro hrn k x hik hki hx
      by_cases hk : k = i
      · rw [hk, List.getElem?_eq_getElem hi] at hx
        cases hx
        exact hc
      · exact hnone hrn k x (by omega) (by omega) hx

/-- The search ends and finds nothing only where there is nothing to hit:
it keeps every hit in its window. -/
theorem search_spec (hg : Guides xs hit below) (hlen : 2 * xs.length ≤ 2 ^ s + 4) (fuel : Nat)
    (a b : BitVec s) (hab : a.toNat ≤ b.toNat) (hb : b.toNat ≤ xs.length)
    (hfuel : b.toNat - a.toNat < fuel)
    (hwin : ∀ k x, xs[k]? = some x → hit x = true → a.toNat ≤ k ∧ k < b.toNat) :
    ∃ r, search xs hit below fuel a b = some r ∧ (r = none → ∀ x ∈ xs, ¬ hit x = true) := by
  induction fuel generalizing a b with
  | zero => omega
  | succ fuel ih =>
    have hsub : (b - a).toNat = b.toNat - a.toNat := Word.toNat_sub_of_le hab
    have hblt := b.isLt
    unfold search
    by_cases hgt : 4 < (b - a).toNat
    · have hmid : ((b + a) / 2).toNat = (b.toNat + a.toNat) / 2 := by
        rw [Word.toNat_add_div_two (by omega), Nat.mod_eq_of_lt (by omega)]
      have hmidlt : (b.toNat + a.toNat) / 2 < xs.length := by omega
      have hgetmid := List.getElem?_eq_getElem hmidlt
      rw [if_pos hgt]
      simp only [hmid, hgetmid, Option.bind_eq_bind, Option.bind_some]
      by_cases hc : hit xs[(b.toNat + a.toNat) / 2] = true
      · rw [if_pos hc]
        exact ⟨_, rfl, by simp⟩
      · rw [if_neg hc]
        by_cases hlt : below xs[(b.toNat + a.toNat) / 2] = true
        · rw [if_pos hlt]
          apply ih a ((b + a) / 2) (by omega) (by omega) (by omega)
          intro k x hx hxhit
          refine ⟨(hwin k x hx hxhit).1, ?_⟩
          rw [hmid]
          exact hg.lt_of_below hgetmid hx hxhit hlt
        · rw [if_neg hlt]
          apply ih ((b + a) / 2) b (by omega) hb (by omega)
          intro k x hx hxhit
          refine ⟨?_, (hwin k x hx hxhit).2⟩
          rw [hmid]
          exact hg.le_of_not_below hgetmid hx hxhit hlt
    · rw [if_neg hgt]
      have hend : a.toNat + (b.toNat - a.toNat) ≤ xs.length := by omega
      obtain ⟨r, hr, hnone⟩ := scan_spec (b.toNat - a.toNat) a.toNat hend
      refine ⟨r, hr, ?_⟩
      intro hrn x hx hxhit
      obtain ⟨k, hk⟩ := List.mem_iff_getElem?.mp hx
      have hkwin := hwin k x hk hxhit
      exact hnone hrn k x hkwin.1 (by omega) hk hxhit

/-- **A guided search of the whole list** ends, and finds nothing only where
there is nothing to hit. -/
theorem exists_search (hg : Guides xs hit below) (hlen : 2 * xs.length ≤ 2 ^ s + 4)
    (hlt : xs.length < 2 ^ s) :
    ∃ r, search xs hit below (xs.length + 1) 0 (BitVec.ofNat s xs.length) = some r ∧
      (r = none ↔ ∀ x ∈ xs, ¬ hit x = true) := by
  have hb : (BitVec.ofNat s xs.length).toNat = xs.length := by
    rw [BitVec.toNat_ofNat, Nat.mod_eq_of_lt hlt]
  have hzero : (0 : BitVec s).toNat = 0 := by simp
  obtain ⟨r, hr, hnone⟩ := search_spec hg hlen (xs.length + 1) 0 (BitVec.ofNat s xs.length)
    (by omega) (by omega) (by omega) (by
      intro k x hk _
      obtain ⟨hklen, _⟩ := List.getElem?_eq_some_iff.mp hk
      omega)
  refine ⟨r, hr, hnone, fun hall => ?_⟩
  cases r with
  | none => rfl
  | some x =>
    obtain ⟨hx, hxhit⟩ := hit_of_search hr
    exact absurd hxhit (hall x hx)

/-- **A search that turns for ever.** Without a hit and above every element
it only moves its lower end. When the wrapped middle keeps the lower end in
`I` and at least five below the upper end, it does not end. -/
theorem search_eq_none_of_cycle (hv : ∀ x ∈ xs, ¬ hit x = true ∧ ¬ below x = true)
    (I : Nat → Prop) (hs : 2 < 2 ^ s) (hlt : xs.length < 2 ^ s)
    (hI : ∀ a, I a → a + 4 < xs.length ∧ I ((xs.length + a) % 2 ^ s / 2))
    (fuel : Nat) (a : BitVec s) (ha : I a.toNat) :
    search xs hit below fuel a (BitVec.ofNat s xs.length) = none := by
  have hb : (BitVec.ofNat s xs.length).toNat = xs.length := by
    rw [BitVec.toNat_ofNat, Nat.mod_eq_of_lt hlt]
  induction fuel generalizing a with
  | zero => rfl
  | succ fuel ih =>
    obtain ⟨hfour, hmid⟩ := hI _ ha
    have hle : a ≤ BitVec.ofNat s xs.length := by
      rw [BitVec.le_def]
      omega
    have hgt : 4 < (BitVec.ofNat s xs.length - a).toNat := by
      rw [Word.toNat_sub_of_le hle]
      omega
    unfold search
    rw [if_pos hgt]
    cases hx : xs[((BitVec.ofNat s xs.length + a) / 2).toNat]? with
    | none => simp only [hx, Option.bind_eq_bind, Option.bind_none]
    | some x =>
      obtain ⟨hnothit, hnotbelow⟩ := hv x (List.mem_of_getElem? hx)
      simp only [hx, Option.bind_eq_bind, Option.bind_some]
      rw [if_neg hnothit, if_neg hnotbelow]
      apply ih
      rw [Word.toNat_add_div_two hs, hb]
      exact hmid

end Dichotomy
