/-
Leeloo.PropertyOf — the lookup `property_of` on the stored segments.

The dichotomy gives the property of the segment that the search of
`Leeloo.Lib.Dichotomy` finds (`propertyOfLoop_eq`). So what is returned is
the property of a segment that contains the value (`member_of_returns`);
on segments that follow each other `property_of` returns, and null means
that no segment contains the value (`exists_returns`), as long as `b + a`
does not wrap: with more than four positions left that needs
`2 * b ≤ 2^s + 4`. Beyond that bound the dichotomy can turn for ever
(`not_returns_of_cycle`).
-/
import Leeloo.Lib.Dichotomy
import Leeloo.ListIntervalsProperties

namespace Leeloo

open HalfOpen Leeloo.Interval ListIntervalsProperties

variable {w s : Nat} {P : Type}

/-! ## The lookup as a search -/

theorem propertyOfScan_eq (l : ListIntervalsProperties w s P) (v : BitVec w) (n i : Nat) :
    propertyOfScan l v n i =
      (Dichotomy.scan l.properties (fun m => m.1.contains v) n i).map (Option.map (·.2)) := by
  induction n generalizing i with
  | zero => rfl
  | succ n ih =>
    unfold propertyOfScan Dichotomy.scan
    cases l.properties[i]? with
    | none => rfl
    | some m =>
      simp only [Option.bind_eq_bind, Option.bind_some, ih]
      split <;> rfl

/-- The dichotomy of `property_of` gives the property of the segment that
the search finds. -/
theorem propertyOfLoop_eq (l : ListIntervalsProperties w s P) (v : BitVec w) (fuel : Nat)
    (a b : BitVec s) :
    propertyOfLoop l v fuel a b =
      (Dichotomy.search l.properties (fun m => m.1.contains v) (fun m => decide (v < m.1.lower))
        fuel a b).map (Option.map (·.2)) := by
  induction fuel generalizing a b with
  | zero => rfl
  | succ fuel ih =>
    unfold propertyOfLoop Dichotomy.search
    by_cases hgt : 4 < (b - a).toNat
    · rw [if_pos hgt, if_pos hgt]
      simp only
      cases l.properties[((b + a) / 2).toNat]? with
      | none => rfl
      | some m =>
        simp only [Option.bind_eq_bind, Option.bind_some, ih, decide_eq_true_eq]
        split_ifs <;> rfl
    · rw [if_neg hgt, if_neg hgt, propertyOfScan_eq]

theorem returns_iff {l : ListIntervalsProperties w s P} {v : BitVec w} {r : Option P} :
    l.Returns v r ↔ ∃ fuel found, Dichotomy.search l.properties (fun m => m.1.contains v)
      (fun m => decide (v < m.1.lower)) fuel 0 (BitVec.ofNat s l.properties.length) =
        some found ∧ found.map (·.2) = r := by
  unfold Returns propertyOf
  simp only [propertyOfLoop_eq, Option.map_eq_some_iff]

/-- A property returned is that of a segment that contains the value. -/
theorem member_of_returns {l : ListIntervalsProperties w s P} {v : BitVec w} {p : P}
    (h : l.Returns v (some p)) : ∃ m ∈ l.properties, m.1.contains v = true ∧ m.2 = p := by
  obtain ⟨fuel, found, hsearch, hfound⟩ := returns_iff.mp h
  obtain ⟨m, rfl, hm⟩ := Option.map_eq_some_iff.mp hfound
  obtain ⟨hmem, hv⟩ := Dichotomy.hit_of_search hsearch
  exact ⟨m, hmem, hv, hm⟩

/-- `property_of` returns one result. -/
theorem returns_unique {l : ListIntervalsProperties w s P} {v : BitVec w} {r r' : Option P}
    (h : l.Returns v r) (h' : l.Returns v r') : r = r' := by
  obtain ⟨fuel, found, hsearch, rfl⟩ := returns_iff.mp h
  obtain ⟨fuel', found', hsearch', rfl⟩ := returns_iff.mp h'
  have hmax := Dichotomy.search_mono (le_max_left fuel fuel') hsearch
  rw [Dichotomy.search_mono (le_max_right fuel fuel') hsearch'] at hmax
  rw [Option.some.inj hmax]

/-! ## Consecutive segments -/

/-- **`property_of` is the lookup** on segments that follow each other, as
long as the midpoint does not wrap. -/
theorem exists_returns {l : ListIntervalsProperties w s P}
    (hc : Consecutive (l.properties.map (·.1))) (hlen : 2 * l.properties.length ≤ 2 ^ s + 4)
    (hlt : l.properties.length < 2 ^ s) (v : BitVec w) :
    ∃ r, l.Returns v r ∧ (r = none ↔ ∀ m ∈ l.properties, ¬ m.1.contains v = true) := by
  have hg : Dichotomy.Guides l.properties (fun m => m.1.contains v)
      fun m => decide (v < m.1.lower) :=
    Dichotomy.guides_of_consecutive hc (fun _ => contains_iff) fun _ => decide_eq_true_iff
  obtain ⟨found, hsearch, hnone⟩ := Dichotomy.exists_search hg hlen hlt
  exact ⟨_, returns_iff.mpr ⟨_, found, hsearch, rfl⟩, by rw [Option.map_eq_none_iff, hnone]⟩

/-- On such segments null means that no segment contains the value. -/
theorem returns_none_iff {l : ListIntervalsProperties w s P}
    (hc : Consecutive (l.properties.map (·.1))) (hlen : 2 * l.properties.length ≤ 2 ^ s + 4)
    (hlt : l.properties.length < 2 ^ s) {v : BitVec w} {r : Option P} (h : l.Returns v r) :
    r = none ↔ ∀ m ∈ l.properties, ¬ m.1.contains v = true := by
  obtain ⟨r', hr', hnone⟩ := exists_returns hc hlen hlt v
  rw [returns_unique h hr', hnone]

/-! ## A dichotomy that does not end -/

/-- Above every segment the dichotomy only moves its lower end, and turns
for ever when the wrapped midpoint keeps that end in `I`. -/
theorem not_returns_of_cycle {l : ListIntervalsProperties w s P} {v : BitVec w}
    (hv : ∀ m ∈ l.properties, ¬ m.1.contains v = true ∧ ¬ v < m.1.lower)
    (I : Nat → Prop) (hzero : I 0) (hs : 2 < 2 ^ s) (hlt : l.properties.length < 2 ^ s)
    (hI : ∀ a, I a → a + 4 < l.properties.length ∧
      I ((l.properties.length + a) % 2 ^ s / 2))
    (r : Option P) : ¬ l.Returns v r := by
  intro h
  obtain ⟨fuel, found, hsearch, _⟩ := returns_iff.mp h
  have hnone : Dichotomy.search l.properties (fun m => m.1.contains v)
      (fun m => decide (v < m.1.lower)) fuel 0 (BitVec.ofNat s l.properties.length) = none := by
    apply Dichotomy.search_eq_none_of_cycle _ I hs hlt hI
    · simpa using hzero
    · intro m hm
      rw [decide_eq_true_eq]
      exact hv m hm
  rw [hnone] at hsearch
  cases hsearch

end Leeloo
