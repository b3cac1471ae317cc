/-
Leeloo.Lib.OwnedHeap — blocks on a heap and the variables that own them.

A variable owns a block or none. `Owned` says that the heap is in order:
no variable points to a freed block, no block has two owners, and no block
is without one. Acquiring a fresh block, releasing one, writing into one
and handing one over keep it, and change what one variable holds
(`contents`).
-/
import Mathlib.Logic.Function.Basic

namespace OwnedHeap

variable {ι α : Type*}

/-- The live blocks, by address. -/
abbrev Heap (α : Type*) : Type _ := Nat → Option (List α)

/-- The heap is in order for the variables that own its blocks. -/
structure Owned (h : Heap α) (own : ι → Option Nat) : Prop where
  live : ∀ v a, own v = some a → ∃ block, h a = some block
  unique : ∀ v v' a, own v = some a → own v' = some a → v = v'
  covered : ∀ a block, h a = some block → ∃ v, own v = some a

/-- What a variable holds. -/
def contents (h : Heap α) (own : ι → Option Nat) (v : ι) : Option (List α) := (own v).bind h

/-- The heap without the block of `v`. -/
def release (h : Heap α) (own : ι → Option Nat) (v : ι) : Heap α :=
  match own v with
  | none => h
  | some a => Function.update h a none

variable {h : Heap α} {own : ι → Option Nat} {v : ι}

theorem owned_empty : Owned (fun _ => none : Heap α) (fun _ => none : ι → Option Nat) where
  live := by nofun
  unique := by nofun
  covered := by nofun

theorem contents_of_own {a : Nat} (hv : own v = some a) : contents h own v = h a := by
  unfold contents
  rw [hv]
  rfl

/-- What owns another block does not own this one. -/
theorem Owned.ne_of_ne (hh : Owned h own) {v' : ι} {a b : Nat} (hv : own v = some a)
    (hv' : own v' = some b) (hne : v' ≠ v) : b ≠ a := by
  rintro rfl
  exact hne (hh.unique v' v b hv' hv)

/-- What the variables hold when one of them points elsewhere. -/
theorem contents_update [DecidableEq ι] (x : Option Nat) :
    contents h (Function.update own v x) = Function.update (contents h own) v (x.bind h) := by
  funext v'
  unfold contents
  by_cases hvv : v' = v
  · rw [hvv, Function.update_self, Function.update_self]
  · rw [Function.update_of_ne hvv, Function.update_of_ne hvv]

/-! ## A fresh block -/

section Acquire

variable {a : Nat} {block : List α}

/-- Nobody points to an address that is not in use. -/
theorem Owned.own_ne_fresh (hh : Owned h own) (ha : h a = none) (v' : ι) : own v' ≠ some a := by
  intro hv'
  obtain ⟨_, hblock⟩ := hh.live v' a hv'
  rw [ha] at hblock
  cases hblock

theorem Owned.acquire [DecidableEq ι] (hh : Owned h own) (hv : own v = none) (ha : h a = none) :
    Owned (Function.update h a (some block)) (Function.update own v (some a)) where
  live v' b hv' := by
    by_cases hb : b = a
    · exact ⟨block, by rw [hb, Function.update_self]⟩
    · rw [Function.update_of_ne hb]
      by_cases hvv : v' = v
      · rw [hvv, Function.update_self] at hv'
        exact absurd (Option.some.inj hv').symm hb
      · rw [Function.update_of_ne hvv] at hv'
        exact hh.live v' b hv'
  unique v₁ v₂ b h₁ h₂ := by
    by_cases hv₁ : v₁ = v
    · by_cases hv₂ : v₂ = v
      · rw [hv₁, hv₂]
      · rw [hv₁, Function.update_self] at h₁
        rw [Function.update_of_ne hv₂, ← h₁] at h₂
        exact absurd h₂ (hh.own_ne_fresh ha v₂)
    · rw [Function.update_of_ne hv₁] at h₁
      by_cases hv₂ : v₂ = v
      · rw [hv₂, Function.update_self] at h₂
        rw [← h₂] at h₁
        exact absurd h₁ (hh.own_ne_fresh ha v₁)
      · rw [Function.update_of_ne hv₂] at h₂
        exact hh.unique v₁ v₂ b h₁ h₂
  covered b block' hb := by
    by_cases hba : b = a
    · exact ⟨v, by rw [hba, Function.update_self]⟩
    · rw [Function.update_of_ne hba] at hb
      obtain ⟨v', hv'⟩ := hh.covered b block' hb
      refine ⟨v', ?_⟩
      rw [Function.update_of_ne (by
        rintro rfl
        rw [hv] at hv'
        cases hv')]
      exact hv'

theorem Owned.contents_acquire [DecidableEq ι] (hh : Owned h own) (ha : h a = none) :
    contents (Function.update h a (some block)) (Function.update own v (some a)) =
      Function.update (contents h own) v (some block) := by
  funext v'
  by_cases hvv : v' = v
  · rw [hvv, Function.update_self]
    rw [contents_of_own (Function.update_self ..), Function.update_self]
  · rw [Function.update_of_ne hvv]
    unfold contents
    rw [Function.update_of_ne hvv]
    cases hown : own v' with
    | none => rfl
    | some b =>
      have hba : b ≠ a := fun heq => hh.own_ne_fresh ha v' (by rw [hown, heq])
      exact Function.update_of_ne hba _ _

end Acquire

/-! ## The end of a block -/

theorem release_of_own {a : Nat} (hv : own v = some a) :
    release h own v = Function.update h a none := by
  unfold release
  rw [hv]

theorem release_of_none (hv : own v = none) : release h own v = h := by
  unfold release
  rw [hv]

/-- An address that is not in use stays so. -/
theorem release_eq_none {a : Nat} (ha : h a = none) : release h own v a = none := by
  unfold OwnedHeap.release
  cases own v with
  | none => exact ha
  | some b =>
    show Function.update h b none a = none
    by_cases hab : a = b
    · rw [hab, Function.update_self]
    · rwa [Function.update_of_ne hab]

theorem Owned.release [DecidableEq ι] (hh : Owned h own) (v : ι) :
    Owned (release h own v) (Function.update own v none) := by
  cases hv : own v with
  | none =>
    rw [release_of_none hv, ← hv, Function.update_eq_self]
    exact hh
  | some a =>
    rw [release_of_own hv]
    refine ⟨fun v' b hv' => ?_, fun v₁ v₂ b h₁ h₂ => ?_, fun b block hb => ?_⟩
    · have hvv : v' ≠ v := by
        rintro rfl
        rw [Function.update_self] at hv'
        cases hv'
      rw [Function.update_of_ne hvv] at hv'
      rw [Function.update_of_ne (hh.ne_of_ne hv hv' hvv)]
      exact hh.live v' b hv'
    · have hne : ∀ {v'}, Function.update own v none v' = some b → own v' = some b := by
        intro v' hv'
        by_cases hvv : v' = v
        · rw [hvv, Function.update_self] at hv'
          cases hv'
        · rwa [Function.update_of_ne hvv] at hv'
      exact hh.unique v₁ v₂ b (hne h₁) (hne h₂)
    · have hba : b ≠ a := by
        rintro rfl
        rw [Function.update_self] at hb
        cases hb
      rw [Function.update_of_ne hba] at hb
      obtain ⟨v', hv'⟩ := hh.covered b block hb
      refine ⟨v', ?_⟩
      rw [Function.update_of_ne (by
        rintro rfl
        rw [hv] at hv'
        exact hba (Option.some.inj hv').symm)]
      exact hv'

theorem Owned.contents_release [DecidableEq ι] (hh : Owned h own) (v : ι) :
    contents (OwnedHeap.release h own v) (Function.update own v none) =
      Function.update (contents h own) v none := by
  funext v'
  unfold contents
  by_cases hvv : v' = v
  · rw [hvv, Function.update_self, Function.update_self]
    rfl
  · rw [Function.update_of_ne hvv, Function.update_of_ne hvv]
    cases hv : own v with
    | none => rw [release_of_none hv]
    | some a =>
      rw [release_of_own hv]
      cases hv' : own v' with
      | none => rfl
      | some b => exact Function.update_of_ne (hh.ne_of_ne hv hv' hvv) _ _

/-! ## A write, and a change of owner -/

theorem Owned.write (hh : Owned h own) {a : Nat} (hv : own v = some a) (block : List α) :
    Owned (Function.update h a (some block)) own where
  live v' b hv' := by
    by_cases hba : b = a
    · exact ⟨block, by rw [hba, Function.update_self]⟩
    · rw [Function.update_of_ne hba]
      exact hh.live v' b hv'
  unique := hh.unique
  covered b block' hb := by
    by_cases hba : b = a
    · exact ⟨v, by rw [hba, hv]⟩
    · rw [Function.update_of_ne hba] at hb
      exact hh.covered b block' hb

theorem Owned.contents_write [DecidableEq ι] (hh : Owned h own) {a : Nat} (hv : own v = some a)
    (block : List α) :
    contents (Function.update h a (some block)) own =
      Function.update (contents h own) v (some block) := by
  funext v'
  unfold contents
  by_cases hvv : v' = v
  · rw [hvv, hv, Function.update_self]
    exact Function.update_self ..
  · rw [Function.update_of_ne hvv]
    cases hv' : own v' with
    | none => rfl
    | some b => exact Function.update_of_ne (hh.ne_of_ne hv hv' hvv) _ _

/-- `v`, which owns nothing, takes over the block of `o`. -/
theorem Owned.transfer [DecidableEq ι] (hh : Owned h own) {o : ι} (hv : own v = none) :
    Owned h (Function.update (Function.update own v (own o)) o none) := by
  have hcases : ∀ {v' a}, Function.update (Function.update own v (own o)) o none v' = some a →
      v' ≠ o ∧ ((v' = v ∧ own o = some a) ∨ (v' ≠ v ∧ own v' = some a)) := by
    intro v' a hv'
    by_cases ho : v' = o
    · rw [ho, Function.update_self] at hv'
      cases hv'
    · refine ⟨ho, ?_⟩
      rw [Function.update_of_ne ho] at hv'
      by_cases hvv : v' = v
      · rw [hvv, Function.update_self] at hv'
        exact .inl ⟨hvv, hv'⟩
      · rw [Function.update_of_ne hvv] at hv'
        exact .inr ⟨hvv, hv'⟩
  refine ⟨fun v' a hv' => ?_, fun v₁ v₂ a h₁ h₂ => ?_, fun a block ha => ?_⟩
  · obtain ⟨_, ⟨_, ho⟩ | ⟨_, hold⟩⟩ := hcases hv'
    · exact hh.live o a ho
    · exact hh.live v' a hold
  · obtain ⟨ho₁, ⟨hv₁, ho⟩ | ⟨_, hold₁⟩⟩ := hcases h₁
    · obtain ⟨ho₂, ⟨hv₂, _⟩ | ⟨_, hold₂⟩⟩ := hcases h₂
      · rw [hv₁, hv₂]
      · exact absurd (hh.unique v₂ o a hold₂ ho) ho₂
    · obtain ⟨ho₂, ⟨hv₂, ho⟩ | ⟨_, hold₂⟩⟩ := hcases h₂
      · exact absurd (hh.unique v₁ o a hold₁ ho) ho₁
      · exact hh.unique v₁ v₂ a hold₁ hold₂
  · obtain ⟨v', hv'⟩ := hh.covered a block ha
    have hvv : v' ≠ v := by
      rintro rfl
      rw [hv] at hv'
      cases hv'
    by_cases ho : v' = o
    · refine ⟨v, ?_⟩
      rw [Function.update_of_ne (by rintro rfl; exact hvv ho), Function.update_self, ← ho, hv']
    · exact ⟨v', by rw [Function.update_of_ne ho, Function.update_of_ne hvv, hv']⟩

/-- **No block is left** when no variable owns one. -/
theorem Owned.heap_empty (hh : Owned h own) (hown : ∀ v, own v = none) (a : Nat) :
    h a = none := by
  cases ha : h a with
  | none => rfl
  | some block =>
    obtain ⟨v, hv⟩ := hh.covered a block ha
    rw [hown v] at hv
    cases hv

end OwnedHeap
