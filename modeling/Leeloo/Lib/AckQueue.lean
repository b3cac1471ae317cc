/-
Leeloo.Lib.AckQueue — items handed out in order, with acknowledgements and
restarts.

A session hands out the items that were not acknowledged when it began. It
may be left at any place. The next one begins with the acknowledgements
there are, or with those of the last checkpoint, and what came after it is
lost.

Whatever the stops, no session hands out an item twice, or one that was
acknowledged when it began; and when a session gets to its end, every item
has been handed out by it or before it (`Inv.all_given`).
-/
import Mathlib.Data.Set.Insert
import Mathlib.Order.Defs.PartialOrder

namespace AckQueue

variable {κ : Type} [Preorder κ] {items : Set κ}

/-- The items ahead in the session and those it gave, what the sessions
before it gave, and the items acknowledged: now, at the checkpoint, and when
the session began. -/
structure State (κ : Type) where
  ahead : List κ
  given : List κ
  earlier : List κ
  acked : Set κ
  saved : Set κ
  base : Set κ

inductive Step (items : Set κ) : State κ → State κ → Prop
  | give {s : State κ} {k : κ} {rest : List κ} (hahead : s.ahead = k :: rest) :
      Step items s { s with ahead := rest, given := s.given ++ [k] }
  | ack {s : State κ} {k : κ} (hk : k ∈ s.earlier ++ s.given) :
      Step items s { s with acked := insert k s.acked }
  | save {s : State κ} : Step items s { s with saved := s.acked }
  | restart {s : State κ} {acked : Set κ} {ahead : List κ}
      (hacked : acked = s.acked ∨ acked = s.saved) (hasc : ahead.Pairwise (· < ·))
      (hahead : ∀ k, k ∈ ahead ↔ k ∈ items ∧ k ∉ acked) :
      Step items s { s with
        ahead, given := [], earlier := s.earlier ++ s.given, acked, base := acked }

/-- What every run keeps. -/
structure Inv (items : Set κ) (s : State κ) : Prop where
  ascending : (s.given ++ s.ahead).Pairwise (· < ·)
  session : ∀ k, k ∈ s.given ++ s.ahead ↔ k ∈ items ∧ k ∉ s.base
  past : ∀ k ∈ s.earlier, k ∈ items
  acked : ∀ k ∈ s.acked, k ∈ s.earlier ++ s.given
  saved : ∀ k ∈ s.saved, k ∈ s.earlier ++ s.given
  base : ∀ k ∈ s.base, k ∈ s.earlier
  kept : ∀ k ∈ s.base, k ∈ s.acked

namespace Inv

variable {s s' : State κ}

/-- Only items are handed out. -/
theorem mem_items (h : Inv items s) {k : κ} (hk : k ∈ s.earlier ++ s.given) : k ∈ items := by
  cases List.mem_append.mp hk with
  | inl hk => exact h.past k hk
  | inr hk => exact ((h.session k).mp (List.mem_append_left _ hk)).1

/-- **One step.** -/
theorem step (h : Inv items s) (hstep : Step items s s') : Inv items s' := by
  cases hstep with
  | give hahead =>
    rename_i k rest
    have hsplit : (s.given ++ [k]) ++ rest = s.given ++ s.ahead := by
      rw [hahead, List.append_assoc, List.singleton_append]
    have hmore : ∀ x, x ∈ s.earlier ++ s.given → x ∈ s.earlier ++ (s.given ++ [k]) := by
      intro x hx
      rw [← List.append_assoc]
      exact List.mem_append_left _ hx
    refine ⟨?_, ?_, h.past, ?_, ?_, h.base, h.kept⟩
    · simp only [hsplit]
      exact h.ascending
    · simp only [hsplit]
      exact h.session
    · exact fun x hx => hmore x (h.acked x hx)
    · exact fun x hx => hmore x (h.saved x hx)
  | ack hk =>
    refine ⟨h.ascending, h.session, h.past, ?_, h.saved, h.base, ?_⟩
    · intro x hx
      cases hx with
      | inl heq => exact heq ▸ hk
      | inr hx => exact h.acked x hx
    · exact fun x hx => Set.mem_insert_of_mem _ (h.kept x hx)
  | save => exact ⟨h.ascending, h.session, h.past, h.acked, h.acked, h.base, h.kept⟩
  | restart hacked hasc hahead =>
    have hknown : ∀ k, k ∈ s.acked ∨ k ∈ s.saved → k ∈ s.earlier ++ s.given := fun k hk =>
      hk.elim (h.acked k) (h.saved k)
    refine ⟨?_, ?_, ?_, ?_, ?_, ?_, fun _ hk => hk⟩
    · simpa using hasc
    · simpa using hahead
    · exact fun k hk => h.mem_items hk
    · intro k hk
      rw [List.append_nil]
      cases hacked with
      | inl heq => exact h.acked k (heq ▸ hk)
      | inr heq => exact h.saved k (heq ▸ hk)
    · intro k hk
      rw [List.append_nil]
      exact h.saved k hk
    · intro k hk
      cases hacked with
      | inl heq => exact h.acked k (heq ▸ hk)
      | inr heq => exact h.saved k (heq ▸ hk)

/-- **What is ahead** was not handed out in this session, and not
acknowledged when it began. -/
theorem mem_ahead_iff (h : Inv items s) (k : κ) :
    k ∈ s.ahead ↔ k ∈ items ∧ k ∉ s.base ∧ k ∉ s.given := by
  constructor
  · intro hk
    obtain ⟨hitem, hbase⟩ := (h.session k).mp (List.mem_append_right _ hk)
    refine ⟨hitem, hbase, fun hgiven => ?_⟩
    exact lt_irrefl k ((List.pairwise_append.mp h.ascending).2.2 k hgiven k hk)
  · rintro ⟨hitem, hbase, hgiven⟩
    have hmem := (h.session k).mpr ⟨hitem, hbase⟩
    exact (List.mem_append.mp hmem).resolve_left hgiven

/-- **At the end of a session nothing is lost.** -/
theorem all_given (h : Inv items s) (hend : s.ahead = []) {k : κ} (hk : k ∈ items) :
    k ∈ s.earlier ++ s.given := by
  by_cases hbase : k ∈ s.base
  · exact List.mem_append_left _ (h.base k hbase)
  · have hmem := (h.session k).mpr ⟨hk, hbase⟩
    rw [hend, List.append_nil] at hmem
    exact List.mem_append_right _ hmem

/-- A session that acknowledges what it hands out is the last one. -/
theorem all_acked (h : Inv items s) (hend : s.ahead = []) (hgiven : ∀ k ∈ s.given, k ∈ s.acked)
    {k : κ} (hk : k ∈ items) : k ∈ s.acked := by
  by_cases hbase : k ∈ s.base
  · exact h.kept k hbase
  · have hmem := (h.session k).mpr ⟨hk, hbase⟩
    rw [hend, List.append_nil] at hmem
    exact hgiven k hmem

end Inv

/-- A first session, with all items ahead. -/
theorem inv_start {ahead : List κ} (hasc : ahead.Pairwise (· < ·))
    (hahead : ∀ k, k ∈ ahead ↔ k ∈ items) :
    Inv items ⟨ahead, [], [], ∅, ∅, ∅⟩ :=
  ⟨hasc, fun k => (hahead k).trans (by simp), fun _ hk => (List.not_mem_nil hk).elim,
    fun _ hk => hk.elim, fun _ hk => hk.elim, fun _ hk => hk.elim, fun _ hk => hk.elim⟩

end AckQueue
