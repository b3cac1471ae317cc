/-
Leeloo.Lib.IteratorProgram — algorithms over random access iterators.

An algorithm such as a sort moves iterators, compares them, and reads and
writes through them; what it does next may depend on all it has seen.
`Program` is such an algorithm and `Machine` is what it may run on. A
machine that simulates another operation by operation runs every program
as the other does (`Simulates.exec`).

On `listMachine` the iterators are positions in a list. `SortProgram` is a
program that sorts every list there.
-/
import Leeloo.Lib.UnstableSort
import Mathlib.Algebra.Ring.Nat

namespace IteratorProgram

/-- Stores `σ` with iterators `ι` to values `α`. Registers hold the
iterators; a read gives a value, and `none` stands for what is undefined. -/
structure Machine (σ ι α : Type*) where
  increment : ι → ι
  decrement : ι → ι
  advance : ι → BitVec 64 → Option ι
  equal : ι → ι → Bool
  distance : ι → ι → BitVec 64
  read : σ → ι → Option α
  write : σ → ι → α → Option σ
  /-- `*a = std::move(*b)`. -/
  move : σ → ι → ι → Option σ
  /-- `std::iter_swap(a, b)`. -/
  swap : σ → ι → ι → Option σ

/-- A program on the iterators in the registers. -/
inductive Program (α : Type*) where
  | done
  | copy (a b : Nat) (next : Program α)
  | increment (a : Nat) (next : Program α)
  | decrement (a : Nat) (next : Program α)
  | advance (a : Nat) (n : BitVec 64) (next : Program α)
  | equal (a b : Nat) (next : Bool → Program α)
  | distance (a b : Nat) (next : BitVec 64 → Program α)
  | read (a : Nat) (next : α → Program α)
  | write (a : Nat) (v : α) (next : Program α)
  | move (a b : Nat) (next : Program α)
  | swap (a b : Nat) (next : Program α)

namespace Program

variable {σ ι α : Type*}

/-- The store after a program. -/
def exec (M : Machine σ ι α) : Program α → (Nat → ι) → σ → Option σ
  | done, _, s => some s
  | copy a b next, it, s => next.exec M (Function.update it a (it b)) s
  | increment a next, it, s => next.exec M (Function.update it a (M.increment (it a))) s
  | decrement a next, it, s => next.exec M (Function.update it a (M.decrement (it a))) s
  | advance a n next, it, s =>
    (M.advance (it a) n).bind fun i => next.exec M (Function.update it a i) s
  | equal a b next, it, s => (next (M.equal (it a) (it b))).exec M it s
  | distance a b next, it, s => (next (M.distance (it a) (it b))).exec M it s
  | read a next, it, s => (M.read s (it a)).bind fun v => (next v).exec M it s
  | write a v next, it, s => (M.write s (it a) v).bind fun s => next.exec M it s
  | move a b next, it, s => (M.move s (it a) (it b)).bind fun s => next.exec M it s
  | swap a b next, it, s => (M.swap s (it a) (it b)).bind fun s => next.exec M it s

end Program

/-! ## Simulation -/

section Simulation

variable {σ σ' ι ι' α : Type*}

/-- What is defined on `M'` is defined on `M`, with related results. -/
structure Simulates (M : Machine σ ι α) (M' : Machine σ' ι' α) (S : σ → σ' → Prop)
    (I : ι → ι' → Prop) : Prop where
  increment : ∀ {i i'}, I i i' → I (M.increment i) (M'.increment i')
  decrement : ∀ {i i'}, I i i' → I (M.decrement i) (M'.decrement i')
  advance : ∀ {i i' n j'}, I i i' → M'.advance i' n = some j' →
    ∃ j, M.advance i n = some j ∧ I j j'
  equal : ∀ {i i' j j'}, I i i' → I j j' → M.equal i j = M'.equal i' j'
  distance : ∀ {i i' j j'}, I i i' → I j j' → M.distance i j = M'.distance i' j'
  read : ∀ {s s' i i' v}, S s s' → I i i' → M'.read s' i' = some v → M.read s i = some v
  write : ∀ {s s' i i' v t'}, S s s' → I i i' → M'.write s' i' v = some t' →
    ∃ t, M.write s i v = some t ∧ S t t'
  move : ∀ {s s' i i' j j' t'}, S s s' → I i i' → I j j' → M'.move s' i' j' = some t' →
    ∃ t, M.move s i j = some t ∧ S t t'
  swap : ∀ {s s' i i' j j' t'}, S s s' → I i i' → I j j' → M'.swap s' i' j' = some t' →
    ∃ t, M.swap s i j = some t ∧ S t t'

variable {M : Machine σ ι α} {M' : Machine σ' ι' α} {S : σ → σ' → Prop} {I : ι → ι' → Prop}

theorem related_update {it : Nat → ι} {it' : Nat → ι'} (hit : ∀ a, I (it a) (it' a)) {a : Nat}
    {i : ι} {i' : ι'} (hi : I i i') :
    ∀ b, I (Function.update it a i b) (Function.update it' a i' b) := by
  intro b
  by_cases hb : b = a
  · rw [hb, Function.update_self, Function.update_self]
    exact hi
  · rw [Function.update_of_ne hb, Function.update_of_ne hb]
    exact hit b

/-- **A simulation of the operations is one of every program.** -/
theorem Simulates.exec (h : Simulates M M' S I) (p : Program α) {it : Nat → ι} {it' : Nat → ι'}
    (hit : ∀ a, I (it a) (it' a)) {s : σ} {s' t' : σ'} (hs : S s s')
    (ht' : p.exec M' it' s' = some t') : ∃ t, p.exec M it s = some t ∧ S t t' := by
  induction p generalizing it it' s s' with
  | done =>
    cases ht'
    exact ⟨s, rfl, hs⟩
  | copy a b next ih => exact ih (related_update hit (hit b)) hs ht'
  | increment a next ih => exact ih (related_update hit (h.increment (hit a))) hs ht'
  | decrement a next ih => exact ih (related_update hit (h.decrement (hit a))) hs ht'
  | advance a n next ih =>
    obtain ⟨j', hj', ht'⟩ := Option.bind_eq_some_iff.mp ht'
    obtain ⟨j, hj, hrel⟩ := h.advance (hit a) hj'
    obtain ⟨t, ht, hst⟩ := ih (related_update hit hrel) hs ht'
    exact ⟨t, by rw [Program.exec, hj]; exact ht, hst⟩
  | equal a b next ih =>
    rw [Program.exec, h.equal (hit a) (hit b)]
    exact ih _ hit hs ht'
  | distance a b next ih =>
    rw [Program.exec, h.distance (hit a) (hit b)]
    exact ih _ hit hs ht'
  | read a next ih =>
    obtain ⟨v, hv, ht'⟩ := Option.bind_eq_some_iff.mp ht'
    obtain ⟨t, ht, hst⟩ := ih v hit hs ht'
    exact ⟨t, by rw [Program.exec, h.read hs (hit a) hv]; exact ht, hst⟩
  | write a v next ih =>
    obtain ⟨u', hu', ht'⟩ := Option.bind_eq_some_iff.mp ht'
    obtain ⟨u, hu, hrel⟩ := h.write hs (hit a) hu'
    obtain ⟨t, ht, hst⟩ := ih hit hrel ht'
    exact ⟨t, by rw [Program.exec, hu]; exact ht, hst⟩
  | move a b next ih =>
    obtain ⟨u', hu', ht'⟩ := Option.bind_eq_some_iff.mp ht'
    obtain ⟨u, hu, hrel⟩ := h.move hs (hit a) (hit b) hu'
    obtain ⟨t, ht, hst⟩ := ih hit hrel ht'
    exact ⟨t, by rw [Program.exec, hu]; exact ht, hst⟩
  | swap a b next ih =>
    obtain ⟨u', hu', ht'⟩ := Option.bind_eq_some_iff.mp ht'
    obtain ⟨u, hu, hrel⟩ := h.swap hs (hit a) (hit b) hu'
    obtain ⟨t, ht, hst⟩ := ih hit hrel ht'
    exact ⟨t, by rw [Program.exec, hu]; exact ht, hst⟩

end Simulation

/-! ## A list -/

section ListMachine

variable {α : Type*}

/-- The value at a position. -/
def readList (l : List α) (i : Int) : Option α := if i < 0 then none else l[i.toNat]?

/-- A value put at a position that is there. -/
def writeList (l : List α) (i : Int) (v : α) : Option (List α) :=
  (readList l i).map fun _ => l.set i.toNat v

/-- A list with its positions as iterators; a distance has 64 bits. -/
def listMachine (α : Type*) : Machine (List α) Int α where
  increment i := i + 1
  decrement i := i - 1
  advance i n := if n = BitVec.intMin 64 then none else some (i + n.toInt)
  equal i j := decide (i = j)
  distance i j := BitVec.ofInt 64 (j - i)
  read := readList
  write := writeList
  move l i j := (readList l j).bind fun v => writeList l i v
  swap l i j :=
    (readList l i).bind fun v => (readList l j).bind fun u =>
      (writeList l i u).bind fun l => writeList l j v

theorem readList_eq_some {l : List α} {i : Int} {v : α} :
    readList l i = some v ↔ 0 ≤ i ∧ l[i.toNat]? = some v := by
  unfold readList
  by_cases hi : i < 0
  · rw [if_pos hi]
    exact ⟨by nofun, fun h => absurd hi (by omega)⟩
  · rw [if_neg hi]
    exact ⟨fun h => ⟨by omega, h⟩, fun h => h.2⟩

theorem readList_natCast (l : List α) (n : Nat) : readList l n = l[n]? := by
  unfold readList
  rw [if_neg (by omega), Int.toNat_natCast]

theorem writeList_eq_some {l l' : List α} {i : Int} {v : α} :
    writeList l i v = some l' ↔ (0 ≤ i ∧ i.toNat < l.length) ∧ l' = l.set i.toNat v := by
  unfold writeList
  rw [Option.map_eq_some_iff]
  constructor
  · rintro ⟨u, hu, rfl⟩
    obtain ⟨hi, hu⟩ := readList_eq_some.mp hu
    exact ⟨⟨hi, (List.getElem?_eq_some_iff.mp hu).1⟩, rfl⟩
  · rintro ⟨⟨hi, hlt⟩, rfl⟩
    exact ⟨l[i.toNat], readList_eq_some.mpr ⟨hi, List.getElem?_eq_getElem hlt⟩, rfl⟩

/-- The registers at the start of an algorithm on `[first, last)`: register
1 is the end. -/
def between {ι : Type*} (first last : ι) : Nat → ι := fun a => if a = 1 then last else first

/-- An algorithm that sorts by a key every list that a distance fits. -/
structure SortProgram {α β : Type} [LinearOrder β] (key : α → β) where
  program : Program α
  sorts : ∀ l : List α, l.length < 2 ^ 63 →
    ∃ l', program.exec (listMachine α) (between 0 l.length) l = some l' ∧ l'.Perm l ∧
      l'.Pairwise fun a b => key a ≤ key b

end ListMachine

/-! ## A sort through a buffer -/

section Buffered

variable {α : Type}

namespace Program

/-- Reads of `n` values from register 0 on. -/
def load : Nat → (List α → Program α) → Program α
  | 0, next => next []
  | n + 1, next => .read 0 fun v => .increment 0 (load n fun vs => next (v :: vs))

/-- Writes of values from register 0 on. -/
def store : List α → Program α
  | [] => .done
  | v :: vs => .write 0 v (.increment 0 (store vs))

/-- All values read, and what `f` makes of them written back. -/
def buffered (f : List α → List α) : Program α :=
  .copy 2 0 (.distance 0 1 fun n => load n.toNat fun vs => .copy 0 2 (store (f vs)))

theorem exec_load (front vs : List α) (next : List α → Program α) {it : Nat → Int}
    (hit : it 0 = front.length) :
    (load vs.length next).exec (listMachine α) it (front ++ vs) =
      (next vs).exec (listMachine α) (Function.update it 0 (front.length + vs.length))
        (front ++ vs) := by
  induction vs generalizing front next it with
  | nil =>
    have hsame : Function.update it 0 ((front.length : Int) + ([] : List α).length) = it := by
      rw [List.length_nil, Int.natCast_zero, Int.add_zero, ← hit, Function.update_eq_self]
    rw [hsame]
    rfl
  | cons v vs ih =>
    have hread : (listMachine α).read (front ++ v :: vs) (it 0) = some v := by
      show readList _ (it 0) = _
      rw [hit, readList_natCast, List.getElem?_append_right (le_refl _), Nat.sub_self]
      rfl
    have hfront : front ++ v :: vs = front ++ [v] ++ vs := by simp
    have hnext : Function.update it 0 ((listMachine α).increment (it 0)) 0 =
        (front ++ [v]).length := by
      rw [Function.update_self, List.length_append]
      show it 0 + 1 = _
      rw [hit]
      rfl
    rw [List.length_cons, load, exec, hread, Option.bind_some, exec, hfront,
      ih (front ++ [v]) _ hnext, Function.update_idem, List.length_append]
    have hend : ((front.length + [v].length : Nat) : Int) + vs.length =
        front.length + (vs.length + 1 : Nat) := by
      rw [List.length_singleton]
      omega
    rw [hend]

theorem exec_store (front : List α) {vs old : List α} (hlen : vs.length = old.length)
    {it : Nat → Int} (hit : it 0 = front.length) :
    (store vs).exec (listMachine α) it (front ++ old) = some (front ++ vs) := by
  induction vs generalizing front old it with
  | nil =>
    rw [List.eq_nil_of_length_eq_zero hlen.symm]
    rfl
  | cons v vs ih =>
    obtain ⟨u, old, rfl⟩ := List.exists_cons_of_length_eq_add_one hlen.symm
    have hwrite : (listMachine α).write (front ++ u :: old) (it 0) v =
        some (front ++ [v] ++ old) := by
      refine writeList_eq_some.mpr ⟨⟨by omega, ?_⟩, ?_⟩
      · rw [hit, Int.toNat_natCast, List.length_append, List.length_cons]
        omega
      · rw [hit, Int.toNat_natCast, List.set_append_right _ _ (le_refl _), Nat.sub_self]
        simp
    have hnext : Function.update it 0 ((listMachine α).increment (it 0)) 0 =
        (front ++ [v]).length := by
      rw [Function.update_self, List.length_append]
      show it 0 + 1 = _
      rw [hit]
      rfl
    rw [store, exec, hwrite, Option.bind_some, exec,
      ih (front ++ [v]) (Nat.succ.inj hlen) hnext, List.append_assoc]
    rfl

theorem exec_buffered {f : List α → List α} {l : List α} (hlen : (f l).length = l.length)
    (hl : l.length < 2 ^ 63) :
    (buffered f).exec (listMachine α) (between 0 l.length) l = some (f l) := by
  have hdistance : ((listMachine α).distance (0 : Int) l.length).toNat = l.length := by
    show (BitVec.ofInt 64 ((l.length : Int) - 0)).toNat = _
    rw [Int.sub_zero, BitVec.ofInt_natCast, BitVec.toNat_ofNat]
    omega
  have hregs : ∀ it : Nat → Int, it 0 = 0 →
      (load l.length fun vs => .copy 0 2 (store (f vs))).exec (listMachine α) it l =
        (Program.copy 0 2 (store (f l))).exec (listMachine α)
          (Function.update it 0 l.length) l := by
    intro it hit
    have hfront : it 0 = (([] : List α).length : Int) := hit
    have hload := exec_load [] l (fun vs => .copy 0 2 (store (f vs))) hfront
    rwa [List.nil_append, List.length_nil, Int.natCast_zero, Int.zero_add] at hload
  unfold buffered
  rw [exec, exec]
  have hends : (listMachine α).distance
      (Function.update (between 0 (l.length : Int)) 2 (between 0 (l.length : Int) 0) 0)
      (Function.update (between 0 (l.length : Int)) 2 (between 0 (l.length : Int) 0) 1) =
      (listMachine α).distance (0 : Int) l.length := rfl
  have hfirst : Function.update (between 0 (l.length : Int)) 2 (between 0 (l.length : Int) 0) 0 =
      0 := rfl
  rw [hends, hdistance, hregs _ hfirst, exec]
  exact exec_store [] hlen rfl

end Program

namespace SortProgram

variable {β : Type} [LinearOrder β] {key : α → β}

/-- What a program makes of a list. -/
def toSort (p : SortProgram key) : UnstableSort key where
  run l :=
    if l.length < 2 ^ 63 then
      (p.program.exec (listMachine α) (between 0 l.length) l).getD []
    else (UnstableSort.insertion key).run l
  perm l := by
    by_cases hl : l.length < 2 ^ 63
    · obtain ⟨l', hrun, hperm, _⟩ := p.sorts l hl
      rw [if_pos hl, hrun]
      exact hperm
    · rw [if_neg hl]
      exact (UnstableSort.insertion key).perm l
  sorted l := by
    by_cases hl : l.length < 2 ^ 63
    · obtain ⟨l', hrun, _, hsorted⟩ := p.sorts l hl
      rw [if_pos hl, hrun]
      exact hsorted
    · rw [if_neg hl]
      exact (UnstableSort.insertion key).sorted l

theorem exec_eq (p : SortProgram key) {l : List α} (hl : l.length < 2 ^ 63) :
    p.program.exec (listMachine α) (between 0 l.length) l = some (p.toSort.run l) := by
  obtain ⟨l', hrun, _⟩ := p.sorts l hl
  unfold toSort
  simp only [if_pos hl, hrun, Option.getD_some]

end SortProgram

/-- Insertion sort of a buffer. -/
def SortProgram.insertion {β : Type} [LinearOrder β] (key : α → β) : SortProgram key where
  program := Program.buffered (UnstableSort.insertion key).run
  sorts l hl :=
    ⟨_, Program.exec_buffered ((UnstableSort.insertion key).length_run l) hl,
      (UnstableSort.insertion key).perm l, (UnstableSort.insertion key).sorted l⟩

end Buffered

end IteratorProgram
