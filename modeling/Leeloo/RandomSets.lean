/-
Leeloo.RandomSets — the two `random_sets` of `list_intervals.h`.

The generator is the template parameter `UPRNG` of the source (`Uprng`),
and so is the size function. `fset` is called with the buffers in turn;
the functions here return the list of those buffers. `none` is a failed
lookup, a loop that does not end, or an access that is undefined.

Both loops read the generator along one sequence of draws (`fill_later`),
so the concatenated buffers are the values of the list at the ranks drawn.
The buffer of the second `random_sets` is as large as its caller asks, and
its size in bytes wraps: it has room for the sizes that the walk chooses
exactly when `RoomFor` holds (`randomSets_partition_iff`).
-/
import Leeloo.Uni
import Leeloo.Values

namespace Leeloo

open HalfOpen Leeloo.Interval ListIntervals

variable {w s : Nat}

/-- The template parameter `UPRNG`: `init(max, rand_engine)` with the engine
as a seed, `operator()`, `get_step` and `max`. -/
structure Uprng (Seed : Type) (w : Nat) where
  State : Type
  init : Seed → BitVec w → State
  next : State → BitVec w × State
  getStep : State → BitVec w → BitVec w
  max : State → BitVec w

namespace Uprng

variable {Seed : Type} (u : Uprng Seed w)

/-- `n` calls of `operator()`. -/
def draws : Nat → u.State → List (BitVec w) × u.State
  | 0, st => ([], st)
  | n + 1, st =>
    let (v, st) := u.next st
    let (vs, st) := draws n st
    (v :: vs, st)

/-- The first `max` draws after `init(max)` are the indices below `max`,
each once. -/
def Enumerates (seed : Seed) (max : BitVec w) : Prop :=
  ((u.draws max.toNat (u.init seed max)).1.map BitVec.toNat).Perm (List.range max.toNat)

end Uprng

namespace ListIntervals

variable {Seed : Type}

/-- The loop `interval_buf[j] = at_cached(uprng())`, `n` times. -/
def fillBuffer (l : ListIntervals w w) (u : Uprng Seed w) :
    Nat → u.State → Option (List (BitVec w) × u.State)
  | 0, st => some ([], st)
  | n + 1, st => do
    let (r, st) := u.next st
    let v ← l.atCached r
    let (vs, st) ← fillBuffer l u n st
    some (v :: vs, st)

/-- The loop over the full buffers. -/
def fullBuffers (l : ListIntervals w w) (u : Uprng Seed w) (sizeDiv sizeAllFull : BitVec w) :
    Nat → BitVec w → u.State → Option (List (List (BitVec w)) × u.State)
  | 0, _, _ => none
  | fuel + 1, i, st =>
    if i < sizeAllFull then do
      let (buf, st) ← l.fillBuffer u sizeDiv.toNat st
      let (bufs, st) ← fullBuffers l u sizeDiv sizeAllFull fuel (i + sizeDiv) st
      some (buf :: bufs, st)
    else some ([], st)

/-- `random_sets(size_div, fset, rand_eng)`. The buffer has at most
`2 ^ w - 1` places, which `posix_memalign` serves. -/
def randomSets (l : ListIntervals w w) (u : Uprng Seed w) (seed : Seed) (sizeDiv : BitVec w) :
    Option (List (List (BitVec w))) := do
  let sizeDiv := if sizeDiv ≤ 0 then 1 else sizeDiv
  let sizeAll := l.size
  let st := u.init seed sizeAll
  let sizeAllFull := (sizeAll / sizeDiv) * sizeDiv
  let (bufs, st) ← l.fullBuffers u sizeDiv sizeAllFull (sizeAllFull.toNat + 1) 0 st
  let rem := sizeAll - sizeAllFull
  if 0 < rem then
    let (buf, _) ← l.fillBuffer u (sizeAll.toNat - sizeAllFull.toNat) st
    some (bufs ++ [buf])
  else some bufs

/-- `posix_memalign`: the bytes of the buffer. No object is larger than
`PTRDIFF_MAX`, and a request for more fails and leaves the pointer as it
was; the memory for any other request is there. -/
def posixMemalign (bytes : BitVec 64) : Option Nat :=
  if bytes.toNat < 2 ^ 63 then some bytes.toNat else none

/-- The loop of the variable-size `random_sets`, with the places of
`interval_buf`. -/
def sizedBuffers (l : ListIntervals w w) (u : Uprng Seed w) (fsizeDiv : Nat → BitVec 64)
    (sizeMax : BitVec 64) (room : Nat) :
    Nat → Nat → BitVec w → u.State → Option (List (List (BitVec w)))
  | 0, _, _, _ => none
  | fuel + 1, i, sizeRem, st =>
    if 0 < sizeRem then
      let size := min (fsizeDiv i).toNat sizeRem.toNat
      if sizeMax.toNat < size ∨ size = 0 then some []
      -- the loop writes behind the buffer
      else if room < size then none
      else do
        let (buf, st) ← l.fillBuffer u size st
        let bufs ← sizedBuffers l u fsizeDiv sizeMax room fuel (i + 1)
          (sizeRem - BitVec.ofNat w size) st
        some (buf :: bufs)
    else some []

/-- `random_sets(fsize_div, size_max, fset, rand_eng)`. The request of
`sizeof(base_type)*size_max` bytes is a 64-bit product; when it fails,
`interval_buf` is read uninitialised. -/
def randomSetsSized (l : ListIntervals w w) (u : Uprng Seed w) (seed : Seed)
    (fsizeDiv : Nat → BitVec 64) (sizeMax : BitVec 64) : Option (List (List (BitVec w))) :=
  if sizeMax = 0 then some []
  else do
    let bytes ← posixMemalign (BitVec.ofNat 64 (w / 8) * sizeMax)
    l.sizedBuffers u fsizeDiv sizeMax (bytes / (w / 8)) (l.size.toNat + 1) 0 l.size
      (u.init seed l.size)

end ListIntervals

/-! ## The sequence of draws -/

namespace Uprng

variable {Seed : Type} {u : Uprng Seed w}

theorem length_draws (n : Nat) (st : u.State) : (u.draws n st).1.length = n := by
  induction n generalizing st with
  | zero => rfl
  | succ n ih => simp [draws, ih]

theorem draws_succ (n : Nat) (st : u.State) :
    u.draws (n + 1) st =
      ((u.next st).1 :: (u.draws n (u.next st).2).1, (u.draws n (u.next st).2).2) := rfl

/-- Draws in two goes are draws in one. -/
theorem draws_add (m n : Nat) (st : u.State) :
    u.draws (m + n) st =
      ((u.draws m st).1 ++ (u.draws n (u.draws m st).2).1, (u.draws n (u.draws m st).2).2) := by
  induction m generalizing st with
  | zero => simp [draws]
  | succ m ih =>
    rw [Nat.succ_add]
    simp [draws, ih]

/-- The draws from a later state are a part of all the draws. -/
theorem draws_later {n k m : Nat} (h : k + m ≤ n) (st : u.State) :
    (u.draws m (u.draws k st).2).1 = ((u.draws n st).1.drop k).take m := by
  obtain ⟨r, rfl⟩ := Nat.exists_eq_add_of_le h
  have hk := length_draws k st
  have hm := length_draws m (u.draws k st).2
  rw [Nat.add_assoc, draws_add k, draws_add m, List.drop_left' hk, List.take_left' hm]

theorem draws_state (k m : Nat) (st : u.State) :
    (u.draws m (u.draws k st).2).2 = (u.draws (k + m) st).2 := by
  rw [draws_add k m]

end Uprng

/-! ## Filling a buffer -/

namespace Uprng

variable {Seed : Type} {u : Uprng Seed w}

/-- `n` lookups of the ranks drawn, one after the other. -/
def fill (u : Uprng Seed w) (lookup : BitVec w → Option (BitVec w)) :
    Nat → u.State → Option (List (BitVec w) × u.State)
  | 0, st => some ([], st)
  | n + 1, st => do
    let (r, st) := u.next st
    let v ← lookup r
    let (vs, st) ← fill u lookup n st
    some (v :: vs, st)

/-- A fill gives the values of the ranks drawn. -/
theorem fill_eq {lookup : BitVec w → Option (BitVec w)} {value : BitVec w → BitVec w} (n : Nat)
    (st : u.State) (hr : ∀ r ∈ (u.draws n st).1, lookup r = some (value r)) :
    u.fill lookup n st = some ((u.draws n st).1.map value, (u.draws n st).2) := by
  induction n generalizing st with
  | zero => rfl
  | succ n ih =>
    have hfirst := hr (u.next st).1 (by simp [draws])
    have hrest := ih (u.next st).2 fun r hmem => hr r (by simp [draws, hmem])
    unfold fill
    simp only [hfirst, Option.bind_eq_bind, Option.bind_some, hrest]
    simp [draws]

/-- A fill after `k` draws gives a part of the values of all the draws. -/
theorem fill_later {lookup : BitVec w → Option (BitVec w)} {value : BitVec w → BitVec w}
    {n k m : Nat} {st : u.State} (hr : ∀ r ∈ (u.draws n st).1, lookup r = some (value r))
    (hkm : k + m ≤ n) :
    u.fill lookup m (u.draws k st).2 =
      some ((((u.draws n st).1.drop k).take m).map value, (u.draws (k + m) st).2) := by
  have hdraws := draws_later hkm st
  rw [← hdraws, ← draws_state]
  apply fill_eq
  intro r hmem
  rw [hdraws] at hmem
  exact hr r (List.mem_of_mem_drop (List.mem_of_mem_take hmem))

/-- Each value is one call of the generator. -/
theorem length_of_fill {lookup : BitVec w → Option (BitVec w)} {n : Nat} {st st' : u.State}
    {buf : List (BitVec w)} (h : u.fill lookup n st = some (buf, st')) : buf.length = n := by
  induction n generalizing st buf with
  | zero =>
    cases h
    rfl
  | succ n ih =>
    unfold fill at h
    simp only [Option.bind_eq_bind, Option.bind_eq_some_iff] at h
    obtain ⟨v, _, rest, hrest, heq⟩ := h
    cases heq
    rw [List.length_cons, ih hrest]

end Uprng

/-- The values of a list by rank, over the ranks below its length. -/
theorem map_range_getD {vs : List (BitVec w)} {n : Nat} (hn : n = vs.length) :
    (List.range n).map (fun k => vs[k]?.getD 0) = vs := by
  subst hn
  apply List.ext_getElem
  · simp
  · intro k hk hk'
    simp [List.getElem?_eq_getElem hk']

/-- Draws that enumerate the ranks of a list list its values. -/
theorem Uprng.Enumerates.map_perm {Seed : Type} {u : Uprng Seed w} {seed : Seed} {max : BitVec w}
    (hu : u.Enumerates seed max) {vs : List (BitVec w)} (hvs : max.toNat = vs.length) :
    ((u.draws max.toNat (u.init seed max)).1.map fun r => vs[r.toNat]?.getD 0).Perm vs := by
  have hmap : (u.draws max.toNat (u.init seed max)).1.map (fun r => vs[r.toNat]?.getD 0) =
      ((u.draws max.toNat (u.init seed max)).1.map BitVec.toNat).map fun k => vs[k]?.getD 0 := by
    rw [List.map_map]
    rfl
  rw [hmap]
  exact (hu.map _).trans (by rw [map_range_getD hvs])

/-- The ranks drawn are below the number enumerated. -/
theorem Uprng.Enumerates.lt_of_mem {Seed : Type} {u : Uprng Seed w} {seed : Seed} {max : BitVec w}
    (hu : u.Enumerates seed max) {r : BitVec w}
    (hr : r ∈ (u.draws max.toNat (u.init seed max)).1) : r.toNat < max.toNat :=
  List.mem_range.mp (hu.mem_iff.mp (List.mem_map_of_mem hr))

section Draws

variable {Seed : Type} {u : Uprng Seed w}

/-- The value of rank `r`. -/
def valueAt (l : ListIntervals w w) (r : BitVec w) : BitVec w :=
  (values l.intervals)[r.toNat]?.getD 0

/-- What the lookups of a list need: proper, ordered intervals with their
cache. -/
structure Served (l : ListIntervals w w) : Prop where
  width : w ≤ 63
  proper : AllProper l.intervals
  separated : Separated (· ≤ ·) l.intervals
  cached : Cached l

theorem Served.atCached {l : ListIntervals w w} (h : Served l) {r : BitVec w}
    (hr : r.toNat < (values l.intervals).length) : l.atCached r = some (valueAt l r) := by
  rw [h.cached.atCached_values (le_refl w) h.proper h.separated h.width hr, valueAt,
    List.getElem?_eq_getElem hr]
  rfl

theorem Served.toNat_size {l : ListIntervals w w} (h : Served l) :
    l.size.toNat = (values l.intervals).length := by
  rw [length_values]
  exact Leeloo.toNat_size (widthSum_lt h.proper h.separated)

theorem fillBuffer_eq_fill (l : ListIntervals w w) (n : Nat) (st : u.State) :
    l.fillBuffer u n st = u.fill l.atCached n st := by
  induction n generalizing st with
  | zero => rfl
  | succ n ih =>
    unfold fillBuffer Uprng.fill
    simp only [ih]

/-- The values of the ranks drawn from position `k` on. -/
def drawnValues (l : ListIntervals w w) (u : Uprng Seed w) (seed : Seed) (k m : Nat) :
    List (BitVec w) :=
  (((u.draws l.size.toNat (u.init seed l.size)).1.drop k).take m).map (valueAt l)

/-- The state of the generator after `k` draws. -/
def drawnState (l : ListIntervals w w) (u : Uprng Seed w) (seed : Seed) (k : Nat) : u.State :=
  (u.draws k (u.init seed l.size)).2

variable {l : ListIntervals w w} {seed : Seed}

theorem drawnValues_append (l : ListIntervals w w) (u : Uprng Seed w) (seed : Seed)
    (k m n : Nat) :
    drawnValues l u seed k m ++ drawnValues l u seed (k + m) n =
      drawnValues l u seed k (m + n) := by
  unfold drawnValues
  rw [← List.map_append, ← List.drop_drop, ← List.take_add]

theorem length_drawnValues (u : Uprng Seed w) (seed : Seed) {k m : Nat} (h : k + m ≤ l.size.toNat) :
    (drawnValues l u seed k m).length = m := by
  unfold drawnValues
  rw [List.length_map, List.length_take, List.length_drop, Uprng.length_draws]
  omega

/-- **One buffer.** From position `k`, `m` draws fill the values of the
ranks drawn there and move the generator to position `k + m`. -/
theorem fillBuffer_drawn (h : Served l) (hu : u.Enumerates seed l.size) {k m : Nat}
    (hkm : k + m ≤ l.size.toNat) :
    l.fillBuffer u m (drawnState l u seed k) =
      some (drawnValues l u seed k m, drawnState l u seed (k + m)) := by
  rw [fillBuffer_eq_fill]
  refine Uprng.fill_later (fun r hr => h.atCached ?_) hkm
  rw [← h.toNat_size]
  exact hu.lt_of_mem hr

/-- The values are those of the ranks below `size`. -/
theorem map_range_values (h : Served l) :
    (List.range l.size.toNat).map (fun k => (values l.intervals)[k]?.getD 0) =
      values l.intervals :=
  map_range_getD h.toNat_size

/-- All the draws together list the values of the list. -/
theorem drawnValues_perm (h : Served l) (hu : u.Enumerates seed l.size) :
    (drawnValues l u seed 0 l.size.toNat).Perm (values l.intervals) := by
  have hlen := Uprng.length_draws l.size.toNat (u.init seed l.size)
  unfold drawnValues
  rw [List.drop_zero, List.take_of_length_le (by omega)]
  exact hu.map_perm h.toNat_size

/-- So they hold every value once. -/
theorem drawnValues_all (h : Served l) (hu : u.Enumerates seed l.size) :
    (drawnValues l u seed 0 l.size.toNat).Nodup ∧
      ∀ v, v ∈ drawnValues l u seed 0 l.size.toNat ↔ v ∈ covers l.intervals := by
  have hperm := drawnValues_perm h hu
  refine ⟨hperm.nodup_iff.mpr (values_nodup h.proper h.separated), fun v => ?_⟩
  rw [hperm.mem_iff, mem_values_iff h.proper]

/-! ## Buffers of one size -/

/-- From full buffer number `k` on: the buffers left, all full. -/
theorem fullBuffers_spec (h : Served l) (hu : u.Enumerates seed l.size) {div full : BitVec w}
    {q : Nat} (hfull : full.toNat = q * div.toNat)
    (hle : full.toNat ≤ l.size.toNat) (fuel k : Nat) (i : BitVec w) (hi : i.toNat = k * div.toNat)
    (hk : k ≤ q) (hfuel : q - k < fuel) :
    ∃ bufs, l.fullBuffers u div full fuel i (drawnState l u seed (k * div.toNat)) =
        some (bufs, drawnState l u seed full.toNat) ∧
      bufs.flatten = drawnValues l u seed (k * div.toNat) (full.toNat - k * div.toNat) ∧
      ∀ b ∈ bufs, b.length = div.toNat := by
  induction fuel generalizing k i with
  | zero => omega
  | succ fuel ih =>
    unfold fullBuffers
    by_cases hlt : i < full
    · obtain ⟨hkq, hstep, hi'⟩ := Word.toNat_add_multiple hi hfull hlt
      have hsucc : (k + 1) * div.toNat = k * div.toNat + div.toNat := Nat.succ_mul _ _
      obtain ⟨bufs, hrun, hflat, hlen⟩ := ih (k + 1) (i + div) hi' hkq (by omega)
      have hbuf := fillBuffer_drawn h hu (show k * div.toNat + div.toNat ≤ l.size.toNat by omega)
      rw [← hsucc] at hbuf
      rw [if_pos hlt]
      simp only [hbuf, Option.bind_eq_bind, Option.bind_some, hrun]
      refine ⟨_, rfl, ?_, ?_⟩
      · rw [List.flatten_cons, hflat, hsucc, drawnValues_append]
        congr 1
        omega
      · intro b hb
        cases hb with
        | head => exact length_drawnValues _ _ (by omega)
        | tail _ hb => exact hlen b hb
    · rw [if_neg hlt]
      have hge : full.toNat ≤ i.toNat := not_lt.mp hlt
      have hmul : k * div.toNat ≤ q * div.toNat := Nat.mul_le_mul_right _ hk
      have heq : k * div.toNat = full.toNat := by omega
      refine ⟨[], by rw [heq], ?_, fun b hb => (List.not_mem_nil hb).elim⟩
      rw [heq, Nat.sub_self]
      simp [drawnValues]

/-- The last buffer takes what the full ones leave. -/
theorem randomSets_spec (h : Served l) (hu : u.Enumerates seed l.size) {sizeDiv div : BitVec w}
    (hdiv : (if sizeDiv ≤ 0 then 1 else sizeDiv) = div) (hpos : 0 < div.toNat) :
    ∃ bufs, l.randomSets u seed sizeDiv = some bufs ∧
      bufs.flatten = drawnValues l u seed 0 l.size.toNat ∧
      (∀ b ∈ bufs.dropLast, b.length = div.toNat) ∧
      ∀ b ∈ bufs, 1 ≤ b.length ∧ b.length ≤ div.toNat := by
  have hq : l.size.toNat / div.toNat * div.toNat ≤ l.size.toNat := Nat.div_mul_le_self _ _
  have hmod := Nat.div_add_mod' l.size.toNat div.toNat
  have hlt := Nat.mod_lt l.size.toNat hpos
  have hfull := Word.toNat_div_mul l.size div
  have hrem := Word.toNat_sub_div_mul l.size div
  obtain ⟨bufs, hrun, hflat, hlen⟩ := fullBuffers_spec h hu hfull (by rw [hfull]; exact hq)
    ((l.size / div * div).toNat + 1) 0 0 (by simp) (Nat.zero_le _) (by
      rw [hfull]
      have := Nat.le_mul_of_pos_right (l.size.toNat / div.toNat) hpos
      omega)
  simp only [Nat.zero_mul, Nat.sub_zero] at hrun hflat
  have hstart : drawnState l u seed 0 = u.init seed l.size := rfl
  rw [hstart] at hrun
  unfold randomSets
  simp only [hdiv, hrun, Option.bind_eq_bind, Option.bind_some]
  by_cases hr : 0 < l.size - l.size / div * div
  · rw [if_pos hr]
    have hr' : 0 < l.size.toNat % div.toNat := by
      rw [← hrem]
      exact hr
    have hcount : l.size.toNat - (l.size / div * div).toNat = l.size.toNat % div.toNat := by
      rw [hfull]
      omega
    have hbuf := fillBuffer_drawn h hu
      (k := (l.size / div * div).toNat) (m := l.size.toNat % div.toNat) (by omega)
    simp only [hcount, hbuf, Option.bind_some]
    have hlast := length_drawnValues (l := l) u seed
      (k := (l.size / div * div).toNat) (m := l.size.toNat % div.toNat) (by omega)
    refine ⟨_, rfl, ?_, ?_, ?_⟩
    · have happ := drawnValues_append l u seed 0
        (l.size / div * div).toNat (l.size.toNat % div.toNat)
      rw [Nat.zero_add] at happ
      rw [List.flatten_append, hflat, List.flatten_singleton, happ]
      congr 1
      omega
    · rw [List.dropLast_concat]
      exact hlen
    · intro b hb
      obtain hb | hb := List.mem_append.mp hb
      · have := hlen b hb
        omega
      · rw [List.mem_singleton.mp hb, hlast]
        omega
  · rw [if_neg hr]
    have hr' : l.size.toNat % div.toNat = 0 := by
      rw [← hrem]
      have hle : (l.size - l.size / div * div).toNat ≤ (0 : BitVec w).toNat := not_lt.mp hr
      simpa using hle
    refine ⟨bufs, rfl, ?_, fun b hb => hlen b (List.dropLast_subset _ hb), ?_⟩
    · rw [hflat]
      congr 1
      omega
    · intro b hb
      have := hlen b hb
      omega

/-! ## Buffers of chosen sizes -/

/-- What the loop over chosen sizes gives from buffer number `i` on, with
`rem` values left: buffer `j` has `min(fsize_div(j), values left)` values,
and the walk ends with nothing left or on the first size that is 0 or
above `size_max`. -/
structure SizedBuffers (fsizeDiv : Nat → BitVec 64) (sizeMax : BitVec 64) (i rem : Nat)
    (bufs : List (List (BitVec w))) : Prop where
  bounds : ∀ b ∈ bufs, 1 ≤ b.length ∧ b.length ≤ sizeMax.toNat
  sizes : ∀ (j : Nat) (hj : j < bufs.length), bufs[j].length =
    min (fsizeDiv (i + j)).toNat (rem - (bufs.take j).flatten.length)
  stops : bufs.flatten.length = rem ∨
    (bufs.flatten.length < rem ∧
      (min (fsizeDiv (i + bufs.length)).toNat (rem - bufs.flatten.length) = 0 ∨
        sizeMax.toNat < min (fsizeDiv (i + bufs.length)).toNat (rem - bufs.flatten.length)))

theorem SizedBuffers.nil {fsizeDiv : Nat → BitVec 64} {sizeMax : BitVec 64} {i rem : Nat}
    (h : rem = 0 ∨ (0 < rem ∧ (min (fsizeDiv i).toNat rem = 0 ∨
      sizeMax.toNat < min (fsizeDiv i).toNat rem))) :
    SizedBuffers fsizeDiv sizeMax i rem ([] : List (List (BitVec w))) where
  bounds := fun b hb => (List.not_mem_nil hb).elim
  sizes := fun j hj => absurd hj (Nat.not_lt_zero j)
  stops := by
    obtain h | h := h
    · exact Or.inl h.symm
    · exact Or.inr (by simpa using h)

/-- One more buffer in front. -/
theorem SizedBuffers.cons {fsizeDiv : Nat → BitVec 64} {sizeMax : BitVec 64} {i rem : Nat}
    {b : List (BitVec w)} {bufs : List (List (BitVec w))}
    (hb : b.length = min (fsizeDiv i).toNat rem) (hpos : 1 ≤ b.length)
    (hmax : b.length ≤ sizeMax.toNat)
    (h : SizedBuffers fsizeDiv sizeMax (i + 1) (rem - b.length) bufs) :
    SizedBuffers fsizeDiv sizeMax i rem (b :: bufs) where
  bounds := by
    intro c hc
    cases hc with
    | head => exact ⟨hpos, hmax⟩
    | tail _ hc => exact h.bounds c hc
  sizes := by
    intro j hj
    cases j with
    | zero => simpa using hb
    | succ j =>
      have hsize := h.sizes j (by simpa using hj)
      simp only [List.getElem_cons_succ, List.take_succ_cons, List.flatten_cons,
        List.length_append]
      rw [hsize, Nat.sub_sub, show i + 1 + j = i + (j + 1) by omega]
  stops := by
    have hle : b.length ≤ rem := by omega
    have hstops := h.stops
    simp only [List.flatten_cons, List.length_append, List.length_cons]
    rw [show i + (bufs.length + 1) = i + 1 + bufs.length by omega,
      show rem - (b.length + bufs.flatten.length) = rem - b.length - bufs.flatten.length by omega]
    obtain hs | ⟨hs, hstop⟩ := hstops
    · exact Or.inl (by omega)
    · exact Or.inr ⟨by omega, hstop⟩

/-- Size number `i` of the walk: what `fsize_div` chooses, cut to the values
that the sizes before it leave. -/
def chosenSize (fsizeDiv : Nat → BitVec 64) (rem i : Nat) : Nat :=
  min (fsizeDiv i).toNat (rem - ((List.range i).map fun j => (fsizeDiv j).toNat).sum)

/-- Behind its first size, the walk is one over the values left. -/
theorem chosenSize_succ (fsizeDiv : Nat → BitVec 64) (rem i : Nat) :
    chosenSize fsizeDiv rem (i + 1) =
      chosenSize (fun j => fsizeDiv (j + 1)) (rem - (fsizeDiv 0).toNat) i := by
  unfold chosenSize
  rw [List.range_succ_eq_map, List.map_cons, List.map_map, List.sum_cons, Nat.sub_sub]
  rfl

theorem chosenSize_le (fsizeDiv : Nat → BitVec 64) (rem i : Nat) :
    chosenSize fsizeDiv rem i ≤ rem :=
  (Nat.min_le_right _ _).trans (Nat.sub_le _ _)

/-- The sizes that the walk comes to have room in the buffer, when they are
not above `size_max`. -/
def SizesFit (fsizeDiv : Nat → BitVec 64) (sizeMax room rem : Nat) : Prop :=
  ∀ i, (∀ j < i, fsizeDiv j ≠ 0) → chosenSize fsizeDiv rem i ≤ sizeMax →
    chosenSize fsizeDiv rem i ≤ room

theorem SizesFit.tail {fsizeDiv : Nat → BitVec 64} {sizeMax room rem : Nat}
    (h : SizesFit fsizeDiv sizeMax room rem) (hne : fsizeDiv 0 ≠ 0) :
    SizesFit (fun j => fsizeDiv (j + 1)) sizeMax room (rem - (fsizeDiv 0).toNat) := by
  intro i hi
  have hreach : ∀ j < i + 1, fsizeDiv j ≠ 0 := by
    intro j hj
    cases j with
    | zero => exact hne
    | succ j => exact hi j (by omega)
  rw [← chosenSize_succ]
  exact h (i + 1) hreach

/-- What one buffer of the walk takes from the values left. -/
theorem toNat_sub_size (sizeRem : BitVec w) (m : Nat) :
    (sizeRem - BitVec.ofNat w (min m sizeRem.toNat)).toNat = sizeRem.toNat - m := by
  have hlt := sizeRem.isLt
  have hofNat : (BitVec.ofNat w (min m sizeRem.toNat)).toNat = min m sizeRem.toNat := by
    rw [BitVec.toNat_ofNat, Nat.mod_eq_of_lt (by omega)]
  rw [Word.toNat_sub_of_le (by rw [BitVec.le_def, hofNat]; exact Nat.min_le_right _ _), hofNat]
  omega

/-- With room for its sizes, the walk is as `SizedBuffers` says. -/
theorem sizedBuffers_spec (h : Served l) (hu : u.Enumerates seed l.size)
    (fsizeDiv : Nat → BitVec 64) (sizeMax : BitVec 64) (room fuel i k : Nat) (sizeRem : BitVec w)
    (hrem : k + sizeRem.toNat = l.size.toNat) (hfuel : sizeRem.toNat < fuel)
    (hfit : SizesFit (fun j => fsizeDiv (i + j)) sizeMax.toNat room sizeRem.toNat) :
    ∃ bufs, l.sizedBuffers u fsizeDiv sizeMax room fuel i sizeRem (drawnState l u seed k) =
        some bufs ∧
      bufs.flatten = drawnValues l u seed k bufs.flatten.length ∧
      SizedBuffers fsizeDiv sizeMax i sizeRem.toNat bufs := by
  induction fuel generalizing i k sizeRem with
  | zero => omega
  | succ fuel ih =>
    unfold sizedBuffers
    have hnil : ([] : List (List (BitVec w))).flatten =
        drawnValues l u seed k ([] : List (List (BitVec w))).flatten.length := by
      simp [drawnValues]
    by_cases hpos : 0 < sizeRem
    · have hpos' : 0 < sizeRem.toNat := hpos
      rw [if_pos hpos]
      by_cases hstop : sizeMax.toNat < min (fsizeDiv i).toNat sizeRem.toNat ∨
          min (fsizeDiv i).toNat sizeRem.toNat = 0
      · simp only [if_pos hstop]
        exact ⟨[], rfl, hnil, SizedBuffers.nil (Or.inr ⟨hpos', hstop.symm⟩)⟩
      · simp only [if_neg hstop]
        rw [not_or] at hstop
        have hroom : min (fsizeDiv i).toNat sizeRem.toNat ≤ room :=
          hfit 0 (fun j hj => absurd hj (Nat.not_lt_zero j)) (not_lt.mp hstop.1)
        have hne : fsizeDiv (i + 0) ≠ 0 := by
          intro hzero
          rw [Nat.add_zero] at hzero
          rw [hzero] at hstop
          exact hstop.2 (by simp)
        have hrem' := toNat_sub_size sizeRem (fsizeDiv i).toNat
        have htail := hfit.tail hne
        simp only [Nat.add_zero, ← Nat.add_assoc, Nat.add_right_comm i _ 1, ← hrem'] at htail
        generalize hsz : min (fsizeDiv i).toNat sizeRem.toNat = size at *
        have hbuf := fillBuffer_drawn h hu (show k + size ≤ l.size.toNat by omega)
        have hlen := length_drawnValues (l := l) u seed
          (show k + size ≤ l.size.toNat by omega)
        obtain ⟨bufs, hrun, hflat, hsized⟩ := ih (i + 1) (k + size) (sizeRem - BitVec.ofNat w size)
          (by omega) (by omega) htail
        simp only [if_neg (not_lt.mpr hroom), hbuf, Option.bind_eq_bind, Option.bind_some, hrun]
        refine ⟨_, rfl, ?_, ?_⟩
        · rw [List.flatten_cons, List.length_append, hlen, ← drawnValues_append, ← hflat]
        · rw [show (sizeRem - BitVec.ofNat w size).toNat = sizeRem.toNat - size by omega,
            ← hlen] at hsized
          exact SizedBuffers.cons (by rw [hlen, hsz]) (by omega) (by omega) hsized
    · rw [if_neg hpos]
      have hzero : sizeRem.toNat = 0 := by
        have hle : sizeRem.toNat ≤ (0 : BitVec w).toNat := not_lt.mp hpos
        simpa using hle
      exact ⟨[], rfl, hnil, SizedBuffers.nil (Or.inl hzero)⟩

/-- A walk that ends had room for its sizes. -/
theorem sizesFit_of_sizedBuffers {fsizeDiv : Nat → BitVec 64} {sizeMax : BitVec 64}
    {room fuel i : Nat} {sizeRem : BitVec w} {st : u.State} {bufs : List (List (BitVec w))}
    (hmax : sizeRem.toNat ≤ sizeMax.toNat)
    (h : l.sizedBuffers u fsizeDiv sizeMax room fuel i sizeRem st = some bufs) :
    SizesFit (fun j => fsizeDiv (i + j)) sizeMax.toNat room sizeRem.toNat := by
  induction fuel generalizing i sizeRem st bufs with
  | zero => cases h
  | succ fuel ih =>
    unfold sizedBuffers at h
    intro n hreach _
    by_cases hpos : 0 < sizeRem
    · rw [if_pos hpos] at h
      have hpos' : 0 < sizeRem.toNat := hpos
      by_cases hzero : min (fsizeDiv i).toNat sizeRem.toNat = 0
      · -- the first size is 0, and no other is reached
        cases n with
        | zero => exact hzero.le.trans (Nat.zero_le _)
        | succ n =>
          have hnone : (fsizeDiv i).toNat = 0 := by omega
          exact absurd (BitVec.eq_of_toNat_eq (by simpa using hnone)) (hreach 0 (Nat.succ_pos n))
      · simp only [if_neg (not_or.mpr ⟨not_lt.mpr ((Nat.min_le_right _ _).trans hmax), hzero⟩)] at h
        by_cases hroom : room < min (fsizeDiv i).toNat sizeRem.toNat
        · rw [if_pos hroom] at h
          cases h
        · simp only [if_neg hroom, Option.bind_eq_bind, Option.bind_eq_some_iff] at h
          obtain ⟨⟨buf, st'⟩, _, rest, hrest, _⟩ := h
          cases n with
          | zero => exact not_lt.mp hroom
          | succ n =>
            have hrem := toNat_sub_size sizeRem (fsizeDiv i).toNat
            have hlater := ih (by omega) hrest n fun j hj => by
              show fsizeDiv (i + 1 + j) ≠ 0
              rw [Nat.add_right_comm, Nat.add_assoc]
              exact hreach (j + 1) (by omega)
            rw [hrem] at hlater
            rw [chosenSize_succ]
            simp only [Nat.add_zero, ← Nat.add_assoc, Nat.add_right_comm i _ 1]
            exact hlater ((chosenSize_le _ _ _).trans (by omega))
    · have hzero : sizeRem.toNat = 0 := by
        have hle : sizeRem.toNat ≤ (0 : BitVec w).toNat := not_lt.mp hpos
        simpa using hle
      have := chosenSize_le (fun j => fsizeDiv (i + j)) sizeRem.toNat n
      omega

end Draws

/-- An aggregated list whose cache was built serves every lookup. -/
theorem served_of_cache {l₀ l : ListIntervals 32 32} {c : BitVec 64} (hn : Normal l₀.intervals)
    (hc : l₀.createIndexCache c = some l) : Served l := by
  have hs : Separated (· ≤ ·) l₀.intervals := hn.separated.imp le_of_lt
  have hsum := widthSum_lt hn.proper hs
  have hlen := length_le_widthSum hn.proper
  obtain ⟨hints, hcached⟩ := createIndexCache_cached (le_refl 32) (by omega) hsum hc
  exact ⟨by omega, by rw [hints]; exact hn.proper, by rw [hints]; exact hs, hcached⟩

/-- A `size_div` of 0 is taken as 1. -/
theorem toNat_div (sizeDiv : BitVec 32) :
    (if sizeDiv ≤ 0 then 1 else sizeDiv).toNat = if sizeDiv = 0 then 1 else sizeDiv.toNat := by
  have hzero : sizeDiv ≤ 0 ↔ sizeDiv = 0 := by
    rw [BitVec.le_def, BitVec.toNat_eq]
    simp
  by_cases h0 : sizeDiv = 0
  · rw [if_pos (hzero.mpr h0), if_pos h0]
    rfl
  · rw [if_neg (fun hle => h0 (hzero.mp hle)), if_neg h0]

theorem toNat_div_pos (sizeDiv : BitVec 32) :
    0 < (if sizeDiv ≤ 0 then 1 else sizeDiv).toNat := by
  rw [toNat_div]
  by_cases h0 : sizeDiv = 0
  · rw [if_pos h0]
    omega
  · rw [if_neg h0]
    exact Word.pos_iff_ne_zero.mpr h0

section Partition

variable {Seed : Type} {u : Uprng Seed 32} {seed : Seed} {l : ListIntervals 32 32}

/-- Buffers of one size hold every value once. -/
theorem randomSets_all (h : Served l) (hu : u.Enumerates seed l.size) (sizeDiv : BitVec 32) :
    ∃ bufs, l.randomSets u seed sizeDiv = some bufs ∧
      bufs.flatten.Nodup ∧ (∀ v, v ∈ bufs.flatten ↔ v ∈ covers l.intervals) ∧
      (∀ b ∈ bufs.dropLast, b.length = if sizeDiv = 0 then 1 else sizeDiv.toNat) ∧
      (∀ b ∈ bufs, 1 ≤ b.length ∧ b.length ≤ if sizeDiv = 0 then 1 else sizeDiv.toNat) := by
  obtain ⟨hnodup, hmem⟩ := drawnValues_all h hu
  obtain ⟨bufs, hrun, hflat, hinit, hall⟩ := randomSets_spec h hu rfl (toNat_div_pos sizeDiv)
  rw [toNat_div] at hinit hall
  refine ⟨bufs, hrun, ?_, ?_, hinit, hall⟩
  · rw [hflat]
    exact hnodup
  · rw [hflat]
    exact hmem

/-- What the sized buffers hold is the first of the values drawn. -/
theorem sizedBuffers_prefix {fsizeDiv : Nat → BitVec 64} {sizeMax : BitVec 64}
    {bufs : List (List (BitVec 32))} (hsized : SizedBuffers fsizeDiv sizeMax 0 l.size.toNat bufs)
    (hflat : bufs.flatten = drawnValues l u seed 0 bufs.flatten.length) :
    bufs.flatten <+: drawnValues l u seed 0 l.size.toNat := by
  have hle : bufs.flatten.length ≤ l.size.toNat := by
    obtain hs | hs := hsized.stops
    · omega
    · exact le_of_lt hs.1
  refine ⟨drawnValues l u seed bufs.flatten.length (l.size.toNat - bufs.flatten.length), ?_⟩
  have happ := drawnValues_append l u seed 0 bufs.flatten.length
    (l.size.toNat - bufs.flatten.length)
  rw [Nat.zero_add, ← hflat] at happ
  rw [happ]
  congr 1
  omega

/-- `interval_buf` has room for every size of the walk. Its places are
`size_max`, or what is left of `size_max` when the number of bytes wraps. -/
def RoomFor (fsizeDiv : Nat → BitVec 64) (sizeMax : BitVec 64) (size : Nat) : Prop :=
  sizeMax.toNat < 2 ^ 61 ∨
    (2 ^ 62 ≤ sizeMax.toNat ∧ sizeMax.toNat % 2 ^ 62 < 2 ^ 61 ∧
      ∀ i, (∀ j < i, fsizeDiv j ≠ 0) → chosenSize fsizeDiv size i ≤ sizeMax.toNat % 2 ^ 62)

/-- The places that `posix_memalign` gives for `size_max` values. -/
theorem posixMemalign_places (sizeMax : BitVec 64) :
    (posixMemalign (BitVec.ofNat 64 (32 / 8) * sizeMax)).map (· / (32 / 8)) =
      if sizeMax.toNat % 2 ^ 62 < 2 ^ 61 then some (sizeMax.toNat % 2 ^ 62) else none := by
  have hbytes : (BitVec.ofNat 64 (32 / 8) * sizeMax).toNat = 4 * sizeMax.toNat % 2 ^ 64 := by
    rw [BitVec.toNat_mul]
    rfl
  unfold posixMemalign
  rw [hbytes]
  by_cases h : sizeMax.toNat % 2 ^ 62 < 2 ^ 61
  · rw [if_pos (by omega), if_pos h, Option.map_some, Option.some.injEq]
    omega
  · rw [if_neg (by omega), if_neg h, Option.map_none]

theorem randomSetsSized_eq {fsizeDiv : Nat → BitVec 64} {sizeMax : BitVec 64}
    (hmax : sizeMax ≠ 0) :
    l.randomSetsSized u seed fsizeDiv sizeMax =
      if sizeMax.toNat % 2 ^ 62 < 2 ^ 61 then
        l.sizedBuffers u fsizeDiv sizeMax (sizeMax.toNat % 2 ^ 62) (l.size.toNat + 1) 0 l.size
          (u.init seed l.size)
      else none := by
  have hplaces := posixMemalign_places sizeMax
  unfold randomSetsSized
  rw [if_neg hmax]
  by_cases h : sizeMax.toNat % 2 ^ 62 < 2 ^ 61
  · rw [if_pos h] at hplaces ⊢
    obtain ⟨bytes, hbytes, hroom⟩ := Option.map_eq_some_iff.mp hplaces
    rw [hbytes, ← hroom]
    rfl
  · rw [if_neg h] at hplaces ⊢
    rw [Option.map_eq_none_iff.mp hplaces]
    rfl

theorem RoomFor.sizesFit {fsizeDiv : Nat → BitVec 64} {sizeMax : BitVec 64} {size : Nat}
    (h : RoomFor fsizeDiv sizeMax size) :
    sizeMax.toNat % 2 ^ 62 < 2 ^ 61 ∧
      SizesFit fsizeDiv sizeMax.toNat (sizeMax.toNat % 2 ^ 62) size := by
  obtain hsmall | ⟨-, hmod, hfit⟩ := h
  · rw [Nat.mod_eq_of_lt (by omega)]
    exact ⟨hsmall, fun _ _ hle => hle⟩
  · exact ⟨hmod, fun i hreach _ => hfit i hreach⟩

/-- Buffers of chosen sizes, with room for them, hold no value twice, and
every value when the walk does not stop early. -/
theorem randomSetsSized_all (h : Served l) (hu : u.Enumerates seed l.size)
    {fsizeDiv : Nat → BitVec 64} {sizeMax : BitVec 64}
    (hroom : RoomFor fsizeDiv sizeMax l.size.toNat) :
    ∃ bufs, l.randomSetsSized u seed fsizeDiv sizeMax = some bufs ∧
      bufs.flatten.Nodup ∧ (∀ v ∈ bufs.flatten, v ∈ covers l.intervals) ∧
      SizedBuffers fsizeDiv sizeMax 0 l.size.toNat bufs ∧
      (bufs.flatten.length = l.size.toNat → ∀ v ∈ covers l.intervals, v ∈ bufs.flatten) := by
  obtain ⟨hnodup, hmem⟩ := drawnValues_all h hu
  by_cases hmax : sizeMax = 0
  · refine ⟨[], ?_, List.nodup_nil, fun v hv => (List.not_mem_nil hv).elim, ?_, ?_⟩
    · unfold randomSetsSized
      rw [if_pos hmax]
    · apply SizedBuffers.nil
      rw [hmax]
      simp only [BitVec.ofNat_eq_ofNat, BitVec.toNat_ofNat, Nat.zero_mod]
      omega
    · intro hlen v hv
      have hmemv := (hmem v).mpr hv
      rw [← hlen] at hmemv
      simp [drawnValues] at hmemv
  · obtain ⟨hmod, hfit⟩ := hroom.sizesFit
    obtain ⟨bufs, hrun, hflat, hsized⟩ := sizedBuffers_spec h hu fsizeDiv sizeMax
      (sizeMax.toNat % 2 ^ 62) (l.size.toNat + 1) 0 0 l.size (by omega) (by omega)
      (by simpa only [Nat.zero_add] using hfit)
    have hstart : drawnState l u seed 0 = u.init seed l.size := rfl
    rw [hstart] at hrun
    have hpre := sizedBuffers_prefix hsized hflat
    refine ⟨bufs, ?_, hnodup.sublist hpre.sublist, ?_, hsized, ?_⟩
    · rw [randomSetsSized_eq hmax, if_pos hmod]
      exact hrun
    · intro v hv
      exact (hmem v).mp (hpre.subset hv)
    · intro hlen v hv
      rw [hpre.eq_of_length (by rw [hlen, length_drawnValues _ _ (by omega)])]
      exact (hmem v).mpr hv

/-- A call that comes back had a buffer with room. -/
theorem roomFor_of_randomSetsSized {fsizeDiv : Nat → BitVec 64} {sizeMax : BitVec 64}
    {bufs : List (List (BitVec 32))}
    (hrun : l.randomSetsSized u seed fsizeDiv sizeMax = some bufs) :
    RoomFor fsizeDiv sizeMax l.size.toNat := by
  by_cases hsmall : sizeMax.toNat < 2 ^ 61
  · exact Or.inl hsmall
  · have hmax : sizeMax ≠ 0 := by
      rintro rfl
      exact hsmall (by decide)
    rw [randomSetsSized_eq hmax] at hrun
    by_cases hmod : sizeMax.toNat % 2 ^ 62 < 2 ^ 61
    · rw [if_pos hmod] at hrun
      have hlarge : 2 ^ 62 ≤ sizeMax.toNat := by omega
      have hsize := l.size.isLt
      have hfit := sizesFit_of_sizedBuffers (by omega) hrun
      simp only [Nat.zero_add] at hfit
      refine Or.inr ⟨hlarge, hmod, fun i hreach => hfit i hreach ?_⟩
      exact (chosenSize_le _ _ _).trans (by omega)
    · rw [if_neg hmod] at hrun
      cases hrun

end Partition

/-- **`random_sets` partitions the list**: in buffers of one size always,
and in buffers of chosen sizes exactly when the buffer that is asked for
has room for them. -/
theorem randomSets_partition_iff {Seed : Type} (u : Uprng Seed 32) (seed : Seed)
    (l₀ l : ListIntervals 32 32) (c : BitVec 64) (hn : Normal l₀.intervals)
    (hc : l₀.createIndexCache c = some l) (hu : u.Enumerates seed l.size) :
    (∀ sizeDiv : BitVec 32, ∃ bufs, l.randomSets u seed sizeDiv = some bufs ∧
      bufs.flatten.Nodup ∧ (∀ v, v ∈ bufs.flatten ↔ v ∈ covers l.intervals) ∧
      (∀ b ∈ bufs.dropLast, b.length = if sizeDiv = 0 then 1 else sizeDiv.toNat) ∧
      (∀ b ∈ bufs, 1 ≤ b.length ∧ b.length ≤ if sizeDiv = 0 then 1 else sizeDiv.toNat)) ∧
    (∀ (fsizeDiv : Nat → BitVec 64) (sizeMax : BitVec 64), (∃ bufs,
      l.randomSetsSized u seed fsizeDiv sizeMax = some bufs ∧
      bufs.flatten.Nodup ∧ (∀ v ∈ bufs.flatten, v ∈ covers l.intervals) ∧
      SizedBuffers fsizeDiv sizeMax 0 l.size.toNat bufs ∧
      (bufs.flatten.length = l.size.toNat → ∀ v ∈ covers l.intervals, v ∈ bufs.flatten)) ↔
      RoomFor fsizeDiv sizeMax l.size.toNat) := by
  have h := served_of_cache hn hc
  refine ⟨randomSets_all h hu, fun fsizeDiv sizeMax => ⟨?_, randomSetsSized_all h hu⟩⟩
  rintro ⟨bufs, hrun, -⟩
  exact roomFor_of_randomSetsSized hrun

/-! ## `uni` as the generator -/

/-- What `uni::init` takes from its engine: the two draws below `max`, and
the shuffle. -/
structure UniEngine where
  draw : BitVec 32 → BitVec 32 × BitVec 32
  shuffle : Shuffle (BitVec 32)

/-- `uni<uint32_t>` as the parameter `UPRNG`. -/
def uniUprng : Uprng UniEngine 32 where
  State := Uni
  init rand max := Uni.init max (rand.draw max).1 (rand.draw max).2 rand.shuffle
  next g := g.next.getD (0, g)
  getStep g step := (g.getStep step).getD 0
  max g := g.max

theorem uniUprng_draws {n : Nat} {g g' : Uni} {out : List (BitVec 32)}
    (h : g.calls n = some (out, g')) : uniUprng.draws n g = (out, g') := by
  induction n generalizing g out with
  | zero =>
    cases h
    rfl
  | succ n ih =>
    unfold Uni.calls at h
    cases hnext : g.next with
    | none => simp [hnext] at h
    | some p =>
      cases hcalls : p.2.calls n with
      | none => simp [hnext, hcalls] at h
      | some q =>
        simp only [hnext, hcalls, Option.bind_eq_bind, Option.bind_some, Option.some.injEq,
          Prod.mk.injEq] at h
        obtain ⟨rfl, rfl⟩ := h
        have hstep : uniUprng.next g = p := by
          show g.next.getD (0, g) = p
          rw [hnext]
          rfl
        have hdraws := Uprng.draws_succ (u := uniUprng) n g
        rw [hstep, ih hcalls] at hdraws
        exact hdraws

/-- `uni` enumerates its range when its offset sums do not wrap. -/
theorem uniUprng_enumerates {rand : UniEngine} {max : BitVec 32} (hoff : (rand.draw max).1 < max)
    (hpos : (rand.draw max).2 < max) (hsum : (rand.draw max).1.toNat + max.toNat ≤ 2 ^ 32) :
    uniUprng.Enumerates rand max := by
  have hvalid := Uni.init_valid hoff hpos rand.shuffle
  obtain ⟨out, g', hcalls, hperm⟩ := (Uni.enumerates_iff hvalid).mpr hsum
  have hdraws := uniUprng_draws hcalls
  unfold Uprng.Enumerates
  have hinit : uniUprng.init rand max =
      Uni.init max (rand.draw max).1 (rand.draw max).2 rand.shuffle := rfl
  rw [hinit, show max.toNat = (Uni.init max (rand.draw max).1 (rand.draw max).2
    rand.shuffle).max.toNat from rfl, hdraws]
  exact hperm

/-- The list of the witness: five values in two cached intervals. -/
def cachedSample : ListIntervals 32 32 where
  intervals := [⟨3, 5⟩, ⟨10, 13⟩]
  indexCache := [2, 5]
  cacheEntrySize := 1

/-- Two as the size of every buffer, and sizes from two on. -/
theorem randomSets_partition_uni :
    (∃ bufs, cachedSample.randomSets uniUprng ⟨fun _ => (2, 1), Shuffle.id _⟩ 2 = some bufs ∧
      bufs.flatten.Nodup ∧ (∀ v, v ∈ bufs.flatten ↔ v ∈ covers cachedSample.intervals)) ∧
    ∃ bufs, cachedSample.randomSetsSized uniUprng ⟨fun _ => (2, 1), Shuffle.id _⟩
        (fun i => BitVec.ofNat 64 (i + 2)) 3 = some bufs ∧
      bufs.flatten.Nodup ∧
      SizedBuffers (fun i => BitVec.ofNat 64 (i + 2)) 3 0 cachedSample.size.toNat bufs := by
  obtain ⟨hfixed, hsized⟩ := randomSets_partition_iff uniUprng ⟨fun _ => (2, 1), Shuffle.id _⟩
    { intervals := [⟨3, 5⟩, ⟨10, 13⟩] } cachedSample 1
    ⟨by decide, List.pairwise_pair.mpr (by decide)⟩ (by decide)
    (uniUprng_enumerates (by decide) (by decide) (by decide))
  obtain ⟨bufs, hrun, hnodup, hmem, -⟩ := hfixed 2
  obtain ⟨bufs', hrun', hnodup', -, hsizes, -⟩ :=
    (hsized (fun i => BitVec.ofNat 64 (i + 2)) 3).mpr (Or.inl (by decide))
  exact ⟨⟨bufs, hrun, hnodup, hmem⟩, bufs', hrun', hnodup', hsizes⟩

/-- With `size_max = 2^62` the request is for 0 bytes, and the first value
is written behind the buffer. -/
theorem randomSets_overruns :
    Normal cachedSample.intervals ∧
    ({ intervals := cachedSample.intervals } : ListIntervals 32 32).createIndexCache 1 =
      some cachedSample ∧
    uniUprng.Enumerates ⟨fun _ => (2, 1), Shuffle.id _⟩ cachedSample.size ∧
    ¬ ∃ bufs, cachedSample.randomSetsSized uniUprng ⟨fun _ => (2, 1), Shuffle.id _⟩
        (fun _ => 1) (BitVec.ofNat 64 (2 ^ 62)) = some bufs := by
  refine ⟨⟨by decide, List.pairwise_pair.mpr (by decide)⟩, by decide,
    uniUprng_enumerates (by decide) (by decide) (by decide), ?_⟩
  rintro ⟨bufs, hrun⟩
  obtain hsmall | ⟨-, -, hfit⟩ := roomFor_of_randomSetsSized hrun
  · exact absurd hsmall (by decide)
  · exact absurd (hfit 0 fun j hj => absurd hj (Nat.not_lt_zero j)) (by decide)

end Leeloo
