/-
Leeloo.Lib.FileSystem — files by name, and the table of descriptors of one
process.

A file is its bytes, and a descriptor is a name with an offset. The table
has a fixed length, the limit on open descriptors, and `open` takes the
lowest free one. What the system refuses or cuts short is an argument of
each call: `ok` for a call that may fail, and for a transfer the most it
moves, or `none` when it fails.

Files are not removed or renamed, so a name stands for one file.
-/
import Mathlib.Data.List.Basic
import Mathlib.Logic.Function.Basic

namespace FileSystem

variable {N : Type}

/-- What a descriptor refers to. -/
structure Handle (N : Type) where
  name : N
  pos : Nat

structure State (N : Type) where
  files : N → Option (List (BitVec 8))
  table : List (Option (Handle N))

namespace State

/-- The number of descriptors in use. -/
def inUse (s : State N) : Nat := s.table.countP Option.isSome

/-- The lowest free descriptor. -/
def freeFd (s : State N) : Option Nat := s.table.findIdx? Option.isNone

/-- The open file of a descriptor. -/
def handle (s : State N) (fd : Nat) : Option (Handle N) := s.table[fd]?.join

def setHandle (s : State N) (fd : Nat) (h : Option (Handle N)) : State N :=
  { s with table := s.table.set fd h }

def setFile [DecidableEq N] (s : State N) (name : N) (bytes : List (BitVec 8)) : State N :=
  { s with files := Function.update s.files name (some bytes) }

end State

/-- How a file is opened: as it is, or created if need be and emptied. -/
inductive Mode where
  | readOnly
  | truncate

variable [DecidableEq N]

/-- `open`: a descriptor, or none. -/
def openFile (s : State N) (name : N) (mode : Mode) (ok : Bool) : Option Nat × State N :=
  match s.freeFd with
  | none => (none, s)
  | some fd =>
    if ok = false then (none, s)
    else
      match mode with
      | .truncate => (some fd, (s.setFile name []).setHandle fd (some ⟨name, 0⟩))
      | .readOnly =>
        if s.files name = none then (none, s) else (some fd, s.setHandle fd (some ⟨name, 0⟩))

def closeFile (s : State N) (fd : Nat) : State N := s.setHandle fd none

/-- `write`: the number of bytes written, or `-1`. -/
def writeFile (s : State N) (fd : Nat) (bytes : List (BitVec 8)) (most : Option Nat) :
    Int × State N :=
  match s.handle fd, most with
  | some h, some most =>
    let n := min most bytes.length
    let old := (s.files h.name).getD []
    let new := old.take h.pos ++ bytes.take n ++ old.drop (h.pos + n)
    ((n : Int), (s.setFile h.name new).setHandle fd (some { h with pos := h.pos + n }))
  | _, _ => (-1, s)

/-- `lseek(fd, 0, SEEK_END)`. -/
def seekEnd (s : State N) (fd : Nat) (ok : Bool) : Int × State N :=
  match s.handle fd with
  | some h =>
    if ok then
      let size := ((s.files h.name).getD []).length
      ((size : Int), s.setHandle fd (some { h with pos := size }))
    else (-1, s)
  | none => (-1, s)

/-- `lseek(fd, 0, SEEK_SET)`. -/
def seekStart (s : State N) (fd : Nat) (ok : Bool) : Int × State N :=
  match s.handle fd with
  | some h => if ok then (0, s.setHandle fd (some { h with pos := 0 })) else (-1, s)
  | none => (-1, s)

/-- `read` of at most `n` bytes: their number or `-1`, and the bytes. -/
def readFile (s : State N) (fd : Nat) (n : Nat) (most : Option Nat) :
    Int × List (BitVec 8) × State N :=
  match s.handle fd, most with
  | some h, some most =>
    let got := ((((s.files h.name).getD []).drop h.pos).take n).take most
    ((got.length : Int), got, s.setHandle fd (some { h with pos := h.pos + got.length }))
  | _, _ => (-1, [], s)

/-! ## The table -/

section Table

variable {s : State N} {fd : Nat}

omit [DecidableEq N]

/-- The lowest free descriptor is free. -/
theorem getElem?_of_freeFd (h : s.freeFd = some fd) : s.table[fd]? = some none := by
  obtain ⟨hlt, hnone, -⟩ := List.findIdx?_eq_some_iff_getElem.mp h
  rw [List.getElem?_eq_getElem hlt, Option.some.injEq]
  exact Option.isNone_iff_eq_none.mp hnone

/-- No descriptor is free when all are in use. -/
theorem freeFd_eq_none_iff : s.freeFd = none ↔ s.inUse = s.table.length := by
  rw [State.freeFd, List.findIdx?_eq_none_iff, State.inUse, List.countP_eq_length]
  refine forall₂_congr fun h _ => ?_
  cases h <;> simp

theorem exists_freeFd (h : s.inUse < s.table.length) : ∃ fd, s.freeFd = some fd := by
  cases hfd : s.freeFd with
  | none =>
    rw [freeFd_eq_none_iff] at hfd
    omega
  | some fd => exact ⟨fd, rfl⟩

/-- Giving out a free descriptor and taking it back leaves the table. -/
theorem setHandle_setHandle_none (h : s.freeFd = some fd) (o : Option (Handle N)) :
    (s.setHandle fd o).setHandle fd none = s := by
  unfold State.setHandle
  have hnone := getElem?_of_freeFd h
  obtain ⟨hlt, hget⟩ := List.getElem?_eq_some_iff.mp hnone
  simp only [List.set_set, ← hget, List.set_getElem_self]

theorem setHandle_setHandle (s : State N) (fd : Nat) (o o' : Option (Handle N)) :
    (s.setHandle fd o).setHandle fd o' = s.setHandle fd o' := by
  simp [State.setHandle]

theorem handle_setHandle (h : fd < s.table.length) (o : Option (Handle N)) :
    (s.setHandle fd o).handle fd = o := by
  simp [State.setHandle, State.handle, h]

/-- A descriptor that stays open is one more in use. -/
theorem inUse_setHandle_some (h : s.freeFd = some fd) (o : Handle N) :
    (s.setHandle fd (some o)).inUse = s.inUse + 1 := by
  have hnone := getElem?_of_freeFd h
  obtain ⟨hlt, hget⟩ := List.getElem?_eq_some_iff.mp hnone
  unfold State.setHandle State.inUse
  rw [List.countP_set hlt, hget]
  simp

/-- A free descriptor is inside the table. -/
theorem lt_of_freeFd (h : s.freeFd = some fd) : fd < s.table.length :=
  (List.getElem?_eq_some_iff.mp (getElem?_of_freeFd h)).1

end Table

/-! ## Files -/

section Files

variable {s : State N} {name : N}

@[simp] theorem files_setFile_self (s : State N) (name : N) (b : List (BitVec 8)) :
    (s.setFile name b).files name = some b := by
  simp [State.setFile]

/-- What `open` can do. -/
theorem openFile_cases (s : State N) (name : N) (mode : Mode) (ok : Bool) :
    openFile s name mode ok = (none, s) ∨ ∃ fd, s.freeFd = some fd ∧
      ((mode = .truncate ∧ openFile s name mode ok =
          (some fd, (s.setFile name []).setHandle fd (some ⟨name, 0⟩))) ∨
        (mode = .readOnly ∧ ∃ bytes, s.files name = some bytes ∧ openFile s name mode ok =
          (some fd, s.setHandle fd (some ⟨name, 0⟩)))) := by
  unfold openFile
  cases hfd : s.freeFd with
  | none => exact Or.inl rfl
  | some fd =>
    by_cases hok : ok = false
    · exact Or.inl (by simp [hok])
    · cases mode with
      | truncate => exact Or.inr ⟨fd, rfl, Or.inl ⟨rfl, by simp [hok]⟩⟩
      | readOnly =>
        cases hfile : s.files name with
        | none => exact Or.inl (by simp [hok])
        | some bytes => exact Or.inr ⟨fd, rfl, Or.inr ⟨rfl, bytes, rfl, by simp [hok]⟩⟩

/-- Without a free descriptor nothing is opened. -/
theorem openFile_of_full (h : s.inUse = s.table.length) (name : N) (mode : Mode) (ok : Bool) :
    openFile s name mode ok = (none, s) := by
  rw [openFile, freeFd_eq_none_iff.mpr h]

/-- A write to a file that was just emptied leaves the part it moves. -/
theorem writeFile_fresh (s : State N) (name : N) {fd : Nat} (hfd : fd < s.table.length)
    (bytes : List (BitVec 8)) (most : Option Nat) :
    ∃ n h, ((writeFile ((s.setFile name []).setHandle fd (some ⟨name, 0⟩)) fd bytes most).1 = -1 ∨
        (writeFile ((s.setFile name []).setHandle fd (some ⟨name, 0⟩)) fd bytes most).1 =
          ((bytes.take n).length : Int)) ∧
      (writeFile ((s.setFile name []).setHandle fd (some ⟨name, 0⟩)) fd bytes most).2 =
        (s.setFile name (bytes.take n)).setHandle fd (some h) := by
  have hhandle : ((s.setFile name []).setHandle fd (some ⟨name, 0⟩)).handle fd =
      some ⟨name, 0⟩ := handle_setHandle hfd _
  unfold writeFile
  rw [hhandle]
  cases most with
  | none => exact ⟨0, ⟨name, 0⟩, Or.inl rfl, by simp⟩
  | some most =>
    refine ⟨min most bytes.length, ⟨name, min most bytes.length⟩, Or.inr ?_, ?_⟩
    · simp
    · simp [State.setHandle, State.setFile]

end Files

end FileSystem
