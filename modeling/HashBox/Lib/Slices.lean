import Mathlib.Data.List.Basic

/-!
# Slices of arrays in a memory

`Memory α` holds the arrays allocated so far, by address. A `Slice` shows the first `len` elements
of one of them and may grow in place up to `cap`. `make` allocates, `append` writes behind the
slice where there is room and moves to a new array where there is none, `upTo` reslices, `fill` and
`copy` overwrite. Two slices may share an array, so a write through one is seen through the other;
`read` says what a slice shows in the memory as it is.
-/

namespace Slices

variable {α : Type _}

/-- The arrays allocated so far, by address. -/
abbrev Memory (α : Type _) := List (List α)

/-- The first `len` elements of an array, with room for `cap`. -/
structure Slice where
  array : Nat
  len : Nat
  cap : Nat
deriving DecidableEq, Repr

/-- `s[:n]`. -/
def Slice.upTo (s : Slice) (n : Nat) : Slice := { s with len := n }

/-- The array at an address. -/
def arrayAt (m : Memory α) (a : Nat) : List α := m.getD a []

/-- The elements a slice shows. -/
def read (m : Memory α) (s : Slice) : List α := (arrayAt m s.array).take s.len

/-- A new array of `cap` zeros, shown up to `len`. -/
def make (m : Memory α) (zero : α) (len cap : Nat) : Memory α × Slice :=
  (m ++ [List.replicate cap zero], ⟨m.length, len, cap⟩)

/-- `xs` written over the first elements of a slice's array. -/
def fill (m : Memory α) (s : Slice) (xs : List α) : Memory α :=
  m.set s.array (xs ++ (arrayAt m s.array).drop xs.length)

/-- One element behind a slice: in its array if there is room, else in a new, longer array. -/
def append (m : Memory α) (s : Slice) (x : α) : Memory α × Slice :=
  if s.len < s.cap then
    (m.set s.array ((arrayAt m s.array).set s.len x), { s with len := s.len + 1 })
  else (m ++ [read m s ++ [x]], ⟨m.length, s.len + 1, s.len + 1⟩)

/-- `copy`: as many elements as both slices show. -/
def copy (m : Memory α) (dst src : Slice) : Memory α :=
  fill m dst ((read m src).take dst.len)

/-! ## What the operations leave -/

theorem arrayAt_append {m : Memory α} {a : Nat} (ms : Memory α) (h : a < m.length) :
    arrayAt (m ++ ms) a = arrayAt m a := by
  simp [arrayAt, List.getD_eq_getElem?_getD, List.getElem?_append_left h]

theorem arrayAt_append_self (m : Memory α) (xs : List α) : arrayAt (m ++ [xs]) m.length = xs := by
  simp [arrayAt, List.getD_eq_getElem?_getD]

theorem take_set_succ {xs : List α} {n : Nat} (x : α) (h : n < xs.length) :
    (xs.set n x).take (n + 1) = xs.take n ++ [x] := by
  rw [List.take_add_one, List.take_set_of_le (Nat.le_refl n), List.getElem?_set_self h]
  rfl

/-- A slice made and copied into is a fresh array with what the source shows. -/
theorem copy_make {m : Memory α} {src : Slice} (zero : α) (ha : src.array < m.length)
    (hl : (read m src).length = src.len) :
    copy (make m zero src.len src.len).1 (make m zero src.len src.len).2 src =
      m ++ [read m src] := by
  have hr : read (m ++ [List.replicate src.len zero]) src = read m src := by
    rw [read, arrayAt_append _ ha, read]
  simp only [copy, fill, make, hr, arrayAt_append_self]
  rw [List.take_of_length_le (by omega), List.drop_eq_nil_of_le (by simp [hl]), List.append_nil]
  simp

end Slices
