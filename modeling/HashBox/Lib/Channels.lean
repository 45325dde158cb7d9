import Mathlib.Data.List.Basic

/-!
# Buffered channels

A channel has room for `cap` elements and may be closed. `trySend` and `tryRecv` are the operations
that do not wait: `select` with a `default`. A send on a closed channel and a second close panic; a
receive does not, and a closed channel still gives what its buffer holds.
-/

namespace Channels

variable {α : Type _}

inductive Panic
  | sendOnClosed
  | closeOfClosed
deriving DecidableEq, Repr

structure Channel (α : Type _) where
  cap : Nat
  buf : List α
  closed : Bool
  fits : buf.length ≤ cap

/-- `make(chan …, cap)`. -/
def Channel.make (cap : Nat) : Channel α := ⟨cap, [], false, Nat.zero_le cap⟩

namespace Channel

/-- `select { case c <- x: default: }`: whether `x` was sent. -/
def trySend (c : Channel α) (x : α) : Except Panic (Bool × Channel α) :=
  if c.closed then .error .sendOnClosed
  else if h : c.buf.length < c.cap then
    .ok (true, { c with buf := c.buf ++ [x], fits := by rw [List.length_append]; exact h })
  else .ok (false, c)

/-- `select { case x := <-c: default: }`. -/
def tryRecv (c : Channel α) : Option α × Channel α :=
  match h : c.buf with
  | [] => (none, c)
  | x :: buf =>
    (some x, { c with buf, fits := Nat.le_of_succ_le (h ▸ c.fits : (x :: buf).length ≤ c.cap) })

/-- `close(c)`. -/
def close (c : Channel α) : Except Panic (Channel α) :=
  if c.closed then .error .closeOfClosed else .ok { c with closed := true }

/-- The buffer has no room. -/
def full (c : Channel α) : Prop := c.buf.length = c.cap

instance (c : Channel α) : Decidable c.full := inferInstanceAs (Decidable (_ = _))

/-- **What a send on an open channel comes to.** -/
theorem trySend_open {c : Channel α} (h : c.closed = false) (x : α) :
    (c.full ∧ c.trySend x = .ok (false, c)) ∨
      (¬ c.full ∧ ∃ c', c.trySend x = .ok (true, c') ∧ c'.buf = c.buf ++ [x] ∧ c'.cap = c.cap ∧
        c'.closed = false) := by
  unfold trySend full
  rw [h, if_neg Bool.false_ne_true]
  by_cases hl : c.buf.length < c.cap
  · rw [dif_pos hl]
    exact .inr ⟨Nat.ne_of_lt hl, _, rfl, rfl, rfl, rfl⟩
  · rw [dif_neg hl]
    exact .inl ⟨Nat.le_antisymm c.fits (Nat.not_lt.1 hl), rfl⟩

theorem tryRecv_spec (c : Channel α) :
    c.tryRecv.1.toList ++ c.tryRecv.2.buf = c.buf ∧ c.tryRecv.2.cap = c.cap ∧
      c.tryRecv.2.closed = c.closed ∧ (c.tryRecv.1 = none ↔ c.buf = []) := by
  unfold tryRecv
  split
  · next h => exact ⟨rfl, rfl, rfl, by simp [h]⟩
  · next x buf h => exact ⟨by simp [h], rfl, rfl, by simp [h]⟩

theorem tryRecv_not_full {c : Channel α} (h : 0 < c.cap) : ¬ c.tryRecv.2.full := by
  obtain ⟨hbuf, hcap, -, hnone⟩ := c.tryRecv_spec
  have hfits := c.fits
  unfold full
  rw [hcap]
  rw [← hbuf, List.length_append] at hfits
  cases hr : c.tryRecv.1 with
  | none =>
    rw [hr, hnone.1 hr, Option.toList_none, List.nil_append] at hbuf
    rw [hbuf]
    exact Nat.ne_of_lt h
  | some x =>
    rw [hr, Option.toList_some, List.length_singleton] at hfits
    omega

theorem close_open {c : Channel α} (h : c.closed = false) :
    c.close = .ok { c with closed := true } := by
  rw [close, h, if_neg Bool.false_ne_true]

end Channel

end Channels
