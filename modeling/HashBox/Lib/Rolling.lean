import Mathlib.Data.Nat.Bitwise

/-!
# Rolling fingerprints

A fingerprint in words of `w` bits that takes a sequence one element at a time: it is shifted by one
and the element's entry of a table is added, with wrap-around. The low `k` bits of it are the
fingerprint in words of `k` bits (`roll_setWidth`), and a fingerprint in words of `k` bits has lost
all it was before its last `k` elements (`roll_window`). So the low `k` bits depend on the last `k`
elements only, whatever the table (`roll_mask`).
-/

namespace Rolling

variable {α : Type _} {w k : Nat}

/-- The fingerprint `fp` after `xs`. -/
def roll (gear : α → BitVec w) (fp : BitVec w) (xs : List α) : BitVec w :=
  xs.foldl (fun fp x => (fp <<< 1) + gear x) fp

@[simp] theorem roll_nil (gear : α → BitVec w) (fp : BitVec w) : roll gear fp [] = fp := rfl

@[simp] theorem roll_cons (gear : α → BitVec w) (fp : BitVec w) (x : α) (xs : List α) :
    roll gear fp (x :: xs) = roll gear ((fp <<< 1) + gear x) xs := rfl

theorem roll_append (gear : α → BitVec w) (fp : BitVec w) (xs ys : List α) :
    roll gear fp (xs ++ ys) = roll gear (roll gear fp xs) ys :=
  List.foldl_append

/-- What the fingerprint was before is shifted out one bit an element. -/
theorem roll_eq_add (gear : α → BitVec w) (xs : List α) :
    ∀ fp, roll gear fp xs = (fp <<< xs.length) + roll gear 0#w xs := by
  induction xs with
  | nil => intro fp; simp
  | cons x xs ih =>
    intro fp
    rw [roll_cons, roll_cons, ih, ih ((0#w <<< 1) + gear x), BitVec.shiftLeft_add_distrib,
      BitVec.shiftLeft_add_distrib, ← BitVec.shiftLeft_add, ← BitVec.shiftLeft_add,
      BitVec.zero_shiftLeft, BitVec.zero_add, BitVec.add_assoc, List.length_cons, Nat.add_comm 1]

/-- **The window**: as many elements as a word has bits leave nothing of what was before. -/
theorem roll_window (gear : α → BitVec w) (fp : BitVec w) {xs : List α} (h : w ≤ xs.length) :
    roll gear fp xs = roll gear 0#w (xs.drop (xs.length - w)) := by
  have hlen : (xs.drop (xs.length - w)).length = w := by rw [List.length_drop]; omega
  conv_lhs => rw [← List.take_append_drop (xs.length - w) xs]
  rw [roll_append, roll_eq_add, BitVec.shiftLeft_eq_zero (Nat.le_of_eq hlen.symm),
    BitVec.zero_add]

/-- **Truncation**: the low bits of a fingerprint are the fingerprint in shorter words. -/
theorem roll_setWidth (gear : α → BitVec w) (hk : k ≤ w) (xs : List α) : ∀ fp : BitVec w,
    (roll gear fp xs).setWidth k = roll (fun x => (gear x).setWidth k) (fp.setWidth k) xs := by
  induction xs with
  | nil => exact fun _ => rfl
  | cons x xs ih =>
    intro fp
    rw [roll_cons, ih, BitVec.setWidth_add _ _ hk, BitVec.setWidth_shiftLeft_of_le hk, roll_cons]

/-- The low `k` bits set. -/
def mask (w k : Nat) : BitVec w := (1#w <<< k) - 1#w

theorem mask_toNat (h : k < w) : (mask w k).toNat = 2 ^ k - 1 := by
  have hpow : 2 ^ k < 2 ^ w := Nat.pow_lt_pow_right Nat.one_lt_two h
  have hone : (1#w).toNat = 1 := Nat.mod_eq_of_lt (Nat.one_lt_two_pow (by omega))
  have hshift : (1#w <<< k).toNat = 2 ^ k := by
    rw [BitVec.toNat_shiftLeft, hone, Nat.one_shiftLeft, Nat.mod_eq_of_lt hpow]
  rw [mask, BitVec.toNat_sub_of_le, hshift, hone]
  rw [BitVec.le_def, hshift, hone]
  exact Nat.one_le_two_pow

theorem and_mask_eq_iff (h : k < w) {x y : BitVec w} :
    x &&& mask w k = y &&& mask w k ↔ x.setWidth k = y.setWidth k := by
  rw [← BitVec.toNat_inj, ← BitVec.toNat_inj, BitVec.toNat_and, BitVec.toNat_and, mask_toNat h,
    Nat.and_two_pow_sub_one_eq_mod, Nat.and_two_pow_sub_one_eq_mod, BitVec.toNat_setWidth,
    BitVec.toNat_setWidth]

/-- **The masked fingerprint depends only on the last elements**, as many as the mask has bits. -/
theorem roll_mask (gear : α → BitVec w) (h : k < w) (fp fp' : BitVec w) {xs ys : List α}
    (hxs : k ≤ xs.length) (hys : k ≤ ys.length)
    (hlast : xs.drop (xs.length - k) = ys.drop (ys.length - k)) :
    roll gear fp xs &&& mask w k = roll gear fp' ys &&& mask w k := by
  rw [and_mask_eq_iff h, roll_setWidth _ (Nat.le_of_lt h), roll_setWidth _ (Nat.le_of_lt h),
    roll_window _ _ hxs, roll_window _ _ hys, hlast]

end Rolling
