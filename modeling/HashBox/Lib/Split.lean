import Mathlib.Data.List.Basic

/-!
# Splitting a text that arrives in fragments

`split sep s` cuts `s` at the occurrences of a separator, taken from the left and without overlap,
as the `split` of string libraries does for a separator that is not empty. `cut` gives the same
segments with the last one apart: the text that a later fragment may still go on (`cut_append`). So
a reader that keeps the last segment and puts it before the next fragment sees the segments of the
whole text, wherever the fragments end (`feed_eq`).
-/

namespace Split

variable {α : Type _}

/-- A text before the first segment. -/
def before (a : List α) : List (List α) × List α → List (List α) × List α
  | ([], last) => ([], a ++ last)
  | (first :: segments, last) => ((a ++ first) :: segments, last)

@[simp] theorem before_nil (x : List (List α) × List α) : before [] x = x := by
  obtain ⟨_ | ⟨first, segments⟩, last⟩ := x <;> rfl

@[simp] theorem before_before (a b : List α) (x : List (List α) × List α) :
    before a (before b x) = before (a ++ b) x := by
  obtain ⟨_ | ⟨first, segments⟩, last⟩ := x <;> simp [before]

variable [DecidableEq α] (sep : List α)

/-- The segments of a text whose first `skip` characters belong to a separator. -/
def cutFrom : (skip : Nat) → List α → List (List α) × List α
  | _, [] => ([], [])
  | skip + 1, _ :: s => cutFrom skip s
  | 0, c :: s =>
    if sep <+: c :: s then
      ([] :: (cutFrom (sep.length - 1) s).1, (cutFrom (sep.length - 1) s).2)
    else before [c] (cutFrom 0 s)

/-- The segments but the last, and the last. -/
def cut (s : List α) : List (List α) × List α := cutFrom sep 0 s

def split (s : List α) : List (List α) := (cut sep s).1 ++ [(cut sep s).2]

@[simp] theorem dropLast_split (s : List α) : (split sep s).dropLast = (cut sep s).1 :=
  List.dropLast_concat

@[simp] theorem getLast?_split (s : List α) : (split sep s).getLast? = some (cut sep s).2 :=
  List.getLast?_concat

variable {sep}

theorem cut_nil : cut sep [] = ([], []) := by rw [cut, cutFrom]

/-- Where no separator begins, a character goes to the first segment. -/
theorem cut_cons {c : α} {s : List α} (h : ¬ sep <+: c :: s) :
    cut sep (c :: s) = before [c] (cut sep s) := by
  rw [cut, cutFrom, if_neg h, cut]

theorem eq_of_cut_nil {s : List α} (h : (cut sep s).1 = []) : (cut sep s).2 = s := by
  induction s with
  | nil => rw [cut_nil]
  | cons c s ih =>
    by_cases hc : sep <+: c :: s
    · rw [cut, cutFrom, if_pos hc] at h
      cases h
    · rw [cut_cons hc] at h ⊢
      cases hs : cut sep s with
      | mk segments last =>
        rw [hs] at h ih
        cases segments with
        | nil => exact congrArg (c :: ·) (ih rfl)
        | cons first segments => cases h

theorem cut_short {s : List α} (h : s.length < sep.length) : cut sep s = ([], s) := by
  induction s with
  | nil => exact cut_nil
  | cons c s ih =>
    rw [cut_cons fun hp => absurd hp.length_le (Nat.not_le.2 h), ih (Nat.lt_of_succ_lt h)]
    rfl

/-- A cut of the text so far is a cut of the whole one but for the last segment. -/
theorem cutFrom_append (t : List α) (s : List α) : ∀ skip ≤ s.length,
    cutFrom sep skip (s ++ t) =
      ((cutFrom sep skip s).1 ++ (cut sep ((cutFrom sep skip s).2 ++ t)).1,
        (cut sep ((cutFrom sep skip s).2 ++ t)).2) := by
  induction s with
  | nil =>
    intro skip h
    rw [Nat.le_zero.1 h, cutFrom]
    rfl
  | cons c s ih =>
    intro skip h
    cases skip with
    | succ skip => exact ih skip (Nat.le_of_succ_le_succ h)
    | zero =>
      by_cases hs : sep <+: c :: s
      · have hlen : sep.length - 1 ≤ s.length := Nat.sub_le_of_le_add hs.length_le
        have hst : sep <+: c :: (s ++ t) := hs.trans (List.prefix_append (c :: s) t)
        rw [List.cons_append, cutFrom, if_pos hst, cutFrom, if_pos hs, ih _ hlen]
        rfl
      · have hcut : cutFrom sep 0 (c :: s) = before [c] (cut sep s) := cut_cons hs
        by_cases hst : sep <+: c :: (s ++ t)
        · -- the separator begins here and ends in `t`
          have hshort : (c :: s).length < sep.length := by
            by_contra hle
            exact hs (List.prefix_of_prefix_length_le hst (List.prefix_append (c :: s) t)
              (Nat.not_lt.1 hle))
          rw [show cutFrom sep 0 (c :: s) = cut sep (c :: s) from rfl, cut_short hshort]
          rfl
        · rw [List.cons_append, show cutFrom sep 0 (c :: (s ++ t)) = _ from cut_cons hst, hcut,
            show cut sep (s ++ t) = _ from ih 0 (Nat.zero_le _)]
          change before [c] ((cut sep s).1 ++ (cut sep ((cut sep s).2 ++ t)).1, _) = _
          cases hseg : (cut sep s).1 with
          | cons first segments =>
            rw [show cut sep s = (first :: segments, (cut sep s).2) from Prod.ext hseg rfl]
            rfl
          | nil =>
            have hone : cut sep s = ([], s) := Prod.ext hseg (eq_of_cut_nil hseg)
            rw [show cutFrom sep 0 s = ([], s) from hone, hone]
            exact (cut_cons hst).symm

/-- **Incremental cutting**: the last segment and the next fragment give the segments that are
left. -/
theorem cut_append (s t : List α) :
    cut sep (s ++ t) =
      ((cut sep s).1 ++ (cut sep ((cut sep s).2 ++ t)).1, (cut sep ((cut sep s).2 ++ t)).2) :=
  cutFrom_append t s 0 (Nat.zero_le _)

theorem cut_last (s : List α) : cut sep (cut sep s).2 = ([], (cut sep s).2) := by
  have h : cut sep (s ++ []) = _ := cut_append s []
  rw [List.append_nil, List.append_nil] at h
  have h1 : (cut sep s).1 ++ (cut sep (cut sep s).2).1 = (cut sep s).1 :=
    (congrArg Prod.fst h).symm
  exact Prod.ext (List.append_right_eq_self.1 h1) (congrArg Prod.snd h).symm

/-! ## Fragments -/

variable (sep) in
/-- A reader that keeps the last segment for the next fragment: the segments it sees, and what it
keeps at the end. -/
def feed (rest : List α) : List (List α) → List (List α) × List α
  | [] => ([], rest)
  | fragment :: fragments =>
    let (segments, rest) := cut sep (rest ++ fragment)
    ((segments ++ (feed rest fragments).1), (feed rest fragments).2)

/-- **However a text arrives**, the reader sees its segments. -/
theorem feed_eq (fragments : List (List α)) : ∀ rest, cut sep rest = ([], rest) →
    feed sep rest fragments = cut sep (rest ++ fragments.flatten) := by
  induction fragments with
  | nil =>
    intro rest h
    rw [feed, List.flatten_nil, List.append_nil, h]
  | cons fragment fragments ih =>
    intro rest h
    rw [List.flatten_cons, ← List.append_assoc, cut_append (rest ++ fragment),
      ← ih _ (cut_last _)]
    rfl

/-! ## Texts of which the segments are known -/

theorem cut_append_free {a : List α} (h : ∀ c ∈ a, sep.head? ≠ some c) (hsep : sep ≠ [])
    (s : List α) : cut sep (a ++ s) = before a (cut sep s) := by
  induction a with
  | nil => exact (before_nil _).symm
  | cons c a ih =>
    have hc : ¬ sep <+: c :: (a ++ s) := by
      rintro ⟨t, ht⟩
      obtain ⟨d, tail, rfl⟩ := List.exists_cons_of_ne_nil hsep
      exact h c List.mem_cons_self (congrArg some (List.cons.inj ht).1)
    rw [List.cons_append, cut_cons hc, ih fun d hd => h d (List.mem_cons_of_mem _ hd),
      before_before, List.singleton_append]

theorem cutFrom_length (a s : List α) : cutFrom sep a.length (a ++ s) = cut sep s := by
  induction a with
  | nil => rfl
  | cons c a ih => exact ih

/-- A separator ends a segment. -/
theorem cut_sep (hsep : sep ≠ []) (s : List α) :
    cut sep (sep ++ s) = ([] :: (cut sep s).1, (cut sep s).2) := by
  obtain ⟨c, tail, rfl⟩ := List.exists_cons_of_ne_nil hsep
  have hp : c :: tail <+: c :: (tail ++ s) := List.prefix_append (c :: tail) s
  rw [List.cons_append, cut, cutFrom, if_pos hp]
  exact congrArg (fun x => ([] :: x.1, x.2)) (cutFrom_length tail s)

end Split
