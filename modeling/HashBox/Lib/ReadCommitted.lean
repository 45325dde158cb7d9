import Mathlib.Logic.Function.Basic

/-!
# Statements under READ COMMITTED

Exclusive locks that a transaction keeps until it ends, and the way a statement goes over rows. A
`SELECT … FOR UPDATE`, an `UPDATE` or a `DELETE` takes a snapshot when it starts, which gives the
keys of a `Scan`; it then comes to one row after the other. `visit` is one such row: it waits while
another transaction has the row locked, and checks the condition again on the row's last committed
version, so that a row which was committed in between is seen as it is now.
-/

/-- The owner of each lock. -/
abbrev Locks (κ : Type _) := κ → Option Nat

namespace Locks

variable {κ : Type _} {l l' : Locks κ} {t t' : Nat} {k k' : κ}

def free : Locks κ := fun _ => none

/-- `none`: the transaction has to wait. A lock it has already it gets again. -/
def acquire [DecidableEq κ] (l : Locks κ) (t : Nat) (k : κ) : Option (Locks κ) :=
  if l k = none ∨ l k = some t then some (Function.update l k (some t)) else none

/-- The locks of all rows that a statement takes as one step. -/
def acquireAll [DecidableEq κ] (l : Locks κ) (t : Nat) (ks : List κ) : Option (Locks κ) :=
  if ∀ k ∈ ks, l k = none ∨ l k = some t then some fun k => if k ∈ ks then some t else l k
  else none

/-- At the end of the transaction. -/
def release (l : Locks κ) (t : Nat) : Locks κ := fun k => if l k = some t then none else l k

section
variable [DecidableEq κ]

theorem acquire_owner (h : l.acquire t k = some l') : l' k = some t := by
  unfold acquire at h
  split at h
  · cases h
    simp
  · cases h

theorem acquire_keeps (h : l.acquire t k = some l') (hk : l k' = some t') : l' k' = some t' := by
  unfold acquire at h
  split at h
  · rename_i hfree
    cases h
    by_cases he : k' = k
    · subst he
      have ht : t' = t := by simpa [hk] using hfree
      simp [ht]
    · simpa [he] using hk
  · cases h

theorem acquireAll_free {ks : List κ} (h : l.acquireAll t ks = some l') (hk : k ∈ ks) :
    l k = none ∨ l k = some t := by
  unfold acquireAll at h
  split at h
  · next hfree => exact hfree k hk
  · cases h

theorem acquireAll_owner {ks : List κ} (h : l.acquireAll t ks = some l') (hk : k ∈ ks) :
    l' k = some t := by
  unfold acquireAll at h
  split at h
  · cases h
    exact if_pos hk
  · cases h

theorem acquireAll_keeps {ks : List κ} (h : l.acquireAll t ks = some l') (hk : l k = some t') :
    l' k = some t' := by
  by_cases hmem : k ∈ ks
  · rcases acquireAll_free h hmem with hfree | hown
    · rw [hk] at hfree
      cases hfree
    · rw [acquireAll_owner h hmem, ← hown, hk]
  · unfold acquireAll at h
    split at h
    · cases h
      exact (if_neg hmem).trans hk
    · cases h

end

theorem release_other (hk : l k = some t') (ht : t' ≠ t) : l.release t k = some t' := by
  have hne : l k ≠ some t := by simpa [hk] using ht
  rw [release, if_neg hne, hk]

end Locks

/-- The condition of a statement, and the rows of its snapshot that it has still to come to. -/
structure Scan (α κ : Type _) where
  cond : α → Bool
  todo : List κ

namespace Scan

variable {α κ : Type _} {K : α → κ}

/-- The statement starts: its snapshot is what is committed now. -/
def start (K : α → κ) (rows : List α) (cond : α → Bool) : Scan α κ :=
  ⟨cond, (rows.filter cond).map K⟩

/-- It will come to every row that meets the condition then. -/
theorem mem_start {rows : List α} {cond : α → Bool} {r : α} (hr : r ∈ rows) (hc : cond r = true) :
    K r ∈ (start K rows cond).todo :=
  List.mem_map_of_mem (List.mem_filter.2 ⟨hr, hc⟩)

variable [DecidableEq κ]

/-- The statement comes to the row with the key `k`: `none` if it has to wait, else the locks and
the row, if it is there and still meets the condition. A row that does not is locked all the
same. -/
def visit (K : α → κ) (rows : List α) (cond : α → Bool) (l : Locks κ) (t : Nat) (k : κ) :
    Option (Locks κ × Option α) :=
  match rows.find? fun r => decide (K r = k) with
  | none => some (l, none)
  | some r => (l.acquire t k).map fun l' => (l', if cond r then some r else none)

variable {rows : List α} {cond : α → Bool} {l l' : Locks κ} {t t' : Nat} {k k' : κ} {o : Option α}

theorem visit_keeps (h : visit K rows cond l t k = some (l', o)) (hk : l k' = some t') :
    l' k' = some t' := by
  unfold visit at h
  split at h
  · cases h
    exact hk
  · obtain ⟨l1, hl, he⟩ := Option.map_eq_some_iff.1 h
    cases he
    exact Locks.acquire_keeps hl hk

/-- A row that a statement acts on is there, meets the condition and is locked. -/
theorem visit_row {r : α} (h : visit K rows cond l t k = some (l', some r)) :
    r ∈ rows ∧ K r = k ∧ cond r = true ∧ l' k = some t := by
  unfold visit at h
  split at h
  · cases h
  · rename_i q hq
    obtain ⟨l1, hl, he⟩ := Option.map_eq_some_iff.1 h
    split at he
    · rename_i hc
      cases he
      exact ⟨List.mem_of_find?_eq_some hq, by simpa using List.find?_some hq, hc,
        Locks.acquire_owner hl⟩
    · cases he

/-- A row that a statement passes over does not meet the condition. -/
theorem visit_none (hkey : ∀ r ∈ rows, ∀ r' ∈ rows, K r = K r' → r = r')
    (h : visit K rows cond l t k = some (l', none)) {r : α} (hr : r ∈ rows) (hk : K r = k) :
    cond r = false := by
  unfold visit at h
  split at h
  · rename_i hnone
    exact absurd (decide_eq_true hk) (List.find?_eq_none.1 hnone r hr)
  · rename_i q hq
    obtain ⟨l1, -, he⟩ := Option.map_eq_some_iff.1 h
    have hqk : K q = k := by simpa using List.find?_some hq
    obtain rfl : q = r := hkey q (List.mem_of_find?_eq_some hq) r hr (hqk.trans hk.symm)
    split at he
    · cases he
    · rename_i hc
      exact Bool.eq_false_iff.2 hc

end Scan
