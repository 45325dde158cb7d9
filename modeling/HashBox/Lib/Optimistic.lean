import Mathlib.Data.List.Sigma
import Mathlib.Logic.Function.Basic

/-!
# Optimistic transactions

A transaction reads the database as it was when it began and buffers what it writes. It may commit
unless a key that it has read has been written by a transaction that committed since. A transaction
that may commit has seen what the database holds at its commit (`Pending.Since.serial`), so it is
one atomic step there.

Each key has its own type of values. `Txn` is the program of a transaction, `eval` its outcome on a
snapshot, `Versions` the time of the last commit that wrote each key.
-/

namespace Optimistic

variable {κ : Type _} {ν : κ → Type _} {ε ρ : Type _}

/-- The value of each key, if it has one. -/
abbrev View (ν : κ → Type _) := ∀ k, Option (ν k)

inductive Txn (ν : κ → Type _) (ε ρ : Type _)
  | get (k : κ) (next : Option (ν k) → Txn ν ε ρ)
  | set (k : κ) (v : ν k) (next : Txn ν ε ρ)
  | ret (x : ρ)
  | fail (e : ε)

/-- What a transaction has read of the snapshot, what it will write (the last write of a key comes
first), and how it ends. -/
structure Outcome (ν : κ → Type _) (ε ρ : Type _) where
  reads : List κ
  writes : List (Sigma ν)
  result : Except ε ρ

/-- What the writes make of the database. -/
def applyWrites [DecidableEq κ] (ws : List (Sigma ν)) (db : View ν) : View ν := fun k =>
  match ws.dlookup k with
  | some v => some v
  | none => db k

namespace Txn

def map {ρ' : Type _} (f : ρ → ρ') : Txn ν ε ρ → Txn ν ε ρ'
  | .get k next => .get k fun v => (next v).map f
  | .set k v next => .set k v (next.map f)
  | .ret x => .ret (f x)
  | .fail e => .fail e

variable [DecidableEq κ]

/-- A key that the transaction has written it reads from its buffer. -/
def eval (db : View ν) : Txn ν ε ρ → List (Sigma ν) → Outcome ν ε ρ
  | .get k next, ws =>
    match ws.dlookup k with
    | some v => (next (some v)).eval db ws
    | none =>
      let o := (next (db k)).eval db ws
      { o with reads := k :: o.reads }
  | .set k v next, ws => next.eval db (⟨k, v⟩ :: ws)
  | .ret x, ws => ⟨[], ws, .ok x⟩
  | .fail e, ws => ⟨[], ws, .error e⟩

theorem eval_get (db : View ν) (k : κ) (next : Option (ν k) → Txn ν ε ρ) (ws : List (Sigma ν)) :
    ((Txn.get k next).eval db ws).writes = ((next (applyWrites ws db k)).eval db ws).writes ∧
      ((Txn.get k next).eval db ws).result =
        ((next (applyWrites ws db k)).eval db ws).result := by
  cases hv : ws.dlookup k <;> simp only [eval, applyWrites, hv, and_self]

/-- **A transaction depends on what it reads**, and on nothing else. -/
theorem eval_congr {db db' : View ν} (t : Txn ν ε ρ) : ∀ {ws : List (Sigma ν)},
    (∀ k ∈ (t.eval db ws).reads, db' k = db k) → t.eval db' ws = t.eval db ws := by
  induction t with
  | get k next ih =>
    intro ws h
    cases hv : ws.dlookup k with
    | some v =>
      simp only [eval, hv] at h ⊢
      exact ih (some v) h
    | none =>
      simp only [eval, hv] at h ⊢
      obtain ⟨hk, hrest⟩ := List.forall_mem_cons.1 h
      rw [hk, ih (db k) hrest]
  | set k v next ih => exact fun h => ih h
  | ret x => exact fun _ => rfl
  | fail e => exact fun _ => rfl

end Txn

/-! ## Versions -/

/-- The time of the last commit, and of the last one that wrote each key. -/
structure Versions (κ : Type _) where
  version : κ → Nat
  ts : Nat

variable [DecidableEq κ]

namespace Versions

def zero : Versions κ := ⟨fun _ => 0, 0⟩

/-- A transaction that has written `keys` commits. One that has written nothing takes no time. -/
def commit (v : Versions κ) (keys : List κ) : Versions κ :=
  if keys = [] then v else ⟨fun k => if k ∈ keys then v.ts + 1 else v.version k, v.ts + 1⟩

end Versions

/-- A transaction that has begun: the time of its snapshot, and its outcome on it. -/
structure Pending (ν : κ → Type _) (ε ρ : Type _) where
  readTs : Nat
  outcome : Outcome ν ε ρ

namespace Pending

def begin (db : View ν) (v : Versions κ) (t : Txn ν ε ρ) : Pending ν ε ρ := ⟨v.ts, t.eval db []⟩

/-- A key that the transaction has read was written after its snapshot. -/
def conflicts (p : Pending ν ε ρ) (v : Versions κ) : Bool :=
  p.outcome.reads.any fun k => decide (p.readTs < v.version k)

/-- What the transaction ends with, where `conflict` is the error of one that may not commit. -/
def close (p : Pending ν ε ρ) (v : Versions κ) (conflict : ε) : Except ε ρ :=
  match p.outcome.result with
  | .error e => .error e
  | .ok x => if p.conflicts v then .error conflict else .ok x

/-- The transaction began with `t`, on a snapshot that differs from `db` in keys that have been
written since. -/
def Since (db : View ν) (v : Versions κ) (t : Txn ν ε ρ) (p : Pending ν ε ρ) : Prop :=
  ∃ snapshot, p.outcome = t.eval snapshot [] ∧ p.readTs ≤ v.ts ∧
    ∀ k, v.version k ≤ p.readTs → db k = snapshot k

variable {db db' : View ν} {v : Versions κ} {t : Txn ν ε ρ} {p : Pending ν ε ρ}

theorem since_begin (db : View ν) (v : Versions κ) (t : Txn ν ε ρ) :
    Since db v t (begin db v t) :=
  ⟨db, rfl, Nat.le_refl _, fun _ _ => rfl⟩

theorem Since.commit (h : Since db v t p) {keys : List κ} (hsame : ∀ k, k ∉ keys → db' k = db k) :
    Since db' (v.commit keys) t p := by
  obtain ⟨snapshot, ho, hts, hdb⟩ := h
  unfold Versions.commit
  split
  · next hk => exact ⟨snapshot, ho, hts, fun k h => (hsame k (by simp [hk])).trans (hdb k h)⟩
  · refine ⟨snapshot, ho, Nat.le_succ_of_le hts, fun k hk => ?_⟩
    dsimp only at hk
    split at hk
    · omega
    · next hmem => exact (hsame k hmem).trans (hdb k hk)

/-- **A transaction without a conflict has the outcome it would have now.** -/
theorem Since.serial (h : Since db v t p) (hc : p.conflicts v = false) :
    p.outcome = t.eval db [] := by
  obtain ⟨snapshot, ho, -, hdb⟩ := h
  rw [ho]
  refine (Txn.eval_congr t fun k hk => hdb k ?_).symm
  rw [← ho] at hk
  simp only [conflicts, List.any_eq_false, decide_eq_true_eq, Nat.not_lt] at hc
  exact hc k hk

end Pending

end Optimistic
