import HashBox.Lib.Forest
import Mathlib.Order.RelClasses
import Mathlib.Logic.Relation

/-!
# Hierarchies: nodes with parent links

`ancestor k a d`: the node `a` is reached from `d` by `k` parent links. There are no cycles
(`not_ancestor_self`), and every node is below a root (`exists_root`). A new node is a leaf
(`addLeaf`), and a node can be cut out with what is below it (`cut`); `ancestor_addLeaf` and
`ancestor_cut` say what becomes of the links.
-/

/-- Nodes that have at most one parent each, without cycles. -/
structure Hierarchy (ι : Type _) where
  nodes : Set ι
  parent : ι → Option ι
  parent_mem : ∀ {d p}, parent d = some p → d ∈ nodes ∧ p ∈ nodes
  wf : WellFounded fun p d => parent d = some p

namespace Hierarchy

variable {ι : Type _} {t : Hierarchy ι} {a b d n p : ι} {j k : Nat}

def empty : Hierarchy ι where
  nodes := ∅
  parent _ := none
  parent_mem h := by cases h
  wf := ⟨fun d => ⟨d, fun _ h => by cases h⟩⟩

/-- `a` is reached from `d` by `k` parent links. -/
def ancestor (t : Hierarchy ι) : Nat → ι → ι → Prop
  | 0, a, d => a = d
  | k + 1, a, d => ∃ p, t.parent d = some p ∧ t.ancestor k a p

/-- The node and what is below it. -/
def below (t : Hierarchy ι) (root : ι) : Set ι := {d | d ∈ t.nodes ∧ ∃ k, t.ancestor k root d}

theorem ancestor_mem (hd : d ∈ t.nodes) (h : t.ancestor k a d) : a ∈ t.nodes := by
  induction k generalizing d with
  | zero => exact h ▸ hd
  | succ k ih =>
    obtain ⟨p, hp, h⟩ := h
    exact ih (t.parent_mem hp).2 h

theorem ancestor_unique (ha : t.ancestor k a d) (hb : t.ancestor k b d) : a = b := by
  induction k generalizing d with
  | zero => exact ha.trans hb.symm
  | succ k ih =>
    obtain ⟨p, hp, ha⟩ := ha
    obtain ⟨q, hq, hb⟩ := hb
    cases hp.symm.trans hq
    exact ih ha hb

theorem ancestor_one : t.ancestor 1 p d ↔ t.parent d = some p := by
  constructor
  · rintro ⟨q, hq, rfl⟩
    exact hq
  · exact fun h => ⟨p, h, rfl⟩

theorem transGen_of_ancestor (h : t.ancestor (k + 1) a d) :
    Relation.TransGen (fun p d => t.parent d = some p) a d := by
  induction k generalizing d with
  | zero => exact .single (ancestor_one.1 h)
  | succ k ih =>
    obtain ⟨p, hp, h⟩ := h
    exact (ih h).tail hp

/-- **There are no cycles.** -/
theorem not_ancestor_self : ¬ t.ancestor (k + 1) d d :=
  fun h => t.wf.transGen.asymmetric _ _ (transGen_of_ancestor h) (transGen_of_ancestor h)

/-- **Every node is below a root.** -/
theorem exists_root (t : Hierarchy ι) (d : ι) : ∃ k r, t.ancestor k r d ∧ t.parent r = none := by
  induction d using t.wf.induction with
  | _ d ih =>
    cases hp : t.parent d with
    | none => exact ⟨0, d, rfl, hp⟩
    | some p =>
      obtain ⟨k, r, hr, hn⟩ := ih p hp
      exact ⟨k + 1, r, ⟨p, hp, hr⟩, hn⟩

/-! ## Leaves -/

section
variable [DecidableEq ι]

theorem parent_update {parent : Option ι} (h : Function.update t.parent n parent d = some p) :
    (d = n ∧ parent = some p) ∨ (d ≠ n ∧ t.parent d = some p) := by
  by_cases hd : d = n
  · rw [hd, Function.update_self] at h
    exact .inl ⟨hd, h⟩
  · rw [Function.update_of_ne hd] at h
    exact .inr ⟨hd, h⟩

/-- A new node below `parent`, or as a root. -/
def addLeaf (t : Hierarchy ι) (n : ι) (parent : Option ι) (hn : n ∉ t.nodes)
    (hp : ∀ p, parent = some p → p ∈ t.nodes) : Hierarchy ι where
  nodes := insert n t.nodes
  parent := Function.update t.parent n parent
  parent_mem h := by
    rcases parent_update h with ⟨hd, h'⟩ | ⟨-, h'⟩
    · exact ⟨.inl hd, .inr (hp _ h')⟩
    · exact ⟨.inr (t.parent_mem h').1, .inr (t.parent_mem h').2⟩
  wf := by
    -- the old nodes first: their parents are old nodes
    have old : ∀ d, d ≠ n → Acc (fun p d => Function.update t.parent n parent d = some p) d := by
      intro d
      induction d using t.wf.induction with
      | _ d ih =>
        intro hd
        refine ⟨d, fun p hpd => ?_⟩
        rcases parent_update hpd with ⟨h, -⟩ | ⟨-, h⟩
        · exact absurd h hd
        · exact ih p h fun hpn => hn (hpn ▸ (t.parent_mem h).2)
    refine ⟨fun d => ⟨d, fun p hpd => old p ?_⟩⟩
    rintro rfl
    rcases parent_update hpd with ⟨-, h⟩ | ⟨-, h⟩
    · exact hn (hp _ h)
    · exact hn (t.parent_mem h).2

variable {parent : Option ι} {hn : n ∉ t.nodes} {hp : ∀ p, parent = some p → p ∈ t.nodes}

theorem ancestor_addLeaf (hd : d ≠ n) :
    (t.addLeaf n parent hn hp).ancestor k a d ↔ t.ancestor k a d := by
  induction k generalizing d with
  | zero => exact Iff.rfl
  | succ k ih =>
    refine exists_congr fun p => ?_
    have hpar : (t.addLeaf n parent hn hp).parent d = t.parent d := Function.update_of_ne hd ..
    rw [hpar]
    refine and_congr_right fun hpd => ih ?_
    rintro rfl
    exact hn (t.parent_mem hpd).2

/-- The links of the new node go on from its parent. -/
theorem ancestor_addLeaf_self : (t.addLeaf n parent hn hp).ancestor k a n ↔
    (k = 0 ∧ a = n) ∨ ∃ j p, k = j + 1 ∧ parent = some p ∧ t.ancestor j a p := by
  have hne : ∀ p, parent = some p → p ≠ n := fun p hpp hpn => hn (hpn ▸ hp p hpp)
  have hself : (t.addLeaf n parent hn hp).parent n = parent := Function.update_self ..
  constructor
  · intro h
    cases k with
    | zero => exact .inl ⟨rfl, h⟩
    | succ k =>
      obtain ⟨p, hpn, h⟩ := h
      rw [hself] at hpn
      exact .inr ⟨k, p, rfl, hpn, (ancestor_addLeaf (hne p hpn)).1 h⟩
  · rintro (⟨rfl, rfl⟩ | ⟨j, p, rfl, hpp, h⟩)
    · rfl
    · exact ⟨p, hself.trans hpp, (ancestor_addLeaf (hne p hpp)).2 h⟩

end

/-! ## Cuts -/

open Classical in
/-- Without the node and what is below it. -/
noncomputable def cut (t : Hierarchy ι) (root : ι) : Hierarchy ι where
  nodes := t.nodes \ t.below root
  parent d := if d ∈ t.below root then none else t.parent d
  parent_mem {d p} h := by
    split at h
    · cases h
    · next hd =>
      have hm := t.parent_mem h
      exact ⟨⟨hm.1, hd⟩, hm.2, fun ⟨_, k, hk⟩ => hd ⟨hm.1, k + 1, p, h, hk⟩⟩
  wf := Subrelation.wf (fun {p d} h => by split at h; cases h; exact h) t.wf

/-- A node that is left keeps its links. -/
theorem ancestor_cut {root : ι} (hd : d ∈ t.nodes \ t.below root) :
    (t.cut root).ancestor k a d ↔ t.ancestor k a d := by
  induction k generalizing d with
  | zero => exact Iff.rfl
  | succ k ih =>
    refine exists_congr fun p => ?_
    have hpar : (t.cut root).parent d = t.parent d := if_neg hd.2
    rw [hpar]
    refine and_congr_right fun hpd => ih ?_
    rw [← hpar] at hpd
    exact ((t.cut root).parent_mem hpd).2

theorem not_below_of_ancestor {root : ι} (hd : d ∈ t.nodes \ t.below root)
    (h : t.ancestor k a d) : a ∉ t.below root :=
  (ancestor_mem (t := t.cut root) hd ((ancestor_cut hd).2 h)).2

end Hierarchy
