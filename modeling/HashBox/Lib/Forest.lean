import Mathlib.Data.Set.Basic

/-!
# Forests as their ancestor relation

`le a d`: the node `a` is `d` or an ancestor of `d`. `IsForest le`: the relation is transitive and
the ancestors of a node are linearly ordered, which is what makes it a forest. A new node is a leaf
(`addLeaf`), and a set of nodes can be cut out (`outside`).

A set of marks is `Hereditary` when the descendants of a marked node are marked. Marking a subtree
keeps it so; taking the marks off a subtree does, when no proper ancestor of its root is marked.
`RootHereditary` asks this of the marked roots of the forest only, and then only a marked root above
stands in the way.
-/

namespace Forest

variable {ι : Type _} {le : ι → ι → Prop} {marks : Set ι}

structure IsForest (le : ι → ι → Prop) : Prop where
  trans : ∀ {a b c}, le a b → le b c → le a c
  linear : ∀ {a b d}, le a d → le b d → le a b ∨ le b a

/-- A new node `n` below `parent`, or as a root. -/
def addLeaf (le : ι → ι → Prop) (n : ι) (parent : Option ι) (a d : ι) : Prop :=
  le a d ∨ (d = n ∧ (a = n ∨ ∃ p, parent = some p ∧ le a p))

/-- The relation without the nodes of `cut`. -/
def outside (le : ι → ι → Prop) (cut : Set ι) (a d : ι) : Prop := le a d ∧ a ∉ cut ∧ d ∉ cut

def subtree (le : ι → ι → Prop) (root : ι) : Set ι := {d | le root d}

/-- The node is new to the relation. -/
def Fresh (le : ι → ι → Prop) (n : ι) : Prop := ∀ a, ¬ le n a ∧ ¬ le a n

theorem IsForest.addLeaf (h : IsForest le) {n : ι} (hn : Fresh le n) (parent : Option ι) :
    IsForest (addLeaf le n parent) where
  trans := by
    rintro a b c (hab | ⟨rfl, hab⟩) (hbc | ⟨rfl, hbc⟩)
    · exact .inl (h.trans hab hbc)
    · rcases hbc with rfl | ⟨p, hp, hbp⟩
      · exact absurd hab (hn a).2
      · exact .inr ⟨rfl, .inr ⟨p, hp, h.trans hab hbp⟩⟩
    · exact absurd hbc (hn c).1
    · exact .inr ⟨rfl, hab⟩
  linear := by
    rintro a b d (had | ⟨rfl, had⟩) (hbd | ⟨hd, hbd⟩)
    · exact (h.linear had hbd).imp .inl .inl
    · exact absurd (hd ▸ had) (hn a).2
    · exact absurd hbd (hn b).2
    · rcases had with rfl | ⟨p, hp, hap⟩
      · exact .inr (.inr ⟨rfl, hbd⟩)
      · rcases hbd with rfl | ⟨p', hp', hbp⟩
        · exact .inl (.inr ⟨rfl, .inr ⟨p, hp, hap⟩⟩)
        · cases hp.symm.trans hp'
          exact (h.linear hap hbp).imp .inl .inl

theorem IsForest.outside (h : IsForest le) (cut : Set ι) : IsForest (outside le cut) where
  trans hab hbc := ⟨h.trans hab.1 hbc.1, hab.2.1, hbc.2.2⟩
  linear had hbd :=
    (h.linear had.1 hbd.1).imp (⟨·, had.2.1, hbd.2.1⟩) (⟨·, hbd.2.1, had.2.1⟩)

/-! ## Marks -/

/-- The descendants of a marked node are marked. -/
def Hereditary (le : ι → ι → Prop) (marks : Set ι) : Prop :=
  ∀ a d, le a d → a ∈ marks → d ∈ marks

/-- No proper ancestor of the node is marked. -/
def TopMarked (le : ι → ι → Prop) (marks : Set ι) (n : ι) : Prop := ∀ a, le a n → a ∈ marks → a = n

theorem Hereditary.mark (h : Hereditary le marks) (hf : IsForest le) (root : ι) :
    Hereditary le (marks ∪ subtree le root) := by
  rintro a d had (ha | ha)
  · exact .inl (h a d had ha)
  · exact .inr (hf.trans ha had)

/-- **Taking the marks off a subtree** below no marked node. -/
theorem Hereditary.unmark (h : Hereditary le marks) (hf : IsForest le) {root : ι}
    (htop : TopMarked le marks root) : Hereditary le (marks \ subtree le root) := by
  rintro a d had ⟨ha, hsub⟩
  refine ⟨h a d had ha, fun hd => ?_⟩
  -- `a` and the root are both ancestors of `d`, so one is below the other
  rcases hf.linear had hd with hroot | hroot
  · exact hsub (htop a hroot ha ▸ hroot)
  · exact hsub hroot

theorem Hereditary.addLeaf (h : Hereditary le marks) {n : ι} (hnm : n ∉ marks) {parent : Option ι}
    (hp : ∀ p, parent = some p → p ∉ marks) : Hereditary (addLeaf le n parent) marks := by
  rintro a d (had | ⟨rfl, rfl | ⟨p, hpp, hap⟩⟩) ha
  · exact h a d had ha
  · exact ha
  · exact absurd (h a p hap ha) (hp p hpp)

theorem Hereditary.outside (h : Hereditary le marks) (cut : Set ι) :
    Hereditary (outside le cut) (marks \ cut) :=
  fun a d had ha => ⟨h a d had.1 ha.1, had.2.2⟩

/-! ## Marked roots -/

/-- The node has no proper ancestor. -/
def IsRoot (le : ι → ι → Prop) (r : ι) : Prop := ∀ a, le a r → a = r

/-- The descendants of a marked root are marked. -/
def RootHereditary (le : ι → ι → Prop) (marks : Set ι) : Prop :=
  ∀ r d, IsRoot le r → le r d → r ∈ marks → d ∈ marks

/-- The root above the node is not marked, unless it is the node. -/
def RootUnmarked (le : ι → ι → Prop) (marks : Set ι) (n : ι) : Prop :=
  ∀ r, IsRoot le r → le r n → r ∈ marks → r = n

theorem RootHereditary.mark (h : RootHereditary le marks) (root : ι) :
    RootHereditary le (marks ∪ subtree le root) := by
  rintro r d hr hrd (hm | hm)
  · exact .inl (h r d hr hrd hm)
  · rw [← hr root hm] at hrd
    exact .inr hrd

theorem RootHereditary.unmark (h : RootHereditary le marks) (hf : IsForest le) {root : ι}
    (htop : RootUnmarked le marks root) : RootHereditary le (marks \ subtree le root) := by
  rintro r d hr hrd ⟨hm, hsub⟩
  refine ⟨h r d hr hrd hm, fun hd => ?_⟩
  rcases hf.linear hrd hd with hroot | hroot
  · exact hsub (htop r hr hroot hm ▸ hroot)
  · exact hsub hroot

theorem RootHereditary.addLeaf (h : RootHereditary le marks) {n : ι} {parent : Option ι}
    (hp : ∀ p, parent = some p → p ∉ marks) : RootHereditary (addLeaf le n parent) marks := by
  rintro r d hr hrd hm
  have hold : IsRoot le r := fun a ha => hr a (.inl ha)
  rcases hrd with hrd | ⟨rfl, rfl | ⟨p, hpp, hrp⟩⟩
  · exact h r d hold hrd hm
  · exact hm
  · exact absurd (h r p hold hrp hm) (hp p hpp)

/-- Whole subtrees are cut out, so no root is new. -/
theorem RootHereditary.outside (h : RootHereditary le marks) {cut : Set ι}
    (hcut : Hereditary le cut) : RootHereditary (outside le cut) (marks \ cut) := by
  rintro r d hr ⟨hrd, hrc, hdc⟩ hm
  exact ⟨h r d (fun a ha => hr a ⟨ha, fun hac => hrc (hcut a r ha hac), hrc⟩) hrd hm.1, hdc⟩

end Forest
