import HashBox.Lib.Hierarchy
import HashBox.Api.Proof.Trash

/-!
# The closure table represents the tree

`Recorded lower db t`: a run reaches `db`, and `t` is the hierarchy of directories the run has made,
each below the parent it was created with. `directory_closure` has the row `(a, d, k)` exactly when
`k` parent links lead from `d` to `a` (`Represents`), after every event (`represents_recorded`,
`closure_represents`).
-/

namespace HashBox.Api

variable {lower : String → String} {db db' : Db} {m m' : Metadata} {t : Hierarchy Uuid}

/-! ## The hierarchy of a run -/

/-- The event creates a directory or destroys one. -/
def Event.reshapes (lower : String → String) (db : Db) : Event × Time → Bool
  | (.call userID (.createDirectory name parentID newID), now) =>
    (serviceCreateDirectory lower db userID name parentID newID now).isOk
  | (.call userID (.permanentDeleteDirectory directoryID), now) =>
    (permanentDeleteSubtree db directoryID userID now).isOk
  | _ => false

/-- The databases that runs reach, with the directories they have created and not destroyed. -/
inductive Recorded (lower : String → String) : Db → Hierarchy Uuid → Prop
  | empty : Recorded lower .empty .empty
  | created {db : Db} {t : Hierarchy Uuid} {userID : Uuid} {name : String} {parentID : Option Uuid}
    {newID : Uuid} {now : Time} {out : Db × DirectoryRecord} (hn : newID ∉ t.nodes)
    (hp : ∀ p, parentID = some p → p ∈ t.nodes) : Recorded lower db t →
    serviceCreateDirectory lower db userID name parentID newID now = .ok out →
    Recorded lower out.1 (t.addLeaf newID parentID hn hp)
  | destroyed {db db' : Db} {t : Hierarchy Uuid} {directoryID userID : Uuid} {now : Time} :
    Recorded lower db t → permanentDeleteSubtree db directoryID userID now = .ok db' →
    Recorded lower db' (t.cut directoryID)
  | other {db db' : Db} {t : Hierarchy Uuid} {e : Event × Time} : Recorded lower db t →
    step lower db e = some db' → Event.reshapes lower db e = false → Recorded lower db' t

/-! ## What the tables say of it -/

def Metadata.directoryIDs (m : Metadata) : List Uuid := m.directories.rows.map (·.idDirektori)

/-- The directories are the nodes, the closure rows are the chains of parent links. -/
structure Represents (m : Metadata) (t : Hierarchy Uuid) : Prop where
  nodes : ∀ d, d ∈ t.nodes ↔ d ∈ m.directoryIDs
  rows : ∀ a d k, (⟨a, d, k⟩ : ClosureRow) ∈ m.directoryClosure.rows ↔
    d ∈ t.nodes ∧ t.ancestor k a d

theorem Represents.empty : Represents Metadata.empty .empty where
  nodes _ := ⟨fun h => (by cases h), fun h => (by cases h)⟩
  rows _ _ _ := ⟨fun h => (by cases h), fun h => (by cases h.1)⟩

theorem Represents.congr (h : Represents m t) (hi : m'.directoryIDs = m.directoryIDs)
    (hc : m'.directoryClosure = m.directoryClosure) : Represents m' t where
  nodes d := by rw [hi, h.nodes]
  rows a d k := by rw [hc, h.rows]

theorem Represents.owned_mem (h : Represents m t) {u d : Uuid} (ho : m.owns u d = true) :
    d ∈ t.nodes := by
  obtain ⟨r, hr, he⟩ := List.mem_map.1 (owns_iff.1 ho)
  exact (h.nodes d).2 (List.mem_map.2 ⟨r, hr, (Prod.mk.inj he).1⟩)

theorem Represents.mem_subtree (h : Represents m t) {root d : Uuid} :
    d ∈ m.subtree root ↔ d ∈ t.below root := by
  rw [Api.mem_subtree]
  constructor
  · rintro ⟨⟨a, d, k⟩, hc, rfl, rfl⟩
    obtain ⟨hd, hk⟩ := (h.rows a d k).1 hc
    exact ⟨hd, k, hk⟩
  · rintro ⟨hd, k, hk⟩
    exact ⟨_, (h.rows root d k).2 ⟨hd, hk⟩, rfl, rfl⟩

theorem Represents.depth_one (h : Represents m t) {p d : Uuid} :
    (⟨p, d, 1⟩ : ClosureRow) ∈ m.directoryClosure.rows ↔ t.parent d = some p := by
  rw [h.rows, Hierarchy.ancestor_one]
  exact ⟨fun h => h.2, fun hp => ⟨(t.parent_mem hp).1, hp⟩⟩

/-! ## What the events make of it -/

/-- The rows `Create` inserts: those of the parent, a level deeper, and the row of the directory
itself. -/
theorem mem_newClosureRows {newID a d : Uuid} {parentID : Option Uuid} {k : Nat} :
    (⟨a, d, k⟩ : ClosureRow) ∈ m.newClosureRows newID parentID ↔
      d = newID ∧ ((k = 0 ∧ a = newID) ∨ ∃ j p, k = j + 1 ∧ parentID = some p ∧
        (⟨a, p, j⟩ : ClosureRow) ∈ m.directoryClosure.rows) := by
  cases parentID with
  | none =>
    simp only [Metadata.newClosureRows, List.mem_singleton, ClosureRow.mk.injEq]
    constructor
    · rintro ⟨rfl, rfl, rfl⟩
      exact ⟨rfl, .inl ⟨rfl, rfl⟩⟩
    · rintro ⟨rfl, ⟨rfl, rfl⟩ | ⟨_, _, _, h, _⟩⟩
      · exact ⟨rfl, rfl, rfl⟩
      · cases h
  | some q =>
    simp only [Metadata.newClosureRows, List.mem_append, List.mem_map, List.mem_filter, beq_iff_eq,
      List.mem_singleton, ClosureRow.mk.injEq]
    constructor
    · rintro (⟨⟨a', d', j⟩, ⟨hc, rfl⟩, rfl, rfl, rfl⟩ | ⟨rfl, rfl, rfl⟩)
      · exact ⟨rfl, .inr ⟨j, d', rfl, rfl, hc⟩⟩
      · exact ⟨rfl, .inl ⟨rfl, rfl⟩⟩
    · rintro ⟨rfl, ⟨rfl, rfl⟩ | ⟨j, p, rfl, hp, hc⟩⟩
      · exact .inr ⟨rfl, rfl, rfl⟩
      · cases hp
        exact .inl ⟨_, ⟨hc, rfl⟩, rfl, rfl, rfl⟩

section
variable {row : DirectoryRow} {parentID : Option Uuid}
  {directories : Table DirectoryRow.idDirektori}
  {directoryClosure : Table fun c : ClosureRow => (c.idInduk, c.idTurunan)}

theorem Represents.fresh (h : Represents m t) (hd : m.directories.insert [row] = some directories) :
    row.idDirektori ∉ t.nodes := by
  intro hmem
  obtain ⟨r, hr, hid⟩ := List.mem_map.1 ((h.nodes _).1 hmem)
  exact Table.insert_new hd hr (List.mem_singleton_self row) hid

theorem Represents.addDirectory (h : Represents m t) (hn : row.idDirektori ∉ t.nodes)
    (hp : ∀ p, parentID = some p → p ∈ t.nodes)
    (hd : m.directories.insert [row] = some directories)
    (hc : m.directoryClosure.insert (m.newClosureRows row.idDirektori parentID) =
      some directoryClosure) :
    Represents { m with directories, directoryClosure }
      (t.addLeaf row.idDirektori parentID hn hp) where
  nodes d := by
    rw [Metadata.directoryIDs, Table.insert_rows hd, List.map_append, List.mem_append]
    show d = row.idDirektori ∨ d ∈ t.nodes ↔ d ∈ m.directoryIDs ∨ d ∈ [row.idDirektori]
    rw [h.nodes, List.mem_singleton, or_comm]
  rows a d k := by
    rw [Table.insert_rows hc, List.mem_append, h.rows, mem_newClosureRows]
    show _ ↔ (d = row.idDirektori ∨ d ∈ t.nodes) ∧ _
    by_cases hdn : d = row.idDirektori
    · subst hdn
      rw [Hierarchy.ancestor_addLeaf_self]
      constructor
      · rintro (⟨hd, -⟩ | ⟨-, h0 | ⟨j, p, hk, hpp, hrow⟩⟩)
        · exact absurd hd hn
        · exact ⟨.inl rfl, .inl h0⟩
        · exact ⟨.inl rfl, .inr ⟨j, p, hk, hpp, ((h.rows a p j).1 hrow).2⟩⟩
      · rintro ⟨-, h0 | ⟨j, p, hk, hpp, hj⟩⟩
        · exact .inr ⟨rfl, .inl h0⟩
        · exact .inr ⟨rfl, .inr ⟨j, p, hk, hpp, (h.rows a p j).2 ⟨hp p hpp, hj⟩⟩⟩
    · rw [Hierarchy.ancestor_addLeaf hdn]
      constructor
      · rintro (hold | ⟨hd, -⟩)
        · exact ⟨.inr hold.1, hold.2⟩
        · exact absurd hd hdn
      · rintro ⟨hd | hd, hk⟩
        · exact absurd hd hdn
        · exact .inl ⟨hd, hk⟩

end

/-- `PermanentDeleteSubtree` cuts the subtree out: the rows it deletes are those that mention it. -/
theorem Represents.remove (h : Represents m t) (ho : Owned m) {root u : Uuid}
    (hr : m.owns u root = true) :
    Represents ((m.removeFiles (m.subtree root)).removeDirectories (m.subtree root) u)
      (t.cut root) where
  nodes d := by
    show d ∈ t.nodes ∧ d ∉ t.below root ↔ _
    rw [h.nodes, ← h.mem_subtree]
    simp only [Metadata.directoryIDs, Metadata.removeFiles, Metadata.removeDirectories,
      List.mem_map, Table.mem_deleteWhere, Bool.and_eq_false_iff, decide_eq_false_iff_not]
    constructor
    · rintro ⟨⟨r, hmem, rfl⟩, hout⟩
      exact ⟨r, ⟨hmem, .inl hout⟩, rfl⟩
    · rintro ⟨r, ⟨hmem, hout⟩, rfl⟩
      refine ⟨⟨r, hmem, rfl⟩, fun hs => ?_⟩
      -- the rows of the subtree are the user's
      rcases hout with hout | hout
      · exact hout hs
      · simp [ho.subtree_row hr hmem hs] at hout
  rows a d k := by
    simp only [Metadata.removeFiles, Metadata.removeDirectories, Table.mem_deleteWhere,
      Bool.or_eq_false_iff, decide_eq_false_iff_not, h.rows, h.mem_subtree]
    show _ ↔ d ∈ t.nodes \ t.below root ∧ _
    constructor
    · rintro ⟨⟨hd, hk⟩, -, hout⟩
      exact ⟨⟨hd, hout⟩, (Hierarchy.ancestor_cut ⟨hd, hout⟩).2 hk⟩
    · rintro ⟨hd, hk⟩
      have hk := (Hierarchy.ancestor_cut hd).1 hk
      exact ⟨⟨hd.1, hk⟩, Hierarchy.not_below_of_ancestor hd hk, hd.2⟩

structure SameShape (m m' : Metadata) : Prop where
  ids : m'.directoryIDs = m.directoryIDs
  closure : m'.directoryClosure = m.directoryClosure

theorem SameShape.refl (m : Metadata) : SameShape m m := ⟨rfl, rfl⟩

theorem SameShape.updateRows {p : DirectoryRow → Bool} {f : DirectoryRow → DirectoryRow}
    (hd : m'.directories.rows = Table.updateRows p f m.directories.rows)
    (hf : ∀ d, (f d).idDirektori = d.idDirektori)
    (hc : m'.directoryClosure = m.directoryClosure) : SameShape m m' where
  ids := by rw [Metadata.directoryIDs, hd, Table.map_updateRows hf]; rfl
  closure := hc

theorem uploadStart_shape (db : Db) (userID : Uuid) (directoryID : Option Uuid)
    (fileName mimeType : String) (newID : Uuid) (now : Time) :
    SameShape db.toMetadata
      (db.after
        (uploadStart lower db userID directoryID fileName mimeType newID now)).toMetadata := by
  unfold uploadStart
  split
  · exact .refl _
  split
  · exact .refl _
  split
  · exact .refl _
  next out hout =>
    obtain ⟨files, -, -, hdb⟩ := createPending_ok hout
    rw [Db.after, hdb]
    exact ⟨rfl, rfl⟩

theorem uploadFinish_shape (db : Db) (userID fileID : Uuid)
    (answer : Except Error UploadCommitResult) (now : Time) :
    SameShape db.toMetadata (uploadFinish db userID fileID answer now).1.toMetadata := by
  unfold uploadFinish
  split
  · exact ⟨rfl, rfl⟩
  split
  · exact ⟨rfl, rfl⟩
  next hok =>
    unfold markCommitted at hok
    split at hok
    · cases hok
    · cases hok
      exact ⟨rfl, rfl⟩

/-- **Every other event leaves the directories where they are.** -/
theorem step_shape {e : Event × Time} (h : step lower db e = some db')
    (hr : Event.reshapes lower db e = false) : SameShape db.toMetadata db'.toMetadata := by
  obtain ⟨e, now⟩ := e
  cases e with
  | expireStalePending olderThan => cases h; exact ⟨rfl, rfl⟩
  | call userID c =>
    cases h
    cases c with
    | createDirectory name parentID newID =>
      simp only [Event.reshapes] at hr
      simp only [runCall]
      cases hc : serviceCreateDirectory lower db userID name parentID newID now with
      | error e => exact .refl _
      | ok out => rw [hc] at hr; cases hr
    | permanentDeleteDirectory id =>
      simp only [Event.reshapes] at hr
      simp only [runCall]
      cases hd : permanentDeleteSubtree db id userID now with
      | error e => exact .refl _
      | ok out => rw [hd] at hr; cases hr
    | softDeleteDirectory id =>
      simp only [runCall, softDeleteSubtree]
      split
      · exact .refl _
      split
      · exact .refl _
      · exact .updateRows rfl (fun _ => rfl) rfl
    | restoreDirectory id =>
      simp only [runCall, restoreSubtree]
      split
      · exact .refl _
      split
      · exact .refl _
      split
      · exact .refl _
      · exact .updateRows rfl (fun _ => rfl) rfl
    | starDirectory id starred =>
      simp only [runCall, setDirectoryStarred]
      split
      · exact .refl _
      · exact .updateRows rfl (fun _ => rfl) rfl
    | uploadStart directoryID fileName mimeType newID =>
      exact uploadStart_shape db userID directoryID fileName mimeType newID now
    | uploadFinish id answer => exact uploadFinish_shape db userID id answer now
    | softDeleteFile id =>
      simp only [runCall, softDeleteFile]
      split <;> exact ⟨rfl, rfl⟩
    | restoreFile id =>
      simp only [runCall, restoreFile]
      split
      · exact .refl _
      · split <;> exact ⟨rfl, rfl⟩
    | permanentDeleteFile id =>
      simp only [runCall]
      split
      · next hd => rw [permanentDeleteFile_ok hd]; exact ⟨rfl, rfl⟩
      · exact .refl _
    | starFile id starred =>
      simp only [runCall, setFileStarred]
      split <;> exact ⟨rfl, rfl⟩

/-! ## Every run -/

/-- **The tables represent the hierarchy of the run.** -/
theorem represents_recorded (h : Reachable lower db) :
    ∃ t, Recorded lower db t ∧ Represents db.toMetadata t := by
  have hall : Owned db.toMetadata ∧ ∃ t, Recorded lower db t ∧ Represents db.toMetadata t := by
    refine Runs.Reach.inv (P := fun db => Owned db.toMetadata ∧
      ∃ t, Recorded lower db t ∧ Represents db.toMetadata t) h
      (fun _ hs => hs ▸ ⟨Owned.empty, .empty, .empty, .empty⟩) fun db e db' hi _ hs => ?_
    obtain ⟨ho, t, hrec, hrep⟩ := hi
    refine ⟨(step_effect hs).owned ho, ?_⟩
    cases hr : Event.reshapes lower db e with
    | false =>
      have hshape := step_shape hs hr
      exact ⟨t, .other hrec hs hr, hrep.congr hshape.ids hshape.closure⟩
    | true =>
      obtain ⟨e, now⟩ := e
      cases e with
      | expireStalePending olderThan => cases hr
      | call userID c =>
        cases c with
        | createDirectory name parentID newID =>
          cases hs
          simp only [Event.reshapes] at hr
          simp only [runCall]
          cases hc : serviceCreateDirectory lower db userID name parentID newID now with
          | error e => rw [hc] at hr; cases hr
          | ok out =>
            obtain ⟨row, directories, directoryClosure, rfl, -, -, hp, hd, hcl, hout⟩ :=
              serviceCreateDirectory_ok hc
            have hn := hrep.fresh hd
            have hp' : ∀ p, parentID = some p → p ∈ t.nodes := fun p hpp =>
              hrep.owned_mem (owns_of_live (hp p hpp))
            refine ⟨t.addLeaf row.idDirektori parentID hn hp', .created hn hp' hrec hc, ?_⟩
            rw [Db.after, hout]
            exact hrep.addDirectory hn hp' hd hcl
        | permanentDeleteDirectory id =>
          cases hs
          simp only [Event.reshapes] at hr
          simp only [runCall]
          cases hd : permanentDeleteSubtree db id userID now with
          | error e => rw [hd] at hr; cases hr
          | ok db' =>
            obtain ⟨hdel, hm⟩ := permanentDeleteSubtree_ok hd
            refine ⟨t.cut id, .destroyed hrec hd, ?_⟩
            dsimp only
            rw [hm]
            exact hrep.remove ho (owns_of_deleted hdel)
        | softDeleteDirectory | restoreDirectory | starDirectory | uploadStart | uploadFinish
        | softDeleteFile | restoreFile | permanentDeleteFile | starFile => cases hr
  exact hall.2

theorem eq_singleton_of_nodup {α : Type _} {l : List α} {a : α} (hl : l.Nodup)
    (h : ∀ x, x ∈ l ↔ x = a) : l = [a] := by
  refine List.perm_singleton.1 ((List.perm_ext_iff_of_nodup hl (List.nodup_singleton a)).2 ?_)
  exact fun x => (h x).trans List.mem_singleton.symm

theorem Represents.filter_depth (h : Represents m t) {d a : Uuid} {k : Nat} (hd : d ∈ t.nodes)
    (ha : t.ancestor k a d) :
    (m.directoryClosure.rows.filter fun c => c.idTurunan == d && c.kedalaman == k) =
      [⟨a, d, k⟩] := by
  refine eq_singleton_of_nodup ((List.Nodup.of_map _ m.directoryClosure.primaryKey).filter _) ?_
  rintro ⟨a', d', k'⟩
  simp only [List.mem_filter, Bool.and_eq_true, beq_iff_eq, h.rows, ClosureRow.mk.injEq]
  constructor
  · rintro ⟨⟨-, ha'⟩, rfl, rfl⟩
    exact ⟨Hierarchy.ancestor_unique ha' ha, rfl, rfl⟩
  · rintro ⟨rfl, rfl, rfl⟩
    exact ⟨⟨hd, ha⟩, rfl, rfl⟩

/-- **The closure table represents the tree.** In every reachable state there is a row `(a, d, k)`
exactly when `k` parent links lead from the directory `d` to `a`; a directory has one row at depth
0, its own, and at most one at depth 1, that of its parent; parent links make no cycle, and no row
mentions a directory that is not there. -/
theorem closure_represents (h : Reachable lower db) :
    ∃ t : Hierarchy Uuid, Recorded lower db t ∧
      (∀ d, d ∈ t.nodes ↔ d ∈ db.directoryIDs) ∧
      (∀ a d k, (⟨a, d, k⟩ : ClosureRow) ∈ db.directoryClosure.rows ↔
        d ∈ t.nodes ∧ t.ancestor k a d) ∧
      (∀ d ∈ t.nodes, (db.directoryClosure.rows.filter fun c =>
        c.idTurunan == d && c.kedalaman == 0) = [⟨d, d, 0⟩]) ∧
      (∀ d ∈ t.nodes, (db.directoryClosure.rows.filter fun c =>
        c.idTurunan == d && c.kedalaman == 1) = (t.parent d).toList.map fun p => ⟨p, d, 1⟩) ∧
      (∀ d k, ¬ t.ancestor (k + 1) d d) ∧
      ∀ c ∈ db.directoryClosure.rows,
        c.idInduk ∈ db.directoryIDs ∧ c.idTurunan ∈ db.directoryIDs := by
  obtain ⟨t, hrec, hrep⟩ := represents_recorded h
  refine ⟨t, hrec, hrep.nodes, hrep.rows, fun d hd => hrep.filter_depth hd rfl, fun d hd => ?_,
    fun d k => Hierarchy.not_ancestor_self, ?_⟩
  · cases hp : t.parent d with
    | some p => exact hrep.filter_depth hd (Hierarchy.ancestor_one.2 hp)
    | none =>
      refine List.filter_eq_nil_iff.2 ?_
      rintro ⟨p, d', k⟩ hc hcond
      simp only [Bool.and_eq_true, beq_iff_eq] at hcond
      obtain ⟨rfl, rfl⟩ := hcond
      rw [hrep.depth_one.1 hc] at hp
      cases hp
  · rintro ⟨a, d, k⟩ hc
    obtain ⟨hd, hk⟩ := (hrep.rows a d k).1 hc
    exact ⟨(hrep.nodes a).1 (Hierarchy.ancestor_mem hd hk), (hrep.nodes d).1 hd⟩

/-- A tree of two directories, in trash. -/
theorem closure_represents_sample : ∃ db, Reachable id db ∧ ∃ t : Hierarchy Uuid,
    Recorded id db t ∧ t.parent 11 = some 10 ∧ t.parent 10 = none := by
  have h : (Runs.exec (step id) Db.empty trashedTree).any (fun db =>
      decide (⟨10, 11, 1⟩ ∈ db.directoryClosure.rows ∧ 10 ∈ db.directoryIDs ∧
        (db.directoryClosure.rows.filter fun c => c.idTurunan == 10 && c.kedalaman == 1) = [])) =
      true := by decide
  obtain ⟨db, hdb, h⟩ := (Option.any_eq_true _ _).1 h
  rw [decide_eq_true_eq] at h
  obtain ⟨hrow, hid, hroot⟩ := h
  have hr : Reachable id db := Runs.Reach.exec (.init rfl) (fun _ _ _ => trivial) hdb
  obtain ⟨t, hrec, hnodes, hrows, -, hone, -⟩ := closure_represents hr
  refine ⟨db, hr, t, hrec, Hierarchy.ancestor_one.1 ((hrows 10 11 1).1 hrow).2, ?_⟩
  have h10 := hone 10 ((hnodes 10).2 hid)
  rw [hroot] at h10
  cases hp : t.parent 10 with
  | none => rfl
  | some p =>
    rw [hp] at h10
    cases h10

end HashBox.Api
