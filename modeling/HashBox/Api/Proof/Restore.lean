import HashBox.Api.Proof.Trash

/-!
# Soft delete and restore

`SoftDeleteSubtree` keeps the time of a row that is in trash already, but `RestoreSubtree` clears
the mark of every row of the subtree, so the two undo each other exactly when nothing in the subtree
was in trash before (`restore_undoes_iff`).
-/

namespace HashBox.Api

variable {lower : String → String} {x : Scope} {m m' : Metadata}

/-! ## The partial unique indexes -/

theorem filesUnique_deleteWhere {files : Table FileRow.idBerkas} {p : FileRow → Bool}
    (hu : filesUnique lower files = true) : filesUnique lower (files.deleteWhere p) = true := by
  rw [filesUnique_iff] at hu ⊢
  refine hu.sublist (List.Sublist.map _ ?_)
  exact List.filter_sublist.filter _

theorem Effect.unique (hu : filesUnique lower m.files = true)
    (he : Effect lower x m m') : filesUnique lower m'.files = true := by
  cases he with
  | same => exact hu
  | addDirectory row parentID directories directoryClosure _ _ _ _ _ => exact hu
  | starDirectory p t _ => exact hu
  | trash directoryID userID now _ _ =>
    refine filesUnique_updateRows rfl (fun r _ ha => ?_) (fun r => rfl) hu
    simp [FileRow.active] at ha
  | untrash directoryID userID _ _ _ hu' => exact hu'
  | remove directoryID userID _ _ _ => exact filesUnique_deleteWhere hu
  | addFile row files _ _ _ _ hu' => exact hu'
  | updateFile p f hf _ _ _ hkeep _ _ => exact hkeep hu
  | removeFile p _ _ => exact filesUnique_deleteWhere hu

theorem Reachable.unique {db : Db} (h : Reachable lower db) : filesUnique lower db.files = true :=
  Runs.Reach.inv (P := fun db => filesUnique lower db.files = true) h (fun _ hs => hs ▸ rfl)
    fun _ _ _ hu _ hs => (step_effect hs).unique hu

/-! ## The two transactions -/

theorem directoryRecord_isSome {u id : Uuid} (h : m.owns u id = true) :
    ∃ out, m.directoryRecord id u = some out := by
  rw [← Option.isSome_iff_exists, Metadata.directoryRecord, Option.isSome_map, List.find?_isSome]
  simpa [Metadata.owns] using h

theorem softDeleteSubtree_ok {db : Db} {directoryID userID : Uuid} (now : Time)
    (h : db.ownsLive userID directoryID = true) :
    ∃ out, softDeleteSubtree db directoryID userID now =
      .ok (db.withMetadata (db.trashSubtree (db.subtree directoryID) userID now), out) := by
  have ho : (db.trashSubtree (db.subtree directoryID) userID now).owns userID directoryID =
      true := by
    rw [owns_congr (owners_trashSubtree _ _ _)]
    exact owns_of_live h
  obtain ⟨out, hout⟩ := directoryRecord_isSome ho
  exact ⟨out, by simp [softDeleteSubtree, h, hout]⟩

/-- `RestoreSubtree` of a directory in trash succeeds unless it violates an index. -/
theorem restoreSubtree_ok_iff (lower : String → String) (db db' : Db) {directoryID userID : Uuid}
    (h : db.ownsDeleted userID directoryID = true) :
    (∃ out, restoreSubtree lower db directoryID userID = .ok (db', out)) ↔
      filesUnique lower (db.untrashSubtree (db.subtree directoryID) userID).files = true ∧
        db' = db.withMetadata (db.untrashSubtree (db.subtree directoryID) userID) := by
  have ho : (db.untrashSubtree (db.subtree directoryID) userID).owns userID directoryID = true := by
    rw [owns_congr (owners_untrashSubtree _ _)]
    exact owns_of_deleted h
  obtain ⟨out, hout⟩ := directoryRecord_isSome ho
  by_cases hu : filesUnique lower (db.untrashSubtree (db.subtree directoryID) userID).files = true
  · simp [restoreSubtree, h, hu, hout, eq_comm]
  · simp [restoreSubtree, h, hu]

/-! ## Undoing -/

section
variable {root u : Uuid}

/-- The root of a subtree is in trash after the soft delete: it is in its own subtree. -/
theorem trash_ownsDeleted (ht : Tree m) (now : Time) (h : m.ownsLive u root = true) :
    (m.trashSubtree (m.subtree root) u now).ownsDeleted u root = true := by
  simp only [Metadata.ownsLive, List.any_eq_true, Bool.and_eq_true, beq_iff_eq] at h
  obtain ⟨d, hd, ⟨rfl, rfl⟩, -⟩ := h
  have hself : d.idDirektori ∈ m.subtree d.idDirektori := ht.self d hd
  simp only [Metadata.ownsDeleted, List.any_eq_true]
  exact ⟨_, Table.mem_updateRows.2 (.inl ⟨d, hd, by simp [hself], rfl⟩),
    by simp [DirectoryRow.live]⟩

theorem untrash_directory_live (ho : Owned m) (hr : m.owns u root = true) {d : DirectoryRow}
    (hd : d ∈ (m.untrashSubtree (m.subtree root) u).directories.rows)
    (hs : d.idDirektori ∈ m.subtree root) : d.dihapusPada = none := by
  rcases Table.mem_updateRows.1 hd with ⟨q, -, -, rfl⟩ | ⟨hd, hn⟩
  · rfl
  · simp [hs, ho.subtree_row hr hd hs] at hn

theorem untrash_file_live (ho : Owned m) (hr : m.owns u root = true) {f : FileRow}
    (hf : f ∈ (m.untrashSubtree (m.subtree root) u).files.rows)
    (hw : f.within (m.subtree root) = true) : f.dihapusPada = none := by
  rcases Table.mem_updateRows.1 hf with ⟨q, -, -, rfl⟩ | ⟨hf, hn⟩
  · rfl
  · obtain ⟨d, hd, hs⟩ := within_iff.1 hw
    simp [hw, hd, ho.subtree hr hs] at hn

/-- Restoring takes back a soft delete of a subtree without anything in trash. -/
theorem untrash_trash (ho : Owned m) (hr : m.owns u root = true) (now : Time)
    (hd : ∀ d ∈ m.directories.rows, d.idDirektori ∈ m.subtree root → d.dihapusPada = none)
    (hf : ∀ f ∈ m.files.rows, f.within (m.subtree root) = true → f.dihapusPada = none) :
    (m.trashSubtree (m.subtree root) u now).untrashSubtree (m.subtree root) u = m := by
  have hfiles : ((m.trashSubtree (m.subtree root) u now).untrashSubtree (m.subtree root) u).files =
      m.files := by
    refine Table.ext (Table.updateRows_undo (fun r hmem => ?_) (fun r => rfl) fun r hmem hp => ?_)
    · -- the directory of a file in the subtree is the user's
      by_cases hw : r.within (m.subtree root) = true
      · obtain ⟨d, hd, hs⟩ := within_iff.1 hw
        simp [hw, hd, owns_congr (owners_trashSubtree _ _ _), ho.subtree hr hs]
      · simp [hw]
    · rw [← hf r hmem hp]
  have hdirs : ((m.trashSubtree (m.subtree root) u now).untrashSubtree (m.subtree root)
      u).directories = m.directories := by
    refine Table.ext (Table.updateRows_undo (fun r _ => rfl) (fun r => rfl) fun r hmem hp => ?_)
    rw [Bool.and_eq_true, decide_eq_true_eq] at hp
    rw [← hd r hmem hp.1]
  rw [Metadata.untrashSubtree] at hfiles hdirs ⊢
  simp only at hfiles hdirs
  rw [hfiles, hdirs]
  rfl

def softDeleteThenRestore (lower : String → String) (db : Db) (directoryID userID : Uuid)
    (now : Time) : Except Error Db :=
  match softDeleteSubtree db directoryID userID now with
  | .error e => .error e
  | .ok (db, _) =>
    match restoreSubtree lower db directoryID userID with
    | .error e => .error e
    | .ok (db, _) => .ok db

/-- The two transactions on a live directory: only the indexes can make them fail. -/
theorem softDeleteThenRestore_ok_iff {db db' : Db} (ht : Tree db.toMetadata) (now : Time)
    (hlive : db.ownsLive u root = true) :
    softDeleteThenRestore lower db root u now = .ok db' ↔
      filesUnique lower ((db.trashSubtree (db.subtree root) u now).untrashSubtree
          (db.subtree root) u).files = true ∧
        db' = db.withMetadata ((db.trashSubtree (db.subtree root) u now).untrashSubtree
          (db.subtree root) u) := by
  obtain ⟨out1, h1⟩ := softDeleteSubtree_ok now hlive
  have hrest := restoreSubtree_ok_iff lower
    (db.withMetadata (db.trashSubtree (db.subtree root) u now)) db' (trash_ownsDeleted ht now hlive)
  refine Iff.trans ?_ hrest
  simp only [softDeleteThenRestore, h1]
  split
  · rename_i e he
    simp [he]
  · rename_i db2 out2 he
    simp [he]

/-- **Soft delete and restore undo each other** exactly when no row of the subtree was in trash. -/
theorem restore_undoes_iff {db : Db} (h : Reachable lower db) {directoryID userID : Uuid}
    (hlive : db.ownsLive userID directoryID = true) (now : Time) :
    (∃ db', softDeleteThenRestore lower db directoryID userID now = .ok db' ∧
        db'.files = db.files ∧ db'.directories = db.directories) ↔
      (∀ d ∈ db.directories.rows, d.idDirektori ∈ db.subtree directoryID → d.dihapusPada = none) ∧
        ∀ f ∈ db.files.rows, f.within (db.subtree directoryID) = true → f.dihapusPada = none := by
  have ho := h.owned
  have hr := owns_of_live hlive
  simp only [softDeleteThenRestore_ok_iff h.tree now hlive]
  constructor
  · rintro ⟨db', ⟨-, rfl⟩, hfiles, hdirs⟩
    -- nothing of the subtree is in trash after the restore, so nothing was before
    have ho1 := ho.trashSubtree (db.subtree directoryID) userID now
    have hr1 := owns_of_deleted (trash_ownsDeleted h.tree now hlive)
    exact ⟨fun d hd hs => untrash_directory_live ho1 hr1 (hdirs ▸ hd) hs,
      fun f hf hw => untrash_file_live ho1 hr1 (hfiles ▸ hf) hw⟩
  · rintro ⟨hd, hf⟩
    have hundo := untrash_trash ho hr now hd hf
    rw [hundo]
    exact ⟨_, ⟨h.unique, rfl⟩, rfl, rfl⟩

/-- User 1 makes a directory with a directory and a file in it. -/
def liveTree : List (Event × Time) := trashedTree.take 4

/-- Nothing of the tree is in trash: the soft delete of its top is undone. -/
theorem restore_undoes_sample :
    ∃ db, Reachable id db ∧ (db.subtree 10).length = 2 ∧ db.files.rows.length = 1 ∧
      ∃ db', softDeleteThenRestore id db 10 1 7 = .ok db' ∧
        db'.files = db.files ∧ db'.directories = db.directories := by
  have h : (Runs.exec (step id) Db.empty liveTree).any (fun db =>
      decide (db.ownsLive 1 10 = true ∧ (db.subtree 10).length = 2 ∧ db.files.rows.length = 1 ∧
        (∀ d ∈ db.directories.rows, d.idDirektori ∈ db.subtree 10 → d.dihapusPada = none) ∧
        ∀ f ∈ db.files.rows, f.within (db.subtree 10) = true → f.dihapusPada = none)) = true := by
    decide
  obtain ⟨db, hdb, h⟩ := (Option.any_eq_true _ _).1 h
  rw [decide_eq_true_eq] at h
  obtain ⟨hlive, hn, hf, hclear⟩ := h
  have hr : Reachable id db := Runs.Reach.exec (.init rfl) (fun _ _ _ => trivial) hdb
  exact ⟨db, hr, hn, hf, (restore_undoes_iff hr hlive 7).2 hclear⟩

/-- A file that was in trash on its own comes back live; and when a live file has taken its name
since, the restore fails on `uniq_active_filename_in_dir`. -/
theorem restore_forgets_trash :
    (∃ db db', Reachable id db ∧ db.ownsLive 1 11 = true ∧
        softDeleteThenRestore id db 11 1 7 = .ok db' ∧
        ∃ f ∈ db.files.rows, f.dihapusPada = some 5 ∧
          { f with dihapusPada := none } ∈ db'.files.rows) ∧
      ∃ db, Reachable id db ∧ db.ownsLive 1 11 = true ∧
        softDeleteThenRestore id db 11 1 7 =
          .error (.wrap "restore subtree files" uniqueViolation) := by
  constructor
  · have h : (Runs.exec (step id) Db.empty (liveTree ++ [(.call 1 (.softDeleteFile 20), 5)])).any
        (fun db => db.ownsLive 1 11 && (softDeleteThenRestore id db 11 1 7).toOption.any fun db' =>
          decide (∃ f ∈ db.files.rows, f.dihapusPada = some 5 ∧
            { f with dihapusPada := none } ∈ db'.files.rows)) = true := by decide
    obtain ⟨db, hdb, h⟩ := (Option.any_eq_true _ _).1 h
    rw [Bool.and_eq_true] at h
    obtain ⟨hlive, h⟩ := h
    obtain ⟨db', hok, h⟩ := Runs.any_ok h
    exact ⟨db, db', Runs.Reach.exec (.init rfl) (fun _ _ _ => trivial) hdb, hlive, hok,
      of_decide_eq_true h⟩
  · have h : (Runs.exec (step id) Db.empty (liveTree ++ [(.call 1 (.softDeleteFile 20), 5),
        (.call 1 (.uploadStart (some 11) "f" "" 21), 6)])).any (fun db =>
          db.ownsLive 1 11 && (Runs.failure (softDeleteThenRestore id db 11 1 7)).any fun e =>
            decide (e = .wrap "restore subtree files" uniqueViolation)) = true := by
      decide
    obtain ⟨db, hdb, h⟩ := (Option.any_eq_true _ _).1 h
    rw [Bool.and_eq_true] at h
    obtain ⟨hlive, h⟩ := h
    obtain ⟨e, he, h⟩ := Runs.any_failure h
    rw [decide_eq_true_eq] at h
    exact ⟨db, Runs.Reach.exec (.init rfl) (fun _ _ _ => trivial) hdb, hlive, h ▸ he⟩

end

end HashBox.Api
