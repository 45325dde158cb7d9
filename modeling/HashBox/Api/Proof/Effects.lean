import HashBox.Api.Calls

/-!
# What a call can do to the users' data

`Effect lower x m m'` lists every change of the directories, the closure and the files that a call
can make, with the checks that guard it; the `Scope` `x` says on whose behalf it acts (the reaper
acts for nobody), which directories it restores, which references it commits and whether it deletes
for good. `runCall_effect` is the inversion of all calls at once: every invariant is proved by cases
on `Effect` and never looks into a call again.
-/

namespace HashBox.Api

structure Scope where
  who : Option Uuid
  restores : Uuid → Prop
  commits : Hash → Prop
  deletes : Prop

section
variable (lower : String → String)

inductive Effect (x : Scope) (m : Metadata) : Metadata → Prop
  | same : Effect x m m
  | addDirectory (row : DirectoryRow) (parentID : Option Uuid)
      (directories : Table DirectoryRow.idDirektori)
      (directoryClosure : Table fun c : ClosureRow => (c.idInduk, c.idTurunan)) :
      x.who = some row.idPengguna → row.live = true →
      (∀ p, parentID = some p → m.ownsLive row.idPengguna p = true) →
      m.directories.insert [row] = some directories →
      m.directoryClosure.insert (m.newClosureRows row.idDirektori parentID) =
        some directoryClosure →
      Effect x m { m with directories, directoryClosure }
  | starDirectory (p : DirectoryRow → Bool) (t : Option Time) :
      (∀ d, p d = true → x.who = some d.idPengguna) →
      Effect x m { m with
        directories := m.directories.updateWhere p (fun d => { d with dibintangPada := t })
          fun _ => rfl }
  | trash (directoryID userID : Uuid) (now : Time) : x.who = some userID →
      m.ownsLive userID directoryID = true →
      Effect x m (m.trashSubtree (m.subtree directoryID) userID now)
  | untrash (directoryID userID : Uuid) : x.who = some userID → x.restores directoryID →
      m.ownsDeleted userID directoryID = true →
      filesUnique lower (m.untrashSubtree (m.subtree directoryID) userID).files = true →
      Effect x m (m.untrashSubtree (m.subtree directoryID) userID)
  | remove (directoryID userID : Uuid) : x.who = some userID → x.deletes →
      m.ownsDeleted userID directoryID = true →
      Effect x m ((m.removeFiles (m.subtree directoryID)).removeDirectories
        (m.subtree directoryID) userID)
  | addFile (row : FileRow) (files : Table FileRow.idBerkas) : x.who = some row.idPengguna →
      row.committed = false →
      (∀ d, row.idDirektori = some d → m.ownsLive row.idPengguna d = true) →
      m.files.insert [row] = some files → filesUnique lower files = true →
      Effect x m { m with files }
  | updateFile (p : FileRow → Bool) (f : FileRow → FileRow) (h : ∀ r, (f r).idBerkas = r.idBerkas) :
      (∀ r, p r = true → ∀ u, x.who = some u → r.idPengguna = u) →
      (∀ r, (f r).idPengguna = r.idPengguna ∧ (f r).idDirektori = r.idDirektori) →
      -- a mark is only cleared where the directory is live
      (∀ r, p r = true → (f r).dihapusPada = none →
        r.dihapusPada = none ∨ m.reachableFile r = true) →
      (filesUnique lower m.files = true →
        filesUnique lower (m.files.updateWhere p f h) = true) →
      (∀ r, p r = true → ∀ id, r.refersTo id = true → (f r).refersTo id = true) →
      (∀ r, p r = true → ∀ id, (f r).refersTo id = true → r.refersTo id = true ∨ x.commits id) →
      Effect x m { m with files := m.files.updateWhere p f h }
  | removeFile (p : FileRow → Bool) : (∀ r, p r = true → x.who = some r.idPengguna) → x.deletes →
      Effect x m { m with files := m.files.deleteWhere p }

end

/-! ## The statements -/

/-- A transaction that works on the users' data only. -/
structure Alters (lower : String → String) (x : Scope) (db db' : Db) : Prop where
  effect : Effect lower x db.toMetadata db'.toMetadata
  requests : db'.manifestRetirementRequests = db.manifestRetirementRequests

theorem Alters.same {lower : String → String} {x : Scope} (db : Db) : Alters lower x db db :=
  ⟨.same, rfl⟩

theorem queueManifestRetirements_metadata (db : Db) (ids : List Hash) (now : Time) :
    (queueManifestRetirements db ids now).toMetadata = db.toMetadata := by
  unfold queueManifestRetirements
  generalize sortedManifestIDs ids = ids
  induction ids generalizing db with
  | nil => rfl
  | cons id ids ih =>
    rw [queueOrdered]
    split
    · exact ih db
    · exact ih (upsertRetirement db id now)

variable {lower : String → String} {x : Scope}

theorem filesUnique_iff {files : Table FileRow.idBerkas} :
    filesUnique lower files = true ↔
      ((files.rows.filter FileRow.active).map (FileRow.indexKey lower)).Nodup :=
  decide_eq_true_iff

/-- An update that makes no row active and keeps the indexed columns keeps the indexes. -/
theorem filesUnique_updateRows {files files' : Table FileRow.idBerkas} {p : FileRow → Bool}
    {f : FileRow → FileRow} (hrows : files'.rows = Table.updateRows p f files.rows)
    (hact : ∀ r, p r = true → (f r).active = true → r.active = true)
    (hkey : ∀ r, (f r).indexKey lower = r.indexKey lower) (hu : filesUnique lower files = true) :
    filesUnique lower files' = true := by
  rw [filesUnique_iff] at hu ⊢
  refine hu.sublist ?_
  simp only [hrows, Table.updateRows]
  generalize files.rows = rows
  induction rows with
  | nil => exact List.Sublist.refl _
  | cons r rows ih =>
    simp only [List.map_cons, List.filter_cons]
    by_cases hp : p r = true
    · simp only [hp, if_true]
      by_cases ha : (f r).active = true
      · simp only [ha, hact r hp ha, if_true, List.map_cons, hkey r]
        exact ih.cons_cons _
      · simp only [ha, Bool.false_eq_true, if_false]
        split
        · exact ih.cons _
        · exact ih
    · simp only [hp, Bool.false_eq_true, if_false]
      split
      · exact ih.cons_cons _
      · exact ih

/-- `checkDuplicate` fails when the parent is not a live directory of the user. -/
theorem checkDuplicate_live {db : Db} {userID : Uuid} {name : String} {parentID : Option Uuid}
    {b : Bool} (h : checkDuplicate lower db userID name parentID = .ok b) :
    ∀ p, parentID = some p → db.ownsLive userID p = true := by
  rintro p rfl
  by_contra hlive
  rw [Bool.not_eq_true] at hlive
  simp [checkDuplicate, hlive] at h

/-- `Create` that succeeds inserts a row where it has found no live one of its name. -/
theorem createDirectory_ok {db : Db} {userID : Uuid} {name : String} {parentID : Option Uuid}
    {newID : Uuid} {now : Time} {out : Db × DirectoryRecord}
    (h : createDirectory lower db userID name parentID newID now = .ok out) :
    ∃ (directories : Table DirectoryRow.idDirektori)
      (directoryClosure : Table fun c : ClosureRow => (c.idInduk, c.idTurunan)),
      checkDuplicate lower db userID name parentID = .ok false ∧
      db.directories.insert [⟨newID, userID, name, none, now, none⟩] = some directories ∧
      db.directoryClosure.insert (db.newClosureRows newID parentID) = some directoryClosure ∧
      out.1 = { db with directories, directoryClosure } := by
  unfold createDirectory at h
  split at h
  · cases h
  · cases h
  rename_i hdup
  split at h
  · cases h
  dsimp only at h
  split at h
  · cases h
  rename_i directories hd
  split at h
  · cases h
  rename_i directoryClosure hc
  cases h
  exact ⟨directories, directoryClosure, hdup, hd, hc, rfl⟩

/-- The service creates under the name without the blanks around it, or not at all. -/
theorem serviceCreateDirectory_cases (lower : String → String) (db : Db) (userID : Uuid)
    (name : String) (parentID : Option Uuid) (newID : Uuid) (now : Time) :
    serviceCreateDirectory lower db userID name parentID newID now =
        createDirectory lower db userID (trimSpace name) parentID newID now ∨
      ∃ e, serviceCreateDirectory lower db userID name parentID newID now = .error e := by
  unfold serviceCreateDirectory
  dsimp only
  split
  · exact .inr ⟨_, rfl⟩
  split
  · exact .inr ⟨_, rfl⟩
  · exact .inl rfl

/-- `Create` of the service that succeeds inserts a live directory below a live one of the user. -/
theorem serviceCreateDirectory_ok {db : Db} {userID : Uuid} {name : String} {parentID : Option Uuid}
    {newID : Uuid} {now : Time} {out : Db × DirectoryRecord}
    (h : serviceCreateDirectory lower db userID name parentID newID now = .ok out) :
    ∃ (row : DirectoryRow) (directories : Table DirectoryRow.idDirektori)
      (directoryClosure : Table fun c : ClosureRow => (c.idInduk, c.idTurunan)),
      row.idDirektori = newID ∧ row.idPengguna = userID ∧ row.live = true ∧
      (∀ p, parentID = some p → db.ownsLive userID p = true) ∧
      db.directories.insert [row] = some directories ∧
      db.directoryClosure.insert (db.newClosureRows newID parentID) = some directoryClosure ∧
      out.1 = { db with directories, directoryClosure } := by
  rcases serviceCreateDirectory_cases lower db userID name parentID newID now with hs | ⟨e, hs⟩
  · rw [hs] at h
    obtain ⟨directories, directoryClosure, hdup, hd, hc, hout⟩ := createDirectory_ok h
    exact ⟨_, directories, directoryClosure, rfl, rfl, rfl, checkDuplicate_live hdup, hd, hc, hout⟩
  · rw [hs] at h
    cases h

theorem createDirectory_alters (db : Db) (userID : Uuid) (name : String) (parentID : Option Uuid)
    (newID : Uuid) (now : Time) (hw : x.who = some userID) :
    Alters lower x db (db.after (createDirectory lower db userID name parentID newID now)) := by
  cases h : createDirectory lower db userID name parentID newID now with
  | error e => exact .same db
  | ok out =>
    obtain ⟨directories, directoryClosure, hdup, hd, hc, hout⟩ := createDirectory_ok h
    rw [Db.after, hout]
    exact ⟨.addDirectory _ parentID directories directoryClosure hw rfl (checkDuplicate_live hdup)
      hd hc, rfl⟩

theorem serviceCreateDirectory_alters (db : Db) (userID : Uuid) (name : String)
    (parentID : Option Uuid) (newID : Uuid) (now : Time) (hw : x.who = some userID) :
    Alters lower x db
      (db.after (serviceCreateDirectory lower db userID name parentID newID now)) := by
  rcases serviceCreateDirectory_cases lower db userID name parentID newID now with hs | ⟨e, hs⟩
  · rw [hs]
    exact createDirectory_alters db userID _ parentID newID now hw
  · rw [hs]
    exact .same db

theorem softDeleteSubtree_alters (db : Db) (directoryID userID : Uuid) (now : Time)
    (hw : x.who = some userID) :
    Alters lower x db
      (db.after (softDeleteSubtree db directoryID userID now)) := by
  unfold softDeleteSubtree
  split
  · exact .same db
  rename_i hlive
  dsimp only
  split
  · exact .same db
  · exact ⟨.trash directoryID userID now hw (by simpa using hlive), rfl⟩

theorem restoreSubtree_alters (db : Db) (directoryID userID : Uuid) (hw : x.who = some userID)
    (hr : x.restores directoryID) :
    Alters lower x db
      (db.after (restoreSubtree lower db directoryID userID)) := by
  unfold restoreSubtree
  split
  · exact .same db
  rename_i hdel
  dsimp only
  split
  · exact .same db
  rename_i hu
  split
  · exact .same db
  · exact ⟨.untrash directoryID userID hw hr (by simpa using hdel) (by simpa using hu), rfl⟩

/-- `PermanentDeleteSubtree` that succeeds removes the subtree of a directory in trash. -/
theorem permanentDeleteSubtree_ok {db db' : Db} {directoryID userID : Uuid} {now : Time}
    (h : permanentDeleteSubtree db directoryID userID now = .ok db') :
    db.ownsDeleted userID directoryID = true ∧
      db'.toMetadata = (db.removeFiles (db.subtree directoryID)).removeDirectories
        (db.subtree directoryID) userID := by
  unfold permanentDeleteSubtree at h
  split at h
  · cases h
  rename_i hdel
  dsimp only at h
  split at h
  · cases h
  cases h
  refine ⟨by simpa using hdel, ?_⟩
  simp only [Db.toMetadata_withMetadata, queueManifestRetirements_metadata]

theorem setDirectoryStarred_alters (db : Db) (directoryID userID : Uuid) (starred : Bool)
    (now : Time) (hw : x.who = some userID) :
    Alters lower x db
      (db.after (setDirectoryStarred db directoryID userID starred now)) := by
  unfold setDirectoryStarred
  dsimp only
  split
  · exact .same db
  · refine ⟨.starDirectory _ _ fun d hd => ?_, rfl⟩
    simp only [Bool.and_eq_true, beq_iff_eq] at hd
    rw [hw, hd.1.2]

theorem createPending_ok {db : Db} {userID : Uuid} {directoryID : Option Uuid}
    {name mimeType : String} {newID : Uuid} {now : Time} {out : Db × FileRow}
    (h : createPending lower db userID directoryID name mimeType newID now = .ok out) :
    ∃ files, db.files.insert [pendingRow userID directoryID name mimeType newID now] = some files ∧
      filesUnique lower files = true ∧ out.1 = { db with files } := by
  unfold createPending at h
  dsimp only at h
  split at h
  · rename_i db' hi
    cases h
    unfold insertPending at hi
    split at hi
    · cases hi
    split at hi
    · cases hi
    rename_i files hf
    split at hi
    · cases hi
    rename_i hu
    split at hi
    · cases hi
    cases hi
    exact ⟨files, hf, by simpa using hu, rfl⟩
  · split at h <;> cases h

theorem uploadStart_alters (db : Db) (userID : Uuid) (directoryID : Option Uuid)
    (fileName mimeType : String) (newID : Uuid) (now : Time) (hw : x.who = some userID) :
    Alters lower x db
      (db.after (uploadStart lower db userID directoryID fileName mimeType newID now)) := by
  unfold uploadStart
  split
  · exact .same db
  rename_i hdir
  split
  · exact .same db
  split
  · exact .same db
  rename_i out hout
  obtain ⟨files, hins, hu, hdb⟩ := createPending_ok hout
  simp only [Db.after, hdb]
  refine ⟨.addFile _ files hw rfl (fun d hd => ?_) hins hu, rfl⟩
  have hd : directoryID = some d := hd
  show db.ownsLive userID d = true
  by_contra hlive
  exact hdir (by simp [hd]; simpa using hlive)

/-- The statements that touch one row of the user and clear no mark. -/
theorem updateOwn_effect {db : Db} {userID : Uuid} {p : FileRow → Bool} {f : FileRow → FileRow}
    {h : ∀ r, (f r).idBerkas = r.idBerkas} (hw : x.who = some userID)
    (hp : ∀ r, p r = true → r.idPengguna = userID)
    (hf : ∀ r, (f r).idPengguna = r.idPengguna ∧ (f r).idDirektori = r.idDirektori ∧
      (f r).nama = r.nama)
    (hmark : ∀ r, p r = true → (f r).dihapusPada = none → r.dihapusPada = none)
    (hact : ∀ r, p r = true → (f r).active = true → r.active = true)
    (hkeep : ∀ r, p r = true → ∀ id, r.refersTo id = true → (f r).refersTo id = true)
    (hadd : ∀ r, p r = true → ∀ id, (f r).refersTo id = true →
      r.refersTo id = true ∨ x.commits id) :
    Effect lower x db.toMetadata
      { db.toMetadata with files := db.files.updateWhere p f h } := by
  refine .updateFile p f h (fun r hr u hu => ?_) (fun r => ⟨(hf r).1, (hf r).2.1⟩)
    (fun r hr hn => .inl (hmark r hr hn)) (filesUnique_updateRows rfl hact fun r => ?_) hkeep hadd
  · rw [hp r hr]
    exact Option.some.inj (hw.symm.trans hu)
  · simp only [FileRow.indexKey, (hf r).1, (hf r).2.1, (hf r).2.2]

theorem selectsPending_iff {fileID userID : Uuid} {f : FileRow} :
    selectsPending fileID userID f = true ↔
      f.idBerkas = fileID ∧ f.idPengguna = userID ∧ f.statusPenyimpanan = .pending := by
  simp [selectsPending, and_assoc]

theorem selectsFile_iff {m : Metadata} {fileID userID : Uuid} {f : FileRow} :
    m.selectsFile fileID userID f = true ↔
      f.idBerkas = fileID ∧ f.idPengguna = userID ∧ f.statusPenyimpanan = .committed ∧
        m.reachableFile f = true := by
  simp [Metadata.selectsFile, FileRow.committed, and_assoc]

theorem refersTo_of_pending {f : FileRow} (h : f.statusPenyimpanan = .pending) (id : Hash) :
    f.refersTo id = false := by
  simp [FileRow.refersTo, FileRow.committed, h]

theorem markFailed_alters (db : Db) (fileID userID : Uuid) (hw : x.who = some userID) :
    Alters lower x db (markFailed db fileID userID) := by
  refine ⟨updateOwn_effect hw (fun r hr => (selectsPending_iff.1 hr).2.1)
    (fun r => ⟨rfl, rfl, rfl⟩) (fun r _ hn => hn) (fun r _ ha => ?_) (fun r hr id hid => ?_)
    fun r _ id hid => ?_, rfl⟩
  · simp [FileRow.active] at ha
  · rw [refersTo_of_pending (selectsPending_iff.1 hr).2.2] at hid
    cases hid
  · simp [FileRow.refersTo, FileRow.committed] at hid

theorem uploadFinish_effect (db : Db) (userID fileID : Uuid)
    (answer : Except Error UploadCommitResult) (now : Time) (hw : x.who = some userID)
    (hc : ∀ result, answer = .ok result → x.commits result.manifestID) :
    Effect lower x db.toMetadata (uploadFinish db userID fileID answer now).1.toMetadata := by
  unfold uploadFinish
  split
  · exact (markFailed_alters db fileID userID hw).effect
  rename_i result
  split
  · exact (markFailed_alters db fileID userID hw).effect
  rename_i db' record hok
  unfold markCommitted at hok
  split at hok
  · cases hok
  cases hok
  refine updateOwn_effect hw (fun r hr => (selectsPending_iff.1 hr).2.1)
    (fun r => ⟨rfl, rfl, rfl⟩) (fun r _ hn => hn) (fun r hr ha => ?_) (fun r hr id hid => ?_)
    fun r _ id hid => .inr ?_
  · simp only [FileRow.commit, FileRow.active, Bool.and_eq_true] at ha
    simp [FileRow.active, ha.1, (selectsPending_iff.1 hr).2.2]
  · rw [refersTo_of_pending (selectsPending_iff.1 hr).2.2] at hid
    cases hid
  · simp only [FileRow.refersTo, FileRow.commit, Bool.and_eq_true, decide_eq_true_eq,
      Option.some.injEq] at hid
    exact hid.1 ▸ hc result rfl

theorem expireStalePending_alters (db : Db) (olderThan : Time) (hw : x.who = none) :
    Alters lower x db (expireStalePending db olderThan) := by
  refine ⟨.updateFile _ _ _ (fun r _ u hu => ?_) (fun r => ⟨rfl, rfl⟩)
    (fun r _ hn => .inl hn) (filesUnique_updateRows rfl (fun r _ ha => ?_) fun r => rfl)
    (fun r hr id hid => ?_) fun r _ id hid => ?_, rfl⟩
  · cases hw.symm.trans hu
  · simp [FileRow.active] at ha
  · rw [Bool.and_eq_true, beq_iff_eq] at hr
    rw [refersTo_of_pending hr.1] at hid
    cases hid
  · simp [FileRow.refersTo, FileRow.committed] at hid

theorem softDeleteFile_alters (db : Db) (fileID userID : Uuid) (now : Time)
    (hw : x.who = some userID) :
    Alters lower x db
      (db.after (softDeleteFile db fileID userID now)) := by
  unfold softDeleteFile
  dsimp only
  split
  · exact .same db
  refine ⟨updateOwn_effect hw (fun r hr => ?_) (fun r => ⟨rfl, rfl, rfl⟩)
    (fun r _ hn => by cases hn) (fun r _ ha => ?_) (fun r _ id hid => hid)
    fun r _ id hid => .inl hid, rfl⟩
  · rw [Bool.and_eq_true] at hr
    exact (selectsFile_iff.1 hr.1).2.1
  · simp [FileRow.active] at ha

theorem restoreFile_alters (db : Db) (fileID userID : Uuid) (hw : x.who = some userID) :
    Alters lower x db
      (db.after (restoreFile lower db fileID userID)) := by
  unfold restoreFile
  dsimp only
  split
  · exact .same db
  split
  · exact .same db
  rename_i hu
  refine ⟨.updateFile _ _ _ (fun r hr u hu => ?_) (fun r => ⟨rfl, rfl⟩) (fun r hr _ => .inr ?_)
    (fun _ => by simpa using hu) (fun r _ id hid => hid) fun r _ id hid => .inl hid, rfl⟩
  · rw [Bool.and_eq_true] at hr
    rw [(selectsFile_iff.1 hr.1).2.1]
    exact Option.some.inj (hw.symm.trans hu)
  · rw [Bool.and_eq_true] at hr
    exact (selectsFile_iff.1 hr.1).2.2.2

theorem setFileStarred_alters (db : Db) (fileID userID : Uuid) (starred : Bool) (now : Time)
    (hw : x.who = some userID) :
    Alters lower x db
      (db.after (setFileStarred db fileID userID starred now)) := by
  unfold setFileStarred
  dsimp only
  split
  · exact .same db
  refine ⟨updateOwn_effect hw (fun r hr => ?_) (fun r => ⟨rfl, rfl, rfl⟩) (fun r _ hn => hn)
    (fun r _ ha => ha) (fun r _ id hid => hid) fun r _ id hid => .inl hid, rfl⟩
  rw [Bool.and_eq_true] at hr
  exact (selectsFile_iff.1 hr.1).2.1

/-- `FileRepository.PermanentDelete` that succeeds removes rows of the user from trash. -/
theorem permanentDeleteFile_ok {db db' : Db} {fileID userID : Uuid} {now : Time}
    (h : permanentDeleteFile db fileID userID now = .ok db') :
    db'.toMetadata = { db.toMetadata with
      files := db.files.deleteWhere fun f =>
        db.selectsFile fileID userID f && f.dihapusPada.isSome } := by
  unfold permanentDeleteFile at h
  dsimp only at h
  split at h
  · cases h
  cases h
  rw [queueManifestRetirements_metadata]

/-! ## All calls -/

def Call.Deletes : Call → Prop
  | .permanentDeleteDirectory _ => True
  | .permanentDeleteFile _ => True
  | _ => False

def Event.scope : Event → Scope
  | .call userID c =>
    ⟨some userID, fun id => c = .restoreDirectory id,
      fun manifestID => ∃ fileID result, c = .uploadFinish fileID (.ok result) ∧
        result.manifestID = manifestID, c.Deletes⟩
  | .expireStalePending _ => ⟨none, fun _ => False, fun _ => False, False⟩

/-- Only permanent deletes and the end of an upload touch the requests. -/
theorem runCall_alters (db : Db) (userID : Uuid) (now : Time) (c : Call) (hdel : ¬ c.Deletes)
    (hfin : ∀ fileID answer, c ≠ .uploadFinish fileID answer) :
    Alters lower (Event.call userID c).scope db (runCall lower db userID now c) := by
  cases c with
  | createDirectory name parentID newID =>
    exact serviceCreateDirectory_alters db userID name parentID newID now rfl
  | softDeleteDirectory id => exact softDeleteSubtree_alters db id userID now rfl
  | restoreDirectory id => exact restoreSubtree_alters db id userID rfl rfl
  | permanentDeleteDirectory id => exact absurd trivial hdel
  | starDirectory id starred => exact setDirectoryStarred_alters db id userID starred now rfl
  | uploadStart directoryID fileName mimeType newID =>
    exact uploadStart_alters db userID directoryID fileName mimeType newID now rfl
  | uploadFinish id answer => exact absurd rfl (hfin id answer)
  | softDeleteFile id => exact softDeleteFile_alters db id userID now rfl
  | restoreFile id => exact restoreFile_alters db id userID rfl
  | permanentDeleteFile id => exact absurd trivial hdel
  | starFile id starred => exact setFileStarred_alters db id userID starred now rfl

/-- **What a call can do.** -/
theorem runCall_effect (db : Db) (userID : Uuid) (now : Time) (c : Call) :
    Effect lower (Event.call userID c).scope db.toMetadata
      (runCall lower db userID now c).toMetadata := by
  cases c with
  | permanentDeleteDirectory id =>
    simp only [runCall]
    split
    · rename_i db' h
      obtain ⟨hdel, hm⟩ := permanentDeleteSubtree_ok h
      exact hm ▸ .remove id userID rfl trivial hdel
    · exact .same
  | permanentDeleteFile id =>
    simp only [runCall]
    split
    · rename_i db' h
      rw [permanentDeleteFile_ok h]
      refine .removeFile _ (fun r hr => ?_) trivial
      rw [Bool.and_eq_true] at hr
      rw [(selectsFile_iff.1 hr.1).2.1]
      rfl
    · exact .same
  | uploadFinish id answer =>
    exact uploadFinish_effect db userID id answer now rfl fun result h => ⟨id, result, h ▸ rfl, rfl⟩
  | _ => exact (runCall_alters db userID now _ (by simp [Call.Deletes]) (by simp)).effect

theorem step_effect {db db' : Db} {e : Event × Time} (h : step lower db e = some db') :
    Effect lower e.1.scope db.toMetadata db'.toMetadata := by
  obtain ⟨e, now⟩ := e
  cases e with
  | call userID c => cases h; exact runCall_effect db userID now c
  | expireStalePending olderThan =>
    cases h
    exact (expireStalePending_alters db olderThan rfl).effect

end HashBox.Api
