import HashBox.Lib.ReadCommitted
import HashBox.Lib.Threads
import HashBox.Api.Calls

/-!
# The statements that write `files`, interleaved

Every call that writes `files` runs as a `Job`, statement by statement: the uploads, the reaper of
stale pending rows, and the soft deletes, restores, stars and permanent deletes of files and of
subtrees. A statement is one step. What a transaction has written nobody else sees, and the rows it
has written or read `FOR UPDATE` are locked until it ends; a statement that selects a row that
another transaction has locked waits. Any statement may fail, and a job may be abandoned at any
point; its transaction is rolled back then. A transaction that violates an index of `files` fails
when it commits at the latest.

Row locks on other tables and the advisory locks are left out: the runs without them include those
with them. `gen_random_uuid()` draws no id twice.
-/

namespace HashBox.Api

/-! ## The statements -/

/-- The statements that `UPDATE` or `DELETE` rows of `files`, each named for its function. -/
inductive Statement
  | markCommitted (fileID userID : Uuid) (result : UploadCommitResult)
  | markFailed (fileID userID : Uuid)
  | expireStalePending (olderThan : Time)
  | softDelete (fileID userID : Uuid)
  | restore (fileID userID : Uuid)
  | setStarred (fileID userID : Uuid) (starred : Bool)
  | permanentDelete (fileID userID : Uuid)
  | softDeleteSubtree (directoryID : Uuid)
  | restoreSubtree (directoryID userID : Uuid)
  | permanentDeleteSubtree (subtreeIDs : List Uuid)

namespace Statement

/-- The `WHERE` clause. -/
def selects (m : Metadata) : Statement → FileRow → Bool
  | .markCommitted fileID userID _, f => selectsPending fileID userID f
  | .markFailed fileID userID, f => selectsPending fileID userID f
  | .expireStalePending olderThan, f =>
    f.statusPenyimpanan == .pending && decide (f.dibuatPada < olderThan)
  | .softDelete fileID userID, f => m.selectsFile fileID userID f && f.dihapusPada.isNone
  | .restore fileID userID, f => m.selectsFile fileID userID f && f.dihapusPada.isSome
  | .setStarred fileID userID _, f => m.selectsFile fileID userID f && f.dihapusPada.isNone
  | .permanentDelete fileID userID, f => m.selectsFile fileID userID f && f.dihapusPada.isSome
  | .softDeleteSubtree directoryID, f => f.within (m.subtree directoryID)
  | .restoreSubtree directoryID userID, f =>
    f.within (m.subtree directoryID) && f.idDirektori.any (m.owns userID)
  | .permanentDeleteSubtree subtreeIDs, f => f.within subtreeIDs

/-- The `SET` clause; a `DELETE` has none. -/
def sets (now : Time) : Statement → FileRow → Option FileRow
  | .markCommitted _ _ result, f => some (f.commit result now)
  | .markFailed _ _, f => some { f with statusPenyimpanan := .failed }
  | .expireStalePending _, f => some { f with statusPenyimpanan := .failed }
  | .softDelete _ _, f => some { f with dihapusPada := some now }
  | .restore _ _, f => some { f with dihapusPada := none }
  | .setStarred _ _ starred, f =>
    some { f with dibintangiPada := if starred then some now else none }
  | .permanentDelete _ _, _ => none
  | .softDeleteSubtree _, f => some { f with dihapusPada := some (f.dihapusPada.getD now) }
  | .restoreSubtree _ _, f => some { f with dihapusPada := none }
  | .permanentDeleteSubtree _, _ => none

/-- What the statement makes of a row when it writes the rows `ids`. -/
def rewrites (now : Time) (st : Statement) (ids : List Uuid) (f : FileRow) : Option FileRow :=
  if f.idBerkas ∈ ids then st.sets now f else some f

theorem rewrites_key {now : Time} {st : Statement} {ids : List Uuid} (f g : FileRow)
    (h : st.rewrites now ids f = some g) : g.idBerkas = f.idBerkas := by
  unfold rewrites at h
  split at h
  · cases st <;> cases h <;> rfl
  · cases h
    rfl

/-- The table once the statement has written the rows `ids`. -/
def write (now : Time) (st : Statement) (ids : List Uuid) (files : Table FileRow.idBerkas) :
    Table FileRow.idBerkas :=
  files.filterMap (st.rewrites now ids) rewrites_key

/-- The rows that the statement selects. -/
def selected (m : Metadata) (st : Statement) : List FileRow := m.files.rows.filter (st.selects m)

def selectedIDs (m : Metadata) (st : Statement) : List Uuid := (st.selected m).map (·.idBerkas)

/-- The rows of the `SELECT … FOR UPDATE` before a `DELETE`: its rows that are committed. -/
def finds (m : Metadata) (st : Statement) : List FileRow := (st.selected m).filter (·.committed)

/-- The transaction of `PermanentDelete` starts with its `SELECT … FOR UPDATE`. -/
def startsAt (before now : Time) : Statement → Time
  | .permanentDelete _ _ => now
  | _ => before

/-- `PermanentDelete` queues the manifests of the rows that its `DELETE` returns,
`PermanentDeleteSubtree` those that it has read. -/
def queues (read : List Hash) (deleted : List FileRow) : Statement → List Hash
  | .permanentDelete _ _ => deleted.filterMap (·.idManifest)
  | _ => read

/-- `PermanentDelete` returns `ErrNotFound` when a statement of it reaches no row. -/
def notFound : Statement → List FileRow → Bool
  | .permanentDelete _ _, rows => rows.isEmpty
  | _, _ => false

end Statement

/-! ## The calls -/

inductive FileCall
  | upload (userID : Uuid) (directoryID : Option Uuid) (fileName mimeType : String)
  | expireStalePending (olderThan : Time)
  | softDelete (fileID userID : Uuid)
  | restore (fileID userID : Uuid)
  | setStarred (fileID userID : Uuid) (starred : Bool)
  | permanentDelete (fileID userID : Uuid)
  | softDeleteSubtree (directoryID userID : Uuid)
  | restoreSubtree (directoryID userID : Uuid)
  | permanentDeleteSubtree (directoryID userID : Uuid)

/-- Where a job is. -/
inductive JobPoint
  /-- `FileService.Upload`. -/
  | checkOwned
  | checkExists
  | createPending
  | vaultUpload (fileID userID : Uuid)
  | lockLifecycle (fileID userID : Uuid) (result : UploadCommitResult)
  | requeue (record : FileRow)
  | retain (record : FileRow)
  /-- A statement that is a transaction of its own. -/
  | statement (st : Statement)
  /-- The reads before a subtree transaction writes. -/
  | checkDirectory
  | querySubtree
  /-- `SELECT … FOR UPDATE`. -/
  | find (st : Statement)
  /-- The statements of a transaction. -/
  | write (st : Statement)
  | directories
  | commit (st : Statement)

/-- The first statement of a call. -/
def FileCall.first : FileCall → JobPoint
  | .upload _ _ _ _ => .checkOwned
  | .expireStalePending olderThan => .statement (.expireStalePending olderThan)
  | .softDelete fileID userID => .statement (.softDelete fileID userID)
  | .restore fileID userID => .statement (.restore fileID userID)
  | .setStarred fileID userID starred => .statement (.setStarred fileID userID starred)
  | .permanentDelete fileID userID => .find (.permanentDelete fileID userID)
  | .softDeleteSubtree _ _ => .checkDirectory
  | .restoreSubtree _ _ => .checkDirectory
  | .permanentDeleteSubtree _ _ => .checkDirectory

structure Job where
  call : FileCall
  point : JobPoint
  /-- `NOW()`, the start of the transaction. -/
  now : Time
  subtreeIDs : List Uuid
  /-- The manifests to queue. -/
  manifestIDs : List Hash
  /-- The rows of `files` that are written and not committed. -/
  written : List Uuid

def Job.start (call : FileCall) : Job := ⟨call, call.first, 0, [], [], []⟩

/-- The statement after the one on `files`. -/
def Statement.afterWrite (st : Statement) : JobPoint :=
  match st with
  | .softDeleteSubtree _ => .directories
  | _ => .commit st

/-- What the commit of a job's transaction makes of the database. -/
def Job.apply (x : Job) (st : Statement) (db : Db) : Db :=
  let db := { db with files := st.write x.now x.written db.files }
  match x.call with
  | .permanentDelete _ _ => queueManifestRetirements db x.manifestIDs x.now
  | .softDeleteSubtree _ userID =>
    { db with directories := (db.trashSubtree x.subtreeIDs userID x.now).directories }
  | .restoreSubtree _ userID =>
    { db with directories := (db.untrashSubtree x.subtreeIDs userID).directories }
  | .permanentDeleteSubtree _ userID =>
    let db := queueManifestRetirements db x.manifestIDs x.now
    db.withMetadata (db.removeDirectories x.subtreeIDs userID)
  | _ => db

/-! ## The system -/

/-- What `FileService.Upload` has seen: the id that `CreatePending` returned, the result of Vault,
and the records that `MarkCommitted` and the call itself have returned. -/
structure UploadLog where
  created : Option Uuid
  vaultResult : Option UploadCommitResult
  markCommitted : Option FileRow
  returned : Option FileRow

structure FileSystem where
  db : Db
  rowLocks : Locks Uuid
  jobs : Nat → Option Job
  /-- The jobs that have begun and the ids that have been drawn, so far. -/
  begun : List Nat
  drawn : List Uuid
  logs : Nat → UploadLog

/-- What a statement is given: the time, the id it draws, and for an upload Vault's answer. -/
structure Input where
  now : Time
  newID : Uuid
  vault : Except Error UploadCommitResult

inductive FileAction
  | begin (t : Nat) (call : FileCall)
  | next (t : Nat) (input : Input)
  /-- The statement under way fails. -/
  | fail (t : Nat)
  /-- The job ends where it is. -/
  | abandon (t : Nat)
  /-- The calls on directories that do not write `files`. -/
  | createDirectory (userID : Uuid) (name : String) (parentID : Option Uuid) (newID : Uuid)
    (now : Time)
  | starDirectory (directoryID userID : Uuid) (starred : Bool) (now : Time)

namespace FileSystem

def idle (db : Db) : FileSystem :=
  ⟨db, .free, fun _ => none, [], [], fun _ => ⟨none, none, none, none⟩⟩

def goes (s : FileSystem) (t : Nat) (x : Job) : FileSystem :=
  { s with jobs := Function.update s.jobs t (some x) }

/-- The transaction of the job is over. -/
def release (s : FileSystem) (t : Nat) : FileSystem :=
  { s with rowLocks := s.rowLocks.release t }

def ends (s : FileSystem) (t : Nat) : FileSystem :=
  { s with jobs := Function.update s.jobs t none, rowLocks := s.rowLocks.release t }

def notes (s : FileSystem) (t : Nat) (f : UploadLog → UploadLog) : FileSystem :=
  { s with logs := Function.update s.logs t (f (s.logs t)) }

/-- After an error of `MarkCommitted` the upload marks its row failed. -/
def markFailed (s : FileSystem) (t : Nat) (x : Job) (fileID userID : Uuid) : FileSystem :=
  (s.release t).goes t { x with point := .statement (.markFailed fileID userID), written := [] }

/-- The upload returns its record. -/
def returns (s : FileSystem) (t : Nat) (record : FileRow) : FileSystem :=
  (s.notes t fun l => { l with returned := some record }).ends t

/-- A statement of the job fails. Errors after `MarkCommitted` are logged. -/
def fails (s : FileSystem) (t : Nat) (x : Job) : FileSystem :=
  match x.point with
  | .vaultUpload fileID userID => s.markFailed t x fileID userID
  | .lockLifecycle fileID userID _ => s.markFailed t x fileID userID
  | .write (.markCommitted fileID userID _) => s.markFailed t x fileID userID
  | .commit (.markCommitted fileID userID _) => s.markFailed t x fileID userID
  | .requeue record => s.goes t { x with point := .retain record }
  | .retain record => s.returns t record
  | _ => s.ends t

section
variable (lower : String → String)

/-- The commit of a transaction. -/
def commits (s : FileSystem) (t : Nat) (x : Job) (st : Statement) : FileSystem :=
  let db := x.apply st s.db
  if !filesUnique lower db.files then s.fails t x
  else
    let s := { s with db }
    match st with
    | .markCommitted fileID userID _ =>
      match db.files.rows.find? fun f => decide (f.idBerkas ∈ x.written) with
      | none => s.markFailed t x fileID userID
      | some record =>
        ((s.release t).notes t fun l => { l with markCommitted := some record }).goes t
          { x with point := .requeue record, written := [] }
    | _ => s.ends t

/-- The next statement of a job; `none` while it waits for a row. -/
def next (s : FileSystem) (t : Nat) (x : Job) (i : Input) : Option FileSystem :=
  match x.point with
  | .checkOwned =>
    match x.call with
    | .upload userID directoryID _ _ =>
      some (if directoryID.any fun d => !s.db.ownsLive userID d then s.ends t
        else s.goes t { x with point := .checkExists })
    | _ => none
  | .checkExists =>
    match x.call with
    | .upload userID directoryID fileName _ =>
      some (if existsActiveByDirectoryAndName lower s.db userID directoryID (uploadName fileName)
        then s.ends t else s.goes t { x with point := .createPending })
    | _ => none
  | .createPending =>
    match x.call with
    | .upload userID directoryID fileName mimeType =>
      if i.newID ∈ s.drawn then none
      else
        match createPending lower s.db userID directoryID (uploadName fileName)
          (uploadMimeType mimeType) i.newID i.now with
        | .error _ => some (s.ends t)
        | .ok (db, row) =>
          let s := { s with db, drawn := row.idBerkas :: s.drawn }
          some ((s.notes t fun l => { l with created := some row.idBerkas }).goes t
            { x with point := .vaultUpload row.idBerkas userID })
    | _ => none
  | .vaultUpload fileID userID =>
    match i.vault with
    | .error _ => some (s.markFailed t x fileID userID)
    | .ok result =>
      some ((s.notes t fun l => { l with vaultResult := some result }).goes t
        { x with point := .lockLifecycle fileID userID result })
  | .lockLifecycle fileID userID result =>
    some (s.goes t { x with point := .write (.markCommitted fileID userID result), now := i.now })
  | .requeue record =>
    let db := match record.idManifest with
      | none => s.db
      | some manifestID => requeueManifestRetirement s.db manifestID i.now
    some ({ s with db }.goes t { x with point := .retain record })
  | .retain record => some (s.returns t record)
  | .statement st =>
    let ids := st.selectedIDs s.db.toMetadata
    (s.rowLocks.acquireAll t ids).map fun _ =>
      let files := st.write i.now ids s.db.files
      if filesUnique lower files then { s with db := { s.db with files } }.ends t else s.ends t
  | .checkDirectory =>
    match x.call with
    | .softDeleteSubtree directoryID userID =>
      some (if s.db.ownsLive userID directoryID then
        s.goes t { x with point := .write (.softDeleteSubtree directoryID), now := i.now }
        else s.ends t)
    | .restoreSubtree directoryID userID =>
      some (if s.db.ownsDeleted userID directoryID then
        s.goes t { x with point := .directories, now := i.now } else s.ends t)
    | .permanentDeleteSubtree directoryID userID =>
      some (if s.db.ownsDeleted userID directoryID then
        s.goes t { x with point := .querySubtree, now := i.now } else s.ends t)
    | _ => none
  | .querySubtree =>
    match x.call with
    | .permanentDeleteSubtree directoryID _ =>
      let subtreeIDs := s.db.subtree directoryID
      some (if subtreeIDs = [] then s.ends t
        else s.goes t { x with point := .find (.permanentDeleteSubtree subtreeIDs), subtreeIDs })
    | _ => none
  | .directories =>
    match x.call with
    | .softDeleteSubtree directoryID _ =>
      some (s.goes t { x with
        point := .commit (.softDeleteSubtree directoryID)
        subtreeIDs := s.db.subtree directoryID })
    | .restoreSubtree directoryID userID =>
      some (s.goes t { x with
        point := .write (.restoreSubtree directoryID userID)
        subtreeIDs := s.db.subtree directoryID })
    | _ => none
  | .find st =>
    let found := st.finds s.db.toMetadata
    (s.rowLocks.acquireAll t (found.map (·.idBerkas))).map fun rowLocks =>
      if st.notFound found then s.ends t
      else { s with rowLocks }.goes t { x with
        point := .write st
        now := st.startsAt x.now i.now
        manifestIDs := found.filterMap FileRow.idManifest }
  | .write st =>
    let rows := st.selected s.db.toMetadata
    let ids := st.selectedIDs s.db.toMetadata
    (s.rowLocks.acquireAll t ids).map fun rowLocks =>
      if st.notFound rows then s.ends t
      else { s with rowLocks }.goes t { x with
        point := st.afterWrite
        manifestIDs := st.queues x.manifestIDs rows
        written := ids }
  | .commit st => some (s.commits lower t x st)

def step (s : FileSystem) : FileAction → Option FileSystem
  | .begin t call =>
    if t ∈ s.begun then none
    else some ({ s with begun := t :: s.begun }.goes t (.start call))
  | .next t input => (s.jobs t).bind fun x => s.next lower t x input
  | .fail t => (s.jobs t).map fun x => s.fails t x
  | .abandon t => (s.jobs t).map fun _ => s.ends t
  | .createDirectory userID name parentID newID now =>
    some { s with
      db := s.db.after (serviceCreateDirectory lower s.db userID name parentID newID now) }
  | .starDirectory directoryID userID starred now =>
    some { s with db := s.db.after (setDirectoryStarred s.db directoryID userID starred now) }

end

end FileSystem

end HashBox.Api
