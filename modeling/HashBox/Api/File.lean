import HashBox.Api.Retirement

/-!
# Files (`internal/service/file_service.go`, `internal/repository/file_repository.go`)

The statements on `files`, each atomic, and the two halves of `FileService.Upload` before and after
the stream goes to Vault. `RETURNING` gives the row as the statement left it.
-/

namespace HashBox.Api

/-- The `WHERE` clause that the statements on one committed file share: the user's file, committed,
its directory (if any) not in trash. -/
def Metadata.selectsFile (m : Metadata) (fileID userID : Uuid) (f : FileRow) : Bool :=
  f.idBerkas == fileID && f.idPengguna == userID && f.committed && m.reachableFile f

section
variable (lower : String → String)

/-- `CreatePending`: the insert, with the constraints of the table in the order PostgreSQL meets
them. -/
def insertPending (db : Db) (row : FileRow) : Except Error Db :=
  if 255 < row.nama.length ∨ 150 < row.mimeType.length then .error valueTooLong
  else
    match db.files.insert [row] with
    | none => .error uniqueViolation
    | some files =>
      if !filesUnique lower files then .error uniqueViolation
      else if row.idDirektori.any fun d => decide (d ∉ db.directories.rows.map (·.idDirektori)) then
        .error (.pg "23503")
      else .ok { db with files }

/-- The row that `CreatePending` inserts. -/
def pendingRow (userID : Uuid) (directoryID : Option Uuid) (name mimeType : String) (newID : Uuid)
    (now : Time) : FileRow where
  idBerkas := newID
  idPengguna := userID
  idDirektori := directoryID
  nama := name
  ukuran := 0
  mimeType := mimeType
  idManifest := none
  chunkCount := 0
  newChunkCount := 0
  reuseChunkCount := 0
  dedupRatio := 0
  statusPenyimpanan := .pending
  dibintangiPada := none
  dibuatPada := now
  dihapusPada := none

def createPending (db : Db) (userID : Uuid) (directoryID : Option Uuid) (name mimeType : String)
    (newID : Uuid) (now : Time) : Except Error (Db × FileRow) :=
  let row := pendingRow userID directoryID name mimeType newID now
  match insertPending lower db row with
  | .ok db => .ok (db, row)
  | .error e =>
    if isUniqueViolation e then
      .error (.detail .errConflict "nama berkas sudah ada pada direktori")
    else .error (.wrap "insert pending file metadata" e)

/-- The assignment of `MarkCommitted`. -/
def FileRow.commit (result : UploadCommitResult) (now : Time) (f : FileRow) : FileRow :=
  { f with
    ukuran := result.totalSizeBytes
    idManifest := some result.manifestID
    statusPenyimpanan := .committed
    dibuatPada := now
    chunkCount := result.chunkCount
    newChunkCount := result.newChunkCount
    reuseChunkCount := result.reuseChunkCount
    dedupRatio := result.dedupRatio }

/-- `… WHERE id_berkas = ? AND id_pengguna = ? AND status_penyimpanan = 'pending'`. -/
def selectsPending (fileID userID : Uuid) (f : FileRow) : Bool :=
  f.idBerkas == fileID && f.idPengguna == userID && f.statusPenyimpanan == .pending

/-- `MarkCommitted`. A row that it commits is in the partial index already, if it is live. -/
def markCommitted (db : Db) (fileID userID : Uuid) (result : UploadCommitResult) (now : Time) :
    Except Error (Db × FileRow) :=
  match db.files.rows.find? (selectsPending fileID userID) with
  | none => .error .errNotFound
  | some f =>
    .ok ({ db with
      files := db.files.updateWhere (selectsPending fileID userID) (FileRow.commit result now)
        fun _ => rfl }, f.commit result now)

def markFailed (db : Db) (fileID userID : Uuid) : Db :=
  { db with
    files := db.files.updateWhere (selectsPending fileID userID)
      (fun f => { f with statusPenyimpanan := .failed }) fun _ => rfl }

def expireStalePending (db : Db) (olderThan : Time) : Db :=
  { db with
    files := db.files.updateWhere
      (fun f => f.statusPenyimpanan == .pending && decide (f.dibuatPada < olderThan))
      (fun f => { f with statusPenyimpanan := .failed }) fun _ => rfl }

def existsActiveByDirectoryAndName (db : Db) (userID : Uuid) (directoryID : Option Uuid)
    (name : String) : Bool :=
  db.files.rows.any fun f =>
    f.idPengguna == userID && f.active && lower f.nama == lower name &&
      f.idDirektori == directoryID

/-! ## One committed file -/

/-- `FileRepository.SoftDelete`. -/
def softDeleteFile (db : Db) (fileID userID : Uuid) (now : Time) : Except Error (Db × Time) :=
  let selects (f : FileRow) : Bool := db.selectsFile fileID userID f && f.dihapusPada.isNone
  if !db.files.rows.any selects then .error .errNotFound
  else
    .ok ({ db with
      files := db.files.updateWhere selects (fun f => { f with dihapusPada := some now })
        fun _ => rfl }, now)

/-- `FileRepository.Restore`. -/
def restoreFile (db : Db) (fileID userID : Uuid) : Except Error (Db × FileRow) :=
  let selects (f : FileRow) : Bool := db.selectsFile fileID userID f && f.dihapusPada.isSome
  let files := db.files.updateWhere selects (fun f => { f with dihapusPada := none })
    FileRow.untrash_key
  match db.files.rows.find? selects with
  | none => .error .errNotFound
  | some f =>
    if !filesUnique lower files then .error (.wrap "restore file" uniqueViolation)
    else .ok ({ db with files }, { f with dihapusPada := none })

/-- `FileRepository.PermanentDelete`. -/
def permanentDeleteFile (db : Db) (fileID userID : Uuid) (now : Time) : Except Error Db :=
  let selects (f : FileRow) : Bool := db.selectsFile fileID userID f && f.dihapusPada.isSome
  let deletedRows := db.files.rows.filter selects
  if deletedRows = [] then .error .errNotFound
  else
    let db := { db with files := db.files.deleteWhere selects }
    .ok (queueManifestRetirements db (deletedRows.filterMap (·.idManifest)) now)

/-- `FileRepository.SetStarred`. -/
def setFileStarred (db : Db) (fileID userID : Uuid) (starred : Bool) (now : Time) :
    Except Error (Db × FileRow) :=
  let selects (f : FileRow) : Bool := db.selectsFile fileID userID f && f.dihapusPada.isNone
  let star (f : FileRow) : FileRow :=
    { f with dibintangiPada := if starred then some now else none }
  match db.files.rows.find? selects with
  | none => .error .errNotFound
  | some f => .ok ({ db with files := db.files.updateWhere selects star fun _ => rfl }, star f)

/-! ## `FileService.Upload` -/

/-- The name a file is stored under. -/
def uploadName (fileName : String) : String :=
  if trimSpace fileName = "" then "upload.bin" else trimSpace fileName

def uploadMimeType (mimeType : String) : String :=
  if trimSpace mimeType = "" then "application/octet-stream" else trimSpace mimeType

/-- Up to the Vault call. -/
def uploadStart (db : Db) (userID : Uuid) (directoryID : Option Uuid) (fileName mimeType : String)
    (newID : Uuid) (now : Time) : Except Error (Db × FileRow) :=
  if directoryID.any fun d => !db.ownsLive userID d then .error .errNotFound
  else if existsActiveByDirectoryAndName lower db userID directoryID (uploadName fileName) then
    .error (.detail .errConflict "nama berkas sudah ada pada direktori")
  else
    match createPending lower db userID directoryID (uploadName fileName)
      (uploadMimeType mimeType) newID now with
    | .error e => .error (.wrap "simpan metadata pending berkas gagal" e)
    | .ok out => .ok out

/-- From the Vault client's answer on: what remains to be done on the database, and what the call
returns. -/
def uploadFinish (db : Db) (userID fileID : Uuid) (answer : Except Error UploadCommitResult)
    (now : Time) : Db × Except Error FileRow :=
  match answer with
  | .error e => (markFailed db fileID userID, .error e)
  | .ok result =>
    match markCommitted db fileID userID result now with
    | .error e => (markFailed db fileID userID, .error (.wrap "simpan metadata berkas gagal" e))
    | .ok (db, record) => (requeueManifestRetirement db result.manifestID now, .ok record)

end

end HashBox.Api
