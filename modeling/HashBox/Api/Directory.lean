import HashBox.Api.Retirement

/-!
# Directories

The functions of `internal/service/directory_service.go` and
`internal/repository/directory_repository.go`. Each function is one transaction: it returns the new
database, or an error and then the database stays as it was. The service's checks come first; an
empty id parameter is `none`.
-/

namespace HashBox.Api

/-- `domain.DirectoryRecord`. -/
structure DirectoryRecord where
  id : Uuid
  name : String
  depth : Nat
  parentID : Option Uuid
  createdAt : Time
  deletedAt : Option Time
  starredAt : Option Time
deriving DecidableEq, Repr

/-- The parent of a directory: `… WHERE id_turunan = ? AND kedalaman = 1 LIMIT 1`. -/
def Metadata.parent (m : Metadata) (directoryID : Uuid) : Option Uuid :=
  (m.directoryClosure.rows.find? fun c =>
    c.idTurunan == directoryID && c.kedalaman == 1).map (·.idInduk)

def DirectoryRow.toRecord (d : DirectoryRow) (parentID : Option Uuid) : DirectoryRecord :=
  ⟨d.idDirektori, d.nama, 0, parentID, d.dibuatPada, d.dihapusPada, d.dibintangPada⟩

/-- The record of a directory of the user, with its parent. -/
def Metadata.directoryRecord (m : Metadata) (directoryID userID : Uuid) : Option DirectoryRecord :=
  (m.directories.rows.find? fun d =>
    d.idDirektori == directoryID && d.idPengguna == userID).map fun d =>
      d.toRecord (m.parent directoryID)

section
variable (lower : String → String)

def checkDuplicate (db : Db) (userID : Uuid) (name : String) (parentID : Option Uuid) :
    Except Error Bool :=
  let sameName (d : DirectoryRow) : Bool :=
    d.idPengguna == userID && d.live && lower d.nama == lower name
  match parentID with
  | none =>
    .ok (db.directories.rows.any fun d => sameName d &&
      !db.directoryClosure.rows.any fun c => c.idTurunan == d.idDirektori && c.kedalaman == 1)
  | some parentID =>
    if !db.ownsLive userID parentID then .error .errNotFound
    else .ok (db.directoryClosure.rows.any fun c => c.idInduk == parentID && c.kedalaman == 1 &&
      db.directories.rows.any fun d => d.idDirektori == c.idTurunan && sameName d)

/-- The closure rows that `Create` inserts for a new directory. -/
def Metadata.newClosureRows (m : Metadata) (newID : Uuid) : Option Uuid → List ClosureRow
  | none => [⟨newID, newID, 0⟩]
  | some parentID =>
    (m.directoryClosure.rows.filter (·.idTurunan == parentID)).map
      (fun c => ⟨c.idInduk, newID, c.kedalaman + 1⟩) ++ [⟨newID, newID, 0⟩]

/-- `DirectoryRepository.Create`. -/
def createDirectory (db : Db) (userID : Uuid) (name : String) (parentID : Option Uuid)
    (newID : Uuid) (now : Time) : Except Error (Db × DirectoryRecord) :=
  match checkDuplicate lower db userID name parentID with
  | .error e => .error e
  | .ok true => .error .errConflict
  | .ok false =>
    if 255 < name.length then .error (.wrap "insert directory" valueTooLong)
    else
      let row : DirectoryRow := ⟨newID, userID, name, none, now, none⟩
      match db.directories.insert [row] with
      | none => .error (.wrap "insert directory" uniqueViolation)
      | some directories =>
        match db.directoryClosure.insert (db.newClosureRows newID parentID) with
        | none =>
          .error (.wrap (if parentID.isNone then "insert root closure" else "insert child closure")
            uniqueViolation)
        | some directoryClosure =>
          .ok ({ db with directories, directoryClosure }, row.toRecord parentID)

/-- `DirectoryService.Create`. `len(name)` counts bytes. -/
def serviceCreateDirectory (db : Db) (userID : Uuid) (name : String) (parentID : Option Uuid)
    (newID : Uuid) (now : Time) : Except Error (Db × DirectoryRecord) :=
  let name := trimSpace name
  if name = "" then .error (.validation "nama direktori wajib diisi")
  else if 255 < name.utf8ByteSize then .error (.validation "nama direktori terlalu panjang")
  else createDirectory lower db userID name parentID newID now

end

/-! ## Trash

The statements of the three subtree transactions; `subtree` is the list of directory ids that their
subqueries yield. -/

/-- The `UPDATE`s of `SoftDeleteSubtree`: a row in trash keeps its time. -/
def Metadata.trashSubtree (m : Metadata) (subtree : List Uuid) (userID : Uuid) (now : Time) :
    Metadata :=
  { m with
    files := m.files.updateWhere (fun f => f.within subtree)
      (fun f => { f with dihapusPada := some (f.dihapusPada.getD now) }) fun _ => rfl
    directories := m.directories.updateWhere
      (fun d => decide (d.idDirektori ∈ subtree) && d.idPengguna == userID)
      (fun d => { d with dihapusPada := some (d.dihapusPada.getD now) }) fun _ => rfl }

/-- The `UPDATE`s of `RestoreSubtree`: the mark is cleared from every row. -/
def Metadata.untrashSubtree (m : Metadata) (subtree : List Uuid) (userID : Uuid) : Metadata :=
  { m with
    directories := m.directories.updateWhere
      (fun d => decide (d.idDirektori ∈ subtree) && d.idPengguna == userID)
      (fun d => { d with dihapusPada := none }) fun _ => rfl
    files := m.files.updateWhere
      (fun f => f.within subtree && f.idDirektori.any (m.owns userID))
      (fun f => { f with dihapusPada := none }) FileRow.untrash_key }

/-- `DELETE FROM files` of `PermanentDeleteSubtree`. -/
def Metadata.removeFiles (m : Metadata) (subtree : List Uuid) : Metadata :=
  { m with files := m.files.deleteWhere fun f => f.within subtree }

/-- `DELETE FROM directory_closure` and `DELETE FROM directories` of `PermanentDeleteSubtree`. -/
def Metadata.removeDirectories (m : Metadata) (subtree : List Uuid) (userID : Uuid) : Metadata :=
  { m with
    directoryClosure := m.directoryClosure.deleteWhere fun c =>
      decide (c.idInduk ∈ subtree) || decide (c.idTurunan ∈ subtree)
    directories := m.directories.deleteWhere fun d =>
      decide (d.idDirektori ∈ subtree) && d.idPengguna == userID }

def softDeleteSubtree (db : Db) (directoryID userID : Uuid) (now : Time) :
    Except Error (Db × DirectoryRecord) :=
  if !db.ownsLive userID directoryID then .error .errNotFound
  else
    let db := db.withMetadata (db.trashSubtree (db.subtree directoryID) userID now)
    match db.directoryRecord directoryID userID with
    | none => .error .errNotFound
    | some out => .ok (db, out)

/-- `RestoreSubtree`. Of the directory itself the transaction checks that it is in trash; of its
parent it checks nothing. -/
def restoreSubtree (lower : String → String) (db : Db) (directoryID userID : Uuid) :
    Except Error (Db × DirectoryRecord) :=
  if !db.ownsDeleted userID directoryID then .error .errNotFound
  else
    let db := db.withMetadata (db.untrashSubtree (db.subtree directoryID) userID)
    if !filesUnique lower db.files then .error (.wrap "restore subtree files" uniqueViolation)
    else
      match db.directoryRecord directoryID userID with
      | none => .error .errNotFound
      | some out => .ok (db, out)

def permanentDeleteSubtree (db : Db) (directoryID userID : Uuid) (now : Time) : Except Error Db :=
  if !db.ownsDeleted userID directoryID then .error .errNotFound
  else
    let subtree := db.subtree directoryID
    if subtree = [] then .error .errNotFound
    else
      let manifestIDs := (db.files.rows.filter fun f => f.within subtree && f.committed).filterMap
        (·.idManifest)
      let db := db.withMetadata (db.removeFiles subtree)
      let db := queueManifestRetirements db manifestIDs now
      .ok (db.withMetadata (db.removeDirectories subtree userID))

/-- `DirectoryRepository.SetStarred`; the statement returns no parent. -/
def setDirectoryStarred (db : Db) (directoryID userID : Uuid) (starred : Bool) (now : Time) :
    Except Error (Db × DirectoryRecord) :=
  let selects (d : DirectoryRow) : Bool :=
    d.idDirektori == directoryID && d.idPengguna == userID && d.live
  let directories := db.directories.updateWhere selects
    (fun d => { d with dibintangPada := if starred then some now else none }) fun _ => rfl
  match directories.rows.find? selects with
  | none => .error .errNotFound
  | some d => .ok ({ db with directories }, d.toRecord none)

end HashBox.Api
