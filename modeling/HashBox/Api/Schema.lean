import HashBox.Lib.Table
import HashBox.Vault.Types

/-!
# The API's database (`db/migrations`)

Rows carry the columns that the modelled statements read or write, under the migrations' names. A
primary key is the key of its `Table`; the two partial unique indexes on `files` are checked by the
statements that can violate them (`filesUnique`). Identifiers are `gen_random_uuid()` values, so an
insert is given the one it draws, and `NOW()` is given to each transaction. `lower` is the
database's `lower(…)`, which depends on its locale.
-/

namespace HashBox.Api

export HashBox.Vault (Hash Time UploadCommitResult trimSpace)

abbrev Uuid := Nat

/-- `status_penyimpanan`; the column's check constraint admits these. -/
inductive StatusPenyimpanan
  | pending
  | committed
  | failed
deriving DecidableEq, Repr

/-- `status` of a retirement request; the column's check constraint admits these. -/
inductive RetirementStatus
  | pending
  | completed
deriving DecidableEq, Repr

structure DirectoryRow where
  idDirektori : Uuid
  idPengguna : Uuid
  nama : String
  dibintangPada : Option Time
  dibuatPada : Time
  dihapusPada : Option Time
deriving DecidableEq, Repr

structure ClosureRow where
  idInduk : Uuid
  idTurunan : Uuid
  kedalaman : Nat
deriving DecidableEq, Repr

structure FileRow where
  idBerkas : Uuid
  idPengguna : Uuid
  idDirektori : Option Uuid
  nama : String
  ukuran : Int
  mimeType : String
  idManifest : Option Hash
  chunkCount : Int
  newChunkCount : Int
  reuseChunkCount : Int
  dedupRatio : Rat
  statusPenyimpanan : StatusPenyimpanan
  dibintangiPada : Option Time
  dibuatPada : Time
  dihapusPada : Option Time
deriving DecidableEq, Repr

theorem FileRow.untrash_key (f : FileRow) :
    { f with dihapusPada := none }.idBerkas = f.idBerkas := rfl

structure RetirementRow where
  manifestId : Hash
  status : RetirementStatus
  attempts : Nat
  availableAt : Time
  lastError : String
  completedAt : Option Time
deriving DecidableEq, Repr

/-- The users' data. -/
structure Metadata where
  directories : Table DirectoryRow.idDirektori
  directoryClosure : Table fun c : ClosureRow => (c.idInduk, c.idTurunan)
  files : Table FileRow.idBerkas
deriving DecidableEq

structure Db extends Metadata where
  manifestRetirementRequests : Table RetirementRow.manifestId
deriving DecidableEq

def Metadata.empty : Metadata := ⟨.empty, .empty, .empty⟩

def Db.empty : Db := ⟨.empty, .empty⟩

def Db.withMetadata (db : Db) (m : Metadata) : Db := ⟨m, db.manifestRetirementRequests⟩

@[simp] theorem Db.toMetadata_withMetadata (db : Db) (m : Metadata) :
    (db.withMetadata m).toMetadata = m := rfl

/-- The errors of the repositories and services (`internal/domain/errors.go`). -/
inductive Error
  | errUnauthorized
  | errForbidden
  | errConflict
  | errNotFound
  | errInvalidInput
  | errUploadTooBig
  | validation (message : String)
  /-- `pgconn.PgError` with its code. -/
  | pg (code : String)
  /-- `fmt.Errorf("<context>: %w", err)`. -/
  | wrap (context : String) (err : Error)
  /-- `fmt.Errorf("%w: <text>", err)`. -/
  | detail (err : Error) (text : String)
  /-- An error of the Vault client. -/
  | vault (message : String)
deriving DecidableEq, Repr

/-- PostgreSQL's `unique_violation`. -/
def uniqueViolation : Error := .pg "23505"

/-- PostgreSQL's `string_data_right_truncation`. -/
def valueTooLong : Error := .pg "22001"

/-- PostgreSQL's `invalid_text_representation`. -/
def invalidText : Error := .pg "22P02"

/-- PostgreSQL's `foreign_key_violation`. -/
def foreignKeyViolation : Error := .pg "23503"

def isUniqueViolation : Error → Bool
  | .pg code => code == "23505"
  | .wrap _ err => isUniqueViolation err
  | .detail err _ => isUniqueViolation err
  | _ => false

/-! ## Conditions of the statements -/

def DirectoryRow.live (d : DirectoryRow) : Bool := d.dihapusPada.isNone

/-- The `WHERE` clause of the partial unique indexes. -/
def FileRow.active (f : FileRow) : Bool :=
  f.dihapusPada.isNone && (f.statusPenyimpanan == .pending || f.statusPenyimpanan == .committed)

def FileRow.committed (f : FileRow) : Bool := f.statusPenyimpanan == .committed

/-- `id_manifest = ? AND status_penyimpanan = 'committed'`. -/
def FileRow.refersTo (f : FileRow) (manifestID : Hash) : Bool :=
  decide (f.idManifest = some manifestID) && f.committed

/-- `id_direktori IN (…)`, false for a file without a directory. -/
def FileRow.within (f : FileRow) (directoryIDs : List Uuid) : Bool :=
  f.idDirektori.any fun d => decide (d ∈ directoryIDs)

namespace Metadata

/-- `EXISTS (… WHERE id_direktori = ? AND id_pengguna = ?)`, in trash or not. -/
def owns (m : Metadata) (userID directoryID : Uuid) : Bool :=
  m.directories.rows.any fun d => d.idDirektori == directoryID && d.idPengguna == userID

def ownsLive (m : Metadata) (userID directoryID : Uuid) : Bool :=
  m.directories.rows.any fun d =>
    d.idDirektori == directoryID && d.idPengguna == userID && d.live

def ownsDeleted (m : Metadata) (userID directoryID : Uuid) : Bool :=
  m.directories.rows.any fun d =>
    d.idDirektori == directoryID && d.idPengguna == userID && !d.live

/-- `SELECT id_turunan FROM directory_closure WHERE id_induk = ?`. -/
def subtree (m : Metadata) (directoryID : Uuid) : List Uuid :=
  (m.directoryClosure.rows.filter (·.idInduk == directoryID)).map (·.idTurunan)

/-- The file is at the root, or its directory is not in trash. -/
def reachableFile (m : Metadata) (f : FileRow) : Bool :=
  match f.idDirektori with
  | none => true
  | some id => m.directories.rows.any fun d => d.idDirektori == id && d.live

end Metadata

section
variable (lower : String → String)

/-- The index entry of a file in `uniq_active_filename_in_dir` or `uniq_active_filename_root`. -/
def FileRow.indexKey (f : FileRow) : Uuid × Option Uuid × String :=
  (f.idPengguna, f.idDirektori, lower f.nama)

/-- Both partial unique indexes on `files` hold. -/
def filesUnique (files : Table FileRow.idBerkas) : Bool :=
  decide ((files.rows.filter FileRow.active).map (FileRow.indexKey lower)).Nodup

end

end HashBox.Api
