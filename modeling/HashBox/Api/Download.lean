import HashBox.Api.File
import HashBox.Api.VaultClient

/-!
# Downloads (`internal/service/file_service.go`, `internal/transport/http/file_handler.go`)

From the user's request to the stream that `handleDownloadFile` copies: the row, the object that the
Vault's client opens, and the check of its size. The headers that only name the file and the
activity that is logged are left out.
-/

namespace HashBox.Api

open Vault (Bytes ObjectBody hex)
open Vault.Paths (bytes)
open VaultClient (ClientError)

/-- The error that an error wraps. -/
def cause : Error → Error
  | .wrap _ err => cause err
  | .detail err _ => cause err
  | err => err

def statusFromError (err : Error) : Nat :=
  match cause err with
  | .errUnauthorized => 401
  | .errForbidden => 403
  | .errConflict => 409
  | .errNotFound => 404
  | .errInvalidInput => 400
  | .validation _ => 400
  | .errUploadTooBig => 413
  | _ => 500

/-- `FileRepository.FindByIDForUser`. -/
def findByIDForUser (db : Db) (fileID userID : Uuid) (includeDeleted : Bool) :
    Except Error FileRow :=
  let selects (f : FileRow) : Bool :=
    f.idBerkas == fileID && f.idPengguna == userID && f.committed &&
      (includeDeleted || (db.reachableFile f && f.dihapusPada.isNone))
  match db.files.rows.find? selects with
  | none => .error .errNotFound
  | some f => .ok f

/-- `COALESCE(f.id_manifest, '')`. -/
def FileRow.manifestID (f : FileRow) : String := f.idManifest.elim "" hex

/-- The answer to a download: the headers and the stream behind them, or an error. -/
inductive DownloadResponse
  | stream (mimeType : String) (contentLength : Int) (softDeleted : Bool) (body : ObjectBody)
  | failed (status : Nat) (err : Error)
deriving DecidableEq, Repr

section
variable (errorText : ClientError → String) (cfg : Vault.Uds.Config) (blake3 : Bytes → Hash)
  (ctx : VaultClient.Context) (s : Vault.Uds.Server) (db : Db) (userID fileID : Uuid)

/-- `FileService.Download`. -/
def download (includeDeleted : Bool) : Except Error (FileRow × ObjectBody) :=
  match findByIDForUser db fileID userID includeDeleted with
  | .error e => .error e
  | .ok record =>
    match (VaultClient.downloadObject cfg blake3 ctx s (bytes record.manifestID)).1 with
    | .error e => .error (.vault (errorText e))
    | .ok body =>
      if 0 ≤ body.contentLength ∧ body.contentLength ≠ record.ukuran then
        .error (.vault "ukuran objek vault tidak sesuai metadata berkas")
      else .ok (record, body)

/-- `handleDownloadFile`, which also serves what is in the trash. -/
def handleDownloadFile : DownloadResponse :=
  match download errorText cfg blake3 ctx s db userID fileID true with
  | .error e =>
    if statusFromError e = 500 then
      .failed 502 (.vault "berkas tidak dapat direkonstruksi dari vault")
    else .failed (statusFromError e) e
  | .ok (record, body) =>
    .stream record.mimeType record.ukuran record.dihapusPada.isSome body

end

end HashBox.Api
