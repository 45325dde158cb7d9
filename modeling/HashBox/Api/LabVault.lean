import HashBox.Api.File
import HashBox.Api.SecurityLab
import HashBox.Api.VaultClient

/-!
# The Security Lab over the Vault (`internal/service/securitylab_service.go`)

The lab's calls of the Vault as `main` wires them: through the client, to a process that may see
anything before the upload and between it and each call. What the application answers to the lab is
as in `SecurityLabReplies`, and so is the run.
-/

namespace HashBox.Api

open Vault (Bytes Hash hex)
open Vault.Paths (bytes)
open Vault.Uds (Config Process Response Server)
open VaultClient (ClientError Context)

/-! ## What the client decodes -/

namespace Vaultclient

def UploadCommitResult.of (r : Vault.UploadCommitResult) : UploadCommitResult where
  fileHash := hex r.fileHash
  chunkCount := r.chunkCount
  dedupRatio := r.dedupRatio
  immutable := r.immutable

def ManifestRecord.of (m : Vault.ManifestRecord) : ManifestRecord where
  manifestID := hex m.manifestID
  fileHash := hex m.fileHash
  chunkHashes := m.chunkHashes.map hex
  totalSizeBytes := m.totalSizeBytes
  chunkCount := m.chunkCount
  immutable := m.immutable

def ChunkStatusResponse.of (record : Option Vault.ChunkRecord) : ChunkStatusResponse where
  «exists» := record.isSome
  sizeBytes := record.elim 0 (·.sizeBytes)

/-- The `error` object is decoded where the body has one. -/
def MutationAttempt.of (rawBody : Response → String) (response : Response) : MutationAttempt where
  statusCode := response.status
  errorCode :=
    match response.body with
    | .denied code _ _ => code
    | _ => ""
  rawBody := rawBody response

end Vaultclient

/-! ## The calls -/

/-- A call of the lab to the Vault; `call` tells those of one function apart. -/
inductive LabCall
  | getManifest (call : Nat)
  | getChunkStatus (call : Nat)
  | attemptManifestMutation (method : String)
  | downloadObject
deriving DecidableEq, Repr

/-- The Vault's side of a run of the lab. -/
structure LabVault where
  /-- The process starts on an empty disk. -/
  cfg : Config
  before : List Vault.Uds.Event
  uploadCtx : Context
  /-- What the Vault sees from the upload to the call. -/
  after : LabCall → List Vault.Uds.Event
  ctx : LabCall → Context
  /-- `FileService.Upload` before its call of the Vault, and behind it: the file's id. -/
  createPending : Except String Unit
  markCommitted : Vault.UploadCommitResult → Except String String
  errorText : ClientError → String
  readErrorText : Vault.Error → String
  rawBody : Response → String

namespace LabVault

variable (v : LabVault) (blake3 : Bytes → Hash) (app : SecurityLabReplies)

/-- The Vault at the upload. -/
def start : Process := (Process.start v.cfg .empty).run blake3 v.before

/-- The upload of the demo file, as a step of the Vault. -/
def upload : VaultClient.Step :=
  .call v.uploadCtx (.upload (uploadName app.demoName) app.demoContent.data.toList)

/-- The Vault behind the upload. -/
def uploaded : Process := ((v.upload app).send blake3 (v.start blake3)).2

/-- The Vault at a call. -/
def vault (call : LabCall) : Process := (v.uploaded blake3 app).run blake3 (v.after call)

/-- What a call returns. -/
def ask {α β : Type} (render : α → β) (call : LabCall)
    (f : Config → (Bytes → Hash) → Context → Server → Except ClientError α × Server) :
    Except String β :=
  ((f (v.vault blake3 app call).cfg blake3 (v.ctx call)
    (v.vault blake3 app call).toServer).1.map render).mapError v.errorText

/-- `io.ReadAll` of an object's body. -/
def readAll (body : Vault.ObjectBody) : Except String ByteArray :=
  match body.err with
  | none => .ok ⟨body.content.toArray⟩
  | some e => .error (v.readErrorText e)

end LabVault

/-- The replies of a run over this Vault. -/
def SecurityLabReplies.over (app : SecurityLabReplies) (blake3 : Bytes → Hash) (v : LabVault) :
    SecurityLabReplies :=
  { app with
    upload := fun fileName _ content => do
      v.createPending
      let y := v.start blake3
      let result ← (VaultClient.upload y.cfg blake3 v.uploadCtx y.toServer (uploadName fileName)
        content.data.toList).1.mapError v.errorText
      let fileID ← v.markCommitted result
      return ⟨fileID, hex result.manifestID, .of result⟩
    getManifest := fun call manifestID =>
      v.ask blake3 app .of (.getManifest call) fun cfg blake3 ctx s =>
        VaultClient.getManifest cfg blake3 ctx s (bytes manifestID)
    getChunkStatus := fun call chunkHash =>
      v.ask blake3 app .of (.getChunkStatus call) fun cfg blake3 ctx s =>
        VaultClient.getChunkStatus cfg blake3 ctx s (bytes chunkHash)
    attemptManifestMutation := fun method manifestID body =>
      v.ask blake3 app (.of v.rawBody) (.attemptManifestMutation method) fun cfg blake3 ctx s =>
        VaultClient.attemptManifestMutation cfg blake3 ctx s method (bytes manifestID)
          body.data.toList
    downloadObject := fun manifestID =>
      v.ask blake3 app v.readAll .downloadObject fun cfg blake3 ctx s =>
        VaultClient.downloadObject cfg blake3 ctx s (bytes manifestID) }

end HashBox.Api
