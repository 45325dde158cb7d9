import HashBox.Vault.Server

/-!
# The API's client of the Vault (`internal/vaultclient/uds.go`)

Each call of the client is a request to `Uds.serve` and, after a redirect, the requests that
`http.Client` makes of it. A `Context` has what the server finds of a call beside its text. The
connection holds and the JSON texts are left out: a body arrives as the value that was sent.
-/

namespace HashBox.Api.VaultClient

open Vault (Bytes Hash Time ManifestRecord ChunkRecord UploadCommitResult ObjectBody UploadEnv)
open Vault.Paths (bytes)
open Vault.Uds (Config Server Request Response Body)
open ServeMux (Message pathEscape)

/-- The API process as the server sees it, and what the call of the Store reads. -/
structure Context where
  uid : Option UInt32
  /-- `securityRunIDFromContext`. -/
  runID : String
  env : UploadEnv
  fault : Option Vault.Error
  now : Time

inductive ClientError
  /-- `http.NewRequestWithContext` failed. -/
  | build
  /-- `http.Client.Do` failed. -/
  | call
  /-- Another status than the one expected; the error's text has the status and the body. -/
  | status (response : Response)
  | decode
deriving DecidableEq, Repr

/-- `httpguts.ValidHeaderFieldValue`: no control characters but tabs. -/
def validHeaderFieldValue (value : String) : Bool :=
  value.toList.all fun c => c = '\t' || (32 ≤ c.toNat && c.toNat ≠ 127)

/-- `X-File-Name` and `X-PUI-Security-Run-ID`; an empty one is not set. -/
structure Headers where
  fileName : String
  runID : String

def Headers.none : Headers := ⟨"", ""⟩

section
variable (cfg : Config) (blake3 : Bytes → Hash) (ctx : Context)

def request (headers : Headers) (m : Message) : Request where
  peerUID := ctx.uid
  method := m.method
  url := m.url
  fileName := headers.fileName
  runID := headers.runID
  body := m.body
  env := ctx.env
  fault := ctx.fault
  now := ctx.now

/-- The requests of `http.Client.Do`; none when it gives up. -/
def follow (headers : Headers) : (n : Nat) → Server → Message → Option Response × Server
  | 0, s, _ => (none, s)
  | n + 1, s, m =>
    match Vault.Uds.serve cfg s (request ctx headers m) blake3 with
    | (⟨_, .redirect location⟩, s) =>
      match Url.parse location with
      | none => (none, s)
      | some url => follow headers n s (m.redirected url)
    | (response, s) => (some response, s)

/-- A call of the client up to its answer. -/
def exchange (s : Server) (headers : Headers) (method : String) (path body : Bytes) :
    Except ClientError Response × Server :=
  match Url.parse path with
  | none => (.error .build, s)
  | some url =>
    if ¬ (validHeaderFieldValue headers.fileName && validHeaderFieldValue headers.runID) then
      (.error .call, s)
    else
      match follow cfg blake3 ctx headers 10 s ⟨method, url, body⟩ with
      | (none, s) => (.error .call, s)
      | (some response, s) => (.ok response, s)

/-- What a call returns of an answer: its body, if the status is the one expected. -/
def receive {α : Type} (status : Nat) (decode : Body → Option α) :
    Except ClientError Response × Server → Except ClientError α × Server
  | (.error e, s) => (.error e, s)
  | (.ok response, s) =>
    if response.status ≠ status then (.error (.status response), s)
    else
      match decode response.body with
      | none => (.error .decode, s)
      | some value => (.ok value, s)

/-! ## The bodies expected -/

def decodeCommitted : Body → Option UploadCommitResult
  | .committed result => some result
  | _ => none

def decodeManifest : Body → Option ManifestRecord
  | .manifest record => some record
  | _ => none

def decodeObject : Body → Option ObjectBody
  | .object _ body => some body
  | _ => none

def decodeChunk : Body → Option (Option ChunkRecord)
  | .chunk _ record => some record
  | _ => none

/-! ## Calls -/

variable (s : Server)

def upload (fileName : String) (content : Bytes) :
    Except ClientError UploadCommitResult × Server :=
  receive 201 decodeCommitted
    (exchange cfg blake3 ctx s ⟨fileName, ""⟩ "POST" (bytes "/internal/v1/uploads") content)

def getManifest (manifestID : Bytes) : Except ClientError ManifestRecord × Server :=
  receive 200 decodeManifest
    (exchange cfg blake3 ctx s .none "GET"
      (bytes "/internal/v1/manifests/" ++ pathEscape manifestID) [])

def updateManifestLifecycle (manifestID : Bytes) (operation : String) :
    Except ClientError Unit × Server :=
  receive 200 (fun _ => some ())
    (exchange cfg blake3 ctx s .none "POST"
      (bytes "/internal/v1/manifests/" ++ pathEscape manifestID ++ bytes ("/" ++ operation)) [])

def retireManifest (manifestID : Bytes) : Except ClientError Unit × Server :=
  updateManifestLifecycle cfg blake3 ctx s manifestID "retire"

def retainManifest (manifestID : Bytes) : Except ClientError Unit × Server :=
  updateManifestLifecycle cfg blake3 ctx s manifestID "retain"

def downloadObject (manifestID : Bytes) : Except ClientError ObjectBody × Server :=
  receive 200 decodeObject
    (exchange cfg blake3 ctx s .none "GET"
      (bytes "/internal/v1/read-proxy/objects/" ++ pathEscape manifestID) [])

def getChunkStatus (chunkHash : Bytes) : Except ClientError (Option ChunkRecord) × Server :=
  receive 200 decodeChunk
    (exchange cfg blake3 ctx s .none "GET"
      (bytes "/internal/v1/chunks/" ++ pathEscape chunkHash ++ bytes "/status") [])

/-- The answer of the attempt, which has the method and the path as they were sent. -/
def attemptManifestMutation (method : String) (manifestID body : Bytes) :
    Except ClientError Response × Server :=
  exchange cfg blake3 ctx s ⟨"", ctx.runID⟩ method
    (bytes "/internal/v1/manifests/" ++ pathEscape manifestID) body

end

/-! ## Runs -/

inductive Operation
  | upload (fileName : String) (content : Bytes)
  | getManifest (manifestID : Bytes)
  | retireManifest (manifestID : Bytes)
  | retainManifest (manifestID : Bytes)
  | downloadObject (manifestID : Bytes)
  | getChunkStatus (chunkHash : Bytes)

/-- What a call returns, if it does not fail. -/
inductive Reply
  | committed (result : UploadCommitResult)
  | manifest (record : ManifestRecord)
  | done
  | object (body : ObjectBody)
  | chunk (record : Option ChunkRecord)
deriving DecidableEq, Repr

/-- A call of the client, or another event of the Vault's process. -/
inductive Step
  | call (ctx : Context) (op : Operation)
  | event (e : Vault.Uds.Event)

section
variable (blake3 : Bytes → Hash)

/-- The call through the socket. -/
def Operation.send (cfg : Config) (ctx : Context) (s : Server) : Operation → Option Reply × Server
  | .upload fileName content =>
    let (result, s) := VaultClient.upload cfg blake3 ctx s fileName content
    (result.toOption.map .committed, s)
  | .getManifest manifestID =>
    let (result, s) := VaultClient.getManifest cfg blake3 ctx s manifestID
    (result.toOption.map .manifest, s)
  | .retireManifest manifestID =>
    let (result, s) := VaultClient.retireManifest cfg blake3 ctx s manifestID
    (result.toOption.map fun _ => .done, s)
  | .retainManifest manifestID =>
    let (result, s) := VaultClient.retainManifest cfg blake3 ctx s manifestID
    (result.toOption.map fun _ => .done, s)
  | .downloadObject manifestID =>
    let (result, s) := VaultClient.downloadObject cfg blake3 ctx s manifestID
    (result.toOption.map .object, s)
  | .getChunkStatus chunkHash =>
    let (result, s) := VaultClient.getChunkStatus cfg blake3 ctx s chunkHash
    (result.toOption.map .chunk, s)

/-- A step of the Vault's process. -/
def Step.send (y : Vault.Uds.Process) : Step → Option Reply × Vault.Uds.Process
  | .call ctx op =>
    let (reply, s) := op.send blake3 y.cfg ctx y.toServer
    (reply, { y with toServer := s })
  | .event e => (none, y.next blake3 e)

end

end HashBox.Api.VaultClient
