import HashBox.Lib.ServeMux
import HashBox.Vault.Calls
import HashBox.Vault.Paths

/-!
# The Vault's HTTP server (`internal/uds/server.go`, `cmd/vault-core/main.go`)

`serve` answers a request on the Unix socket: the peer's credentials, the route, the handler. Ids
are any bytes that a path can name; the Store normalizes them. A `Process` is the server with the
two tickers of `main`, restarted with any configuration; requests, sweeps and cleanups come one
after another.

A `Request` carries what the Store's call reads beside the disk: the clock, the failures of an
upload's operations (`env`), and for the other calls a cancelled context or a failed transaction
(`fault`). Queries and the JSON texts are left out.
-/

namespace HashBox.Vault.Uds

open Paths (bytes trimSuffix)

structure Config where
  appEnv : String
  chunking : FastCdc.Config
  strictDownloadVerify : Bool
  strictVerifyMaxBytes : Int
  udsAllowedUIDs : List UInt32
  securityEventsUDSPath : String

structure Metrics where
  uploadedFiles : UInt64
  newChunks : UInt64
  reuseChunks : UInt64
deriving DecidableEq, Repr

structure Request where
  /-- `peerUIDFromRequest`: none where it returns an error. -/
  peerUID : Option UInt32
  method : String
  url : Url
  /-- The headers `X-File-Name` and `X-PUI-Security-Run-ID`; empty where they are missing. -/
  fileName : String
  runID : String
  body : Bytes
  env : UploadEnv
  fault : Option Error
  now : Time

/-- `securityEventPayload`; `Details` has the one key `peer_uid`. -/
structure SecurityEventPayload where
  runID : String
  eventType : String
  severity : String
  outcome : String
  method : String
  path : Bytes
  statusCode : Nat
  errorCode : String
  peerUID : UInt32
  occurredAt : Time
deriving DecidableEq, Repr

/-- The body of a response, by the handler's branch. -/
inductive Body
  /-- `http.Error`. -/
  | text (message : String)
  | redirect (location : Bytes)
  /-- The `error` object of a request denied; `writeForbiddenOperation` adds method and path. -/
  | denied (code message : String) (operation : Option (String × Bytes))
  | health (environment : String) (stats : Metrics)
  /-- The error of a call of the Store, with the id it was made for. -/
  | failure (id : Option Bytes) (err : Error)
  | committed (result : UploadCommitResult)
  | lifecycle (status : String) (manifestID : Bytes)
  | manifest (record : ManifestRecord)
  /-- Raw bytes; the id is in the header `X-PUI-Manifest-ID`. -/
  | object (manifestID : Bytes) (body : ObjectBody)
  | chunk (chunkHash : Bytes) (record : Option ChunkRecord)
deriving DecidableEq, Repr

structure Response where
  status : Nat
  body : Body
deriving DecidableEq, Repr

/-- What the handlers share. `published` is what `eventPublisher` has sent so far, the last event
first. -/
structure Server where
  disk : Disk
  stats : Metrics
  published : List SecurityEventPayload

/-! ## Small functions -/

/-- `strings.TrimPrefix`. -/
def trimPrefix (s head : Bytes) : Bytes := if head <+: s then s.drop head.length else s

/-- `strings.Trim(s, "/")`. -/
def trimSlashes (s : Bytes) : Bytes :=
  ((s.dropWhile (· = FilePath.slash)).reverse.dropWhile (· = FilePath.slash)).reverse

/-- The error that an error wraps. -/
def cause : Error → Error
  | .wrap _ err => cause err
  | .wrapChunk _ _ err => cause err
  | .detail err _ => cause err
  | .also err _ _ => cause err
  | err => err

def statusCodeFromError (err : Error) : Nat :=
  match cause err with
  | .invalidHash => 400
  | .invalidUpload => 400
  | .notFound => 404
  | _ => 500

def isDestructiveMethod (method : String) : Bool :=
  method = "DELETE" || method = "PUT" || method = "PATCH"

def methodNotAllowed : Response := ⟨405, .text "method not allowed"⟩

/-- The number that a hash in normal form writes. -/
def hashNumber (hash : Bytes) : Nat :=
  hash.foldl (fun n b => n * 16 + ((Paths.hexValue b).getD 0).toNat) 0

/-- The key of the id that `normalizeHash` reads. -/
def digest (id : Bytes) : Except Error Hash :=
  (Paths.normalizeHash id).map fun hash => BitVec.ofNat 256 (hashNumber hash)

/-- A call of the Store: the check of the id, the check of the context, the transaction. -/
def callStore {α : Type} (fault : Option Error) (id : Bytes) (call : Hash → Except Error α) :
    Except Error α :=
  match digest id with
  | .error e => .error e
  | .ok hash =>
    match fault with
    | some e => .error e
    | none => call hash

section
variable (cfg : Config) (s : Server) (r : Request)

def writeForbiddenOperation : Response × Server :=
  let event : SecurityEventPayload :=
    { runID := trimSpace r.runID, eventType := "VAULT_OPERATION_BLOCKED", severity := "high"
      outcome := "blocked", method := r.method, path := r.url.path, statusCode := 403
      errorCode := "operation_forbidden", peerUID := r.peerUID.getD 0, occurredAt := r.now }
  let published :=
    if cfg.securityEventsUDSPath = "" then s.published else event :: s.published
  (⟨403, .denied "operation_forbidden" "immutable vault menolak operasi destruktif"
    (some (r.method, r.url.path))⟩, { s with published })

/-- What a handler answers to another method than its own. -/
def refuseMethod : Response × Server :=
  if isDestructiveMethod r.method then writeForbiddenOperation cfg s r else (methodNotAllowed, s)

/-! ## Handlers -/

def handleHealth : Response × Server :=
  if r.method ≠ "GET" then (methodNotAllowed, s)
  else (⟨200, .health cfg.appEnv s.stats⟩, s)

section
variable (blake3 : Bytes → Hash)

def handleUpload : Response × Server :=
  if r.method ≠ "POST" then refuseMethod cfg s r
  else
    match processUpload blake3 r.env cfg.chunking (trimSpace r.fileName) r.body s.disk with
    | (.error e, disk) => (⟨statusCodeFromError e, .failure none e⟩, { s with disk })
    | (.ok result, disk) =>
      let stats : Metrics :=
        { uploadedFiles := s.stats.uploadedFiles + 1
          newChunks := s.stats.newChunks + UInt64.ofNat result.newChunkCount
          reuseChunks := s.stats.reuseChunks + UInt64.ofNat result.reuseChunkCount }
      (⟨201, .committed result⟩, { s with disk, stats })

/-- The branch of `handleManifest` for an operation, with the id in front of it. -/
def handleLifecycle (retired : Bool) (manifestID : Bytes) : Response × Server :=
  if manifestID = [] then (⟨400, .text "manifest id is required"⟩, s)
  else if r.method ≠ "POST" then refuseMethod cfg s r
  else
    match callStore r.fault manifestID fun id =>
        updateManifestLifecycle s.disk id retired r.now with
    | .error e => (⟨statusCodeFromError e, .failure (some manifestID) e⟩, s)
    | .ok disk =>
      (⟨200, .lifecycle (if retired then "retired" else "retained") manifestID⟩, { s with disk })

/-- The loop of `handleManifest` over the two operations: the operation that the path ends in, and
the id. -/
def operationOf (manifestID : Bytes) : Option (Bool × Bytes) :=
  let named (operation : String) : Option Bytes :=
    let suffix := bytes ("/" ++ operation)
    if suffix <:+ manifestID then some (trimSuffix (trimSuffix manifestID suffix) (bytes "/"))
    else none
  match named "retire", named "retain" with
  | some id, _ => some (true, id)
  | none, some id => some (false, id)
  | none, none => none

def handleManifest : Response × Server :=
  let manifestID := trimPrefix r.url.path (bytes "/internal/v1/manifests/")
  match operationOf manifestID with
  | some (retired, id) => handleLifecycle cfg s r retired id
  | none =>
    if r.method ≠ "GET" then refuseMethod cfg s r
    else if manifestID = [] then (⟨400, .text "manifest id is required"⟩, s)
    else
      match callStore r.fault manifestID (getManifest s.disk) with
      | .error e => (⟨statusCodeFromError e, .failure (some manifestID) e⟩, s)
      | .ok record => (⟨200, .manifest record⟩, s)

def serveReadProxyObject (pathPrefix : Bytes) : Response × Server :=
  if r.method ≠ "GET" then refuseMethod cfg s r
  else
    let manifestID := trimPrefix r.url.path pathPrefix
    if manifestID = [] then (⟨400, .text "manifest id is required"⟩, s)
    else
      match callStore r.fault manifestID
        (openObject blake3 cfg.strictDownloadVerify cfg.strictVerifyMaxBytes s.disk) with
      | .error e => (⟨statusCodeFromError e, .failure (some manifestID) e⟩, s)
      | .ok body => (⟨200, .object manifestID body⟩, s)

def handleObject : Response × Server :=
  serveReadProxyObject cfg s r blake3 (bytes "/internal/v1/objects/")

def handleReadProxyObject : Response × Server :=
  serveReadProxyObject cfg s r blake3 (bytes "/internal/v1/read-proxy/objects/")

def handleChunkStatus : Response × Server :=
  if r.method ≠ "GET" then refuseMethod cfg s r
  else
    let chunkPath := trimPrefix r.url.path (bytes "/internal/v1/chunks/")
    if ¬ bytes "/status" <:+ chunkPath then (⟨400, .text "invalid chunk status path"⟩, s)
    else
      let chunkHash := trimSlashes (trimSuffix chunkPath (bytes "/status"))
      if chunkHash = [] then (⟨400, .text "chunk hash is required"⟩, s)
      else
        match callStore r.fault chunkHash fun h => .ok (getChunk s.disk h) with
        | .error e => (⟨statusCodeFromError e, .failure (some chunkHash) e⟩, s)
        | .ok record => (⟨200, .chunk chunkHash record⟩, s)

/-! ## Routes -/

inductive Handler
  | health
  | upload
  | manifest
  | readProxyObject
  | object
  | chunkStatus
deriving DecidableEq, Repr

/-- A pattern below `/internal/v1`. -/
def internal (segments : List String) (subtree : Bool) : ServeMux.Pattern :=
  ⟨("internal" :: "v1" :: segments).map bytes, subtree⟩

/-- The `mux` of `NewHandler`. -/
def mux : ServeMux Handler where
  routes :=
    [(internal ["health"] false, .health), (internal ["uploads"] false, .upload),
      (internal ["manifests"] true, .manifest),
      (internal ["read-proxy", "objects"] true, .readProxyObject),
      (internal ["objects"] true, .object), (internal ["chunks"] true, .chunkStatus)]
  disjoint := by decide +kernel

def handle : Handler → Response × Server
  | .health => handleHealth cfg s r
  | .upload => handleUpload cfg s r blake3
  | .manifest => handleManifest cfg s r
  | .readProxyObject => handleReadProxyObject cfg s r blake3
  | .object => handleObject cfg s r blake3
  | .chunkStatus => handleChunkStatus cfg s r

def serveMux : Response × Server :=
  match mux.route r.method r.url with
  | .handler h => handle cfg s r blake3 h
  | .redirect location => (⟨301, .redirect location⟩, s)
  | .notFound => (⟨404, .text "404 page not found"⟩, s)

/-- `withPeerCredentialAuth`: an empty list of allowed uids allows everyone. -/
def serve : Response × Server :=
  if cfg.udsAllowedUIDs = [] then serveMux cfg s r blake3
  else
    match r.peerUID with
    | none =>
      (⟨403, .denied "peer_identity_required" "gagal memverifikasi identitas peer UDS" none⟩, s)
    | some uid =>
      if uid ∈ cfg.udsAllowedUIDs then serveMux cfg s r blake3
      else (⟨403, .denied "peer_not_allowed" "identitas peer UDS tidak diizinkan" none⟩, s)

end

end

/-! ## The process -/

structure Process extends Server where
  cfg : Config

/-- What happens in the process, and what ends it. -/
inductive Event
  | request (r : Request)
  /-- The ticker of `CollectGarbage`. -/
  | sweep (env : SweepEnv) (grace : Time)
  /-- The ticker of `CleanupExpiredUploadSessions`. -/
  | cleanup (now : Time)
  /-- The process starts anew, with another environment. -/
  | restart (cfg : Config)

def Metrics.zero : Metrics := ⟨0, 0, 0⟩

/-- `main` on this disk. -/
def Process.start (cfg : Config) (disk : Disk) : Process := ⟨⟨disk, .zero, []⟩, cfg⟩

namespace Process

section
variable (blake3 : Bytes → Hash)

def next (y : Process) : Event → Process
  | .request r => { y with toServer := (serve y.cfg y.toServer r blake3).2 }
  | .sweep env grace => { y with disk := (collectGarbage env grace ∅ y.disk).2.2 }
  | .cleanup now => { y with disk := (cleanupExpiredUploadSessions y.disk now).2 }
  | .restart cfg => { Process.start cfg y.disk with published := y.published }

/-- The answer to the request of an event. -/
def answer (y : Process) (r : Request) : Response := (serve y.cfg y.toServer r blake3).1

def run (y : Process) (es : List Event) : Process := es.foldl (next blake3) y

end

end Process

end HashBox.Vault.Uds
