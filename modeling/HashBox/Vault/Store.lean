import HashBox.Vault.Types

/-!
# The Store's database transactions and file operations (`internal/cas/store.go`)

Each function is one atomic step of the source: a Badger transaction, a `stat`, the write of a
chunk file. `touchChunk`, `ProcessUpload` and the sweep are sequences of them: run to the end one
call at a time in `Calls.lean`, interleaved with the steps of other calls in `System.lean`.

Badger transactions are all-or-nothing, so a transaction that fails returns no database. The JSON
round trip of a record through the database is the identity.
-/

namespace HashBox.Vault

/-- `validateManifest`. The checks that every hash normalizes hold by the type of the fields. -/
def validateManifest (m : ManifestRecord) : Except Error Unit :=
  if m.manifestID ≠ m.fileHash then
    .error (.other "manifest id dan file hash tidak konsisten")
  else if m.chunkCount ≠ m.chunkHashes.length then .error (.other "chunk count tidak konsisten")
  else if m.totalSizeBytes < 0 then .error (.other "total size tidak valid")
  else if !m.immutable then .error (.other "manifest tidak immutable")
  -- `RetiredAt` is nil or the zero time
  else if m.retired && m.retiredAt.getD 0 == 0 then
    .error (.other "manifest retired tanpa waktu retirement")
  else .ok ()

def getManifest (d : Disk) (manifestID : Hash) : Except Error ManifestRecord :=
  match d.manifests.lookup manifestID with
  | none => .error .notFound
  | some m =>
    match validateManifest m with
    | .error e => .error (.wrap "validate manifest" e)
    | .ok () => .ok m

def updateManifestLifecycle (d : Disk) (manifestID : Hash) (retired : Bool) (retiredAt : Time) :
    Except Error Disk :=
  match d.manifests.lookup manifestID with
  | none => .error .notFound
  | some m =>
    match validateManifest m with
    | .error e =>
      .error (.wrap (if retired then "retire manifest" else "retain manifest")
        (.wrap "validate manifest" e))
    | .ok () =>
      if m.retired = retired then .ok d
      else
        let m := { m with retired, retiredAt := if retired then some retiredAt else none }
        .ok { d with manifests := d.manifests.insert manifestID m }

def retireManifest (d : Disk) (manifestID : Hash) (now : Time) : Except Error Disk :=
  updateManifestLifecycle d manifestID true now

def retainManifest (d : Disk) (manifestID : Hash) (now : Time) : Except Error Disk :=
  updateManifestLifecycle d manifestID false now

def getChunk (d : Disk) (chunkHash : Hash) : Option ChunkRecord := d.chunks.lookup chunkHash

/-- `writeChunkIfMissing`: an existing file stays as it is. -/
def writeChunkIfMissing (d : Disk) (chunkHash : Hash) (content : Bytes) (now : Time) : Disk :=
  match d.files.lookup chunkHash with
  | some _ => d
  | none => { d with files := d.files.insert chunkHash ⟨content, now⟩ }

/-- The transaction of `touchChunk`: the record is created unless another upload was first. -/
def putNewChunk (d : Disk) (chunkHash : Hash) (size : Nat) (now : Time) : Bool × Disk :=
  match d.chunks.lookup chunkHash with
  | some _ => (false, d)
  | none =>
    let record : ChunkRecord :=
      { chunkHash, sizeBytes := size, manifestRefCount := 0, retained := false, createdAt := now }
    (true, { d with chunks := d.chunks.insert chunkHash record })

/-- The loop over `chunkRefCount` of a commit: one entry for each distinct hash. -/
def addChunkRefs (chunkHashes : List Hash) :
    List Hash → Dict Hash ChunkRecord → Except Error (Dict Hash ChunkRecord)
  | [], chunks => .ok chunks
  | h :: hs, chunks =>
    match chunks.lookup h with
    | none => .error (.chunk "missing chunk metadata for %s" h)
    | some r =>
      let manifestRefCount := r.manifestRefCount + chunkHashes.count h
      addChunkRefs chunkHashes hs
        (chunks.insert h { r with manifestRefCount, retained := 0 < manifestRefCount })

/-- The transaction of `commitManifestAndChunkRefs`: a stored manifest stays as it is, except that
a retired one becomes active again; a new one counts its references and is stored. -/
def commitManifestAndChunkRefs (d : Disk) (manifest : ManifestRecord) : Except Error Disk :=
  let manifest := { manifest with fileHash := manifest.manifestID }
  match validateManifest manifest with
  | .error e => .error e
  | .ok () =>
    match d.manifests.lookup manifest.manifestID with
    | some existing =>
      match validateManifest existing with
      | .error e => .error (.wrap "store manifest" (.wrap "validate existing manifest" e))
      | .ok () =>
        if existing.retired then
          let existing := { existing with retired := false, retiredAt := none }
          .ok { d with manifests := d.manifests.insert manifest.manifestID existing }
        else .ok d
    | none =>
      match addChunkRefs manifest.chunkHashes manifest.chunkHashes.dedup d.chunks with
      | .error e => .error (.wrap "store manifest" e)
      | .ok chunks =>
        .ok { d with chunks, manifests := d.manifests.insert manifest.manifestID manifest }

/-- The record `ProcessUpload` commits. -/
def newManifest (fileHash : Hash) (chunkHashes : List Hash) (totalSize : Int) (now : Time) :
    ManifestRecord where
  manifestID := fileHash
  fileHash := fileHash
  chunkHashes := chunkHashes
  totalSizeBytes := totalSize
  chunkCount := chunkHashes.length
  createdAt := now
  immutable := true
  retired := false
  retiredAt := none

def putUploadSession (d : Disk) (session : UploadSessionRecord) : Disk :=
  { d with uploads := d.uploads.insert session.sessionID session }

/-- The record `createUploadSession` stores; a session lives for 30 minutes. -/
def newUploadSession (sessionID : SessionID) (fileName : String) (now : Time) :
    UploadSessionRecord where
  sessionID := sessionID
  fileName := if trimSpace fileName = "" then "unknown.bin" else trimSpace fileName
  receivedChunks := []
  startedAt := now
  expiresAt := now + 30 * 60 * 1000000000
  state := .inProgress

/-- The transaction of `CleanupExpiredUploadSessions`; it counts the sessions it deletes. -/
def cleanupExpiredUploadSessions (d : Disk) (now : Time) : Nat × Disk :=
  (Dict.toList d.uploads).foldl (fun (deleted, d) (sessionID, session) =>
    if now < session.expiresAt then (deleted, d)
    else (deleted + 1, { d with uploads := d.uploads.erase sessionID })) (0, d)

/-- The variables of `ProcessUpload`'s loop over the chunks; `written` is what `fileHasher` has
been given. -/
structure UploadLoop where
  written : Bytes
  chunkHashes : List Hash
  totalSize : Int
  newChunkCount : Nat
  reuseChunkCount : Nat

def UploadLoop.init : UploadLoop := ⟨[], [], 0, 0, 0⟩

def UploadLoop.result (u : UploadLoop) (m : ManifestRecord) : UploadCommitResult where
  manifestID := m.manifestID
  fileHash := m.fileHash
  totalSizeBytes := m.totalSizeBytes
  chunkCount := m.chunkCount
  dedupRatio :=
    let totalChunks := u.newChunkCount + u.reuseChunkCount
    if totalChunks > 0 then (u.reuseChunkCount : Rat) / totalChunks else 0
  immutable := true
  newChunkCount := u.newChunkCount
  reuseChunkCount := u.reuseChunkCount

/-! ## Reading an object -/

/-- What the caller of `OpenObject` gets: the announced length, and the bytes and the error, if
any, that reading the body to its end yields. -/
structure ObjectBody where
  contentLength : Int
  content : Bytes
  err : Option Error
deriving DecidableEq, Repr

section
variable (blake3 : Bytes → Hash)

/-- The loop both retrieval paths run over the manifest's chunks: the bytes copied before the end
or the first error. -/
def copyChunks (d : Disk) : List Hash → Bytes → Bytes × Option Error
  | [], out => (out, none)
  | h :: hs, out =>
    match d.files.lookup h with
    | none => (out, some (.chunk "open chunk %s" h))
    | some f =>
      let out := out ++ f.content
      if blake3 f.content ≠ h then (out, some (.chunk "chunk hash mismatch for %s" h))
      else copyChunks d hs out

/-- `openObjectStrict`: everything is verified before the first byte is delivered. -/
def openObjectStrict (d : Disk) (m : ManifestRecord) : Except Error ObjectBody :=
  match copyChunks blake3 d m.chunkHashes [] with
  | (_, some e) => .error e
  | (out, none) =>
    if blake3 out ≠ m.fileHash then .error (.other "object hash does not match manifest")
    else .ok ⟨out.length, out, none⟩

/-- `openObjectStream`: errors end the body. -/
def openObjectStream (d : Disk) (m : ManifestRecord) : ObjectBody :=
  match copyChunks blake3 d m.chunkHashes [] with
  | (out, some e) => ⟨m.totalSizeBytes, out, some e⟩
  | (out, none) =>
    if blake3 out ≠ m.fileHash then
      ⟨m.totalSizeBytes, out, some (.other "object hash does not match manifest")⟩
    else ⟨m.totalSizeBytes, out, none⟩

/-- `OpenObject`: the manifest, the pre-flight check of its files, then the strict or the streaming
path by the Store's `strictVerify` setting and the object's size. -/
def openObject (strictVerify : Bool) (strictVerifyMaxBytes : Int) (d : Disk) (manifestID : Hash) :
    Except Error ObjectBody :=
  match getManifest d manifestID with
  | .error e => .error e
  | .ok m =>
    match m.chunkHashes.find? fun h => !(d.files.lookup h).isSome with
    | some h => .error (.chunk "chunk %s unavailable" h)
    | none =>
      if strictVerify && m.totalSizeBytes ≤ strictVerifyMaxBytes then openObjectStrict blake3 d m
      else .ok (openObjectStream blake3 d m)

end

end HashBox.Vault
