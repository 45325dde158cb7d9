import HashBox.Lib.Optimistic
import HashBox.Vault.System

/-!
# Uploads whose transactions conflict

`System.lean` takes each transaction of an upload as one step that may fail. Here the two `Update`
transactions that read what other uploads write, those of `touchChunk` and of
`commitManifestAndChunkRefs`, have a beginning and a commit, with any steps of other uploads between
the two. The commit is refused if a key the transaction has read was written in between, and
`Update` does not try again. The remaining steps of `ProcessUpload` are those of `uploadStep`, and
none fails by itself.
-/

namespace HashBox.Vault

open Optimistic (Txn View Versions Pending)

/-! ## The database -/

/-- A key of the database: a prefix and what follows it. -/
inductive StoreKey
  | manifest (manifestID : Hash)
  | chunk (chunkHash : Hash)
  | upload (sessionID : SessionID)
deriving DecidableEq

def StoreKey.Value : StoreKey → Type
  | .manifest _ => ManifestRecord
  | .chunk _ => ChunkRecord
  | .upload _ => UploadSessionRecord

/-- What the database holds under a key. -/
def Disk.get (d : Disk) : View StoreKey.Value
  | .manifest manifestID => d.manifests.lookup manifestID
  | .chunk chunkHash => d.chunks.lookup chunkHash
  | .upload sessionID => d.uploads.lookup sessionID

def Disk.set (d : Disk) : Sigma StoreKey.Value → Disk
  | ⟨.manifest manifestID, m⟩ => { d with manifests := d.manifests.insert manifestID m }
  | ⟨.chunk chunkHash, r⟩ => { d with chunks := d.chunks.insert chunkHash r }
  | ⟨.upload sessionID, s⟩ => { d with uploads := d.uploads.insert sessionID s }

/-- The writes of a transaction, of which the last comes first. -/
def Disk.write (d : Disk) (ws : List (Sigma StoreKey.Value)) : Disk :=
  ws.foldr (fun w d => d.set w) d

/-! ## The transactions -/

abbrev StoreTxn := Txn StoreKey.Value Error

/-- The `Update` of `touchChunk`; it yields `created`. -/
def touchChunkTxn (chunkHash : Hash) (size : Nat) (now : Time) : StoreTxn Bool :=
  .get (.chunk chunkHash) fun
    | some _ => .ret false
    | none =>
      let record : ChunkRecord :=
        { chunkHash, sizeBytes := size, manifestRefCount := 0, retained := false, createdAt := now }
      .set (.chunk chunkHash) record (.ret true)

/-- The loop over `chunkRefCount`. -/
def addChunkRefsTxn (chunkHashes : List Hash) : List Hash → StoreTxn Unit → StoreTxn Unit
  | [], next => next
  | h :: hs, next =>
    .get (.chunk h) fun
      | none => .fail (.chunk "missing chunk metadata for %s" h)
      | some (r : ChunkRecord) =>
        let manifestRefCount := r.manifestRefCount + chunkHashes.count h
        let record : ChunkRecord := { r with manifestRefCount, retained := 0 < manifestRefCount }
        .set (.chunk h) record (addChunkRefsTxn chunkHashes hs next)

/-- The `Update` of `commitManifestAndChunkRefs`. -/
def commitManifestTxn (manifest : ManifestRecord) : StoreTxn Unit :=
  .get (.manifest manifest.manifestID) fun
    | some (existing : ManifestRecord) =>
      match validateManifest existing with
      | .error e => .fail (.wrap "validate existing manifest" e)
      | .ok () =>
        if existing.retired then
          let reactivated : ManifestRecord := { existing with retired := false, retiredAt := none }
          .set (.manifest manifest.manifestID) reactivated (.ret ())
        else .ret ()
    | none =>
      addChunkRefsTxn manifest.chunkHashes manifest.chunkHashes.dedup
        (.set (.manifest manifest.manifestID) manifest (.ret ()))

/-- `badger.ErrConflict`. -/
def errConflict : Error := .other "Transaction Conflict. Please retry"

/-! ## The calls -/

/-- A `ProcessUpload` of `bytes`, and the transaction that it has begun. -/
structure UploadCall where
  bytes : Bytes
  upload : Upload
  pending : Option (Pending StoreKey.Value Error UploadPc)

def UploadCall.returned (c : UploadCall) : Option (Except Error UploadCommitResult) :=
  match c.upload.pc with
  | .done r => some r
  | _ => none

/-- The transaction that is the upload's next step, and where the upload goes on after it. -/
def Upload.txn (blake3 : Bytes → Hash) (u : Upload) (now : Time) : Option (StoreTxn UploadPc) :=
  match u.pc with
  | .putRecord c => some ((touchChunkTxn (blake3 c) c.length now).map (.mark c))
  | .commit m =>
    let manifest := { m with fileHash := m.manifestID }
    match validateManifest manifest with
    | .ok () => some ((commitManifestTxn manifest).map fun _ => .finish m)
    | .error _ => none
  | _ => none

/-- The `RUnlock` that `commitManifestAndChunkRefs` has deferred; `touchChunk` has a step to go. -/
def Upload.afterTxn (u : Upload) (s : Mem) (t : SessionID) : Mem :=
  match u.pc with
  | .commit _ => { s with lifecycleMu := s.lifecycleMu.runlock t }
  | _ => s

/-- The key that the step writes, where it is one of the two that update the session. -/
def Upload.putsSession (u : Upload) : List StoreKey :=
  match u.pc with
  | .finish _ | .failed _ => [.upload u.session.sessionID]
  | _ => []

/-! ## The system -/

/-- Uploads on one `Store`. -/
structure UploadSystem where
  disk : Disk
  mem : Mem
  versions : Versions StoreKey
  calls : Dict SessionID UploadCall

def UploadSystem.idle (d : Disk) : UploadSystem := ⟨d, .idle, .zero, ∅⟩

/-- A call arrives, or takes its next step. -/
inductive UploadAction
  | processUpload (t : SessionID) (fileName : String) (bytes : Bytes) (now : Time)
  | run (t : SessionID) (now : Time)

namespace UploadSystem

section
variable (blake3 : Bytes → Hash)

/-- A step of `uploadStep`, no transaction pending after it. -/
def plain (y : UploadSystem) (t : SessionID) (c : UploadCall) (keys : List StoreKey)
    (k : Choice) : Option UploadSystem :=
  (uploadStep blake3 y.disk y.mem t c.upload k).map fun (disk, mem, upload) =>
    { disk, mem, versions := y.versions.commit keys,
      calls := y.calls.insert t { c with upload, pending := none } }

/-- A step of a call; `Update` begins a transaction in one and commits it in the next. -/
def run (y : UploadSystem) (t : SessionID) (c : UploadCall) (now : Time) : Option UploadSystem :=
  match c.pending with
  | none =>
    match c.upload.txn blake3 now with
    | some txn =>
      let pending := some (.begin y.disk.get y.versions txn)
      some { y with calls := y.calls.insert t { c with pending } }
    | none => y.plain blake3 t c c.upload.putsSession (.go now)
  | some p =>
    match p.close y.versions errConflict with
    | .error e => y.plain blake3 t c [] (.fail e)
    | .ok pc =>
      let keys := p.outcome.writes.map Sigma.fst
      some { disk := y.disk.write p.outcome.writes
             mem := c.upload.afterTxn y.mem t
             versions := y.versions.commit keys
             calls := y.calls.insert t
               { c with upload := { c.upload with pc }, pending := none } }

end

/-- The state once a call has stored its session. -/
def spawned (cfg : FastCdc.Config) (y : UploadSystem) (t : SessionID) (fileName : String)
    (bytes : Bytes) (now : Time) : UploadSystem :=
  let session := newUploadSession t fileName now
  { y with
    disk := putUploadSession y.disk session
    versions := y.versions.commit [.upload t]
    calls := y.calls.insert t ⟨bytes, .start cfg session bytes, none⟩ }

def step (cfg : FastCdc.Config) (blake3 : Bytes → Hash) (y : UploadSystem) :
    UploadAction → Option UploadSystem
  | .processUpload t fileName bytes now =>
    match y.calls.lookup t with
    | some _ => none
    | none => some (y.spawned cfg t fileName bytes now)
  | .run t now => (y.calls.lookup t).bind fun c => y.run blake3 t c now

/-- The step is not a commit of a transaction of the call after a key that it has read was
written. -/
def Undisturbed (t : SessionID) (y : UploadSystem) : UploadAction → Prop
  | .processUpload .. => True
  | .run t' _ => t' = t → ((y.calls.lookup t).bind UploadCall.pending).all fun p =>
      !p.conflicts y.versions

instance (t : SessionID) (y : UploadSystem) (a : UploadAction) :
    Decidable (Undisturbed t y a) := by
  cases a <;> unfold Undisturbed <;> infer_instance

end UploadSystem

end HashBox.Vault
