import HashBox.Vault.Gc

/-!
# Whole calls on a Store, one at a time

`ProcessUpload`, `CollectGarbage` and the lifecycle calls run from start to end. An environment
says what each operation of the call reads from the clock and which operations fail: an I/O error, a
failed transaction, an error of the upload's reader or a cancelled context at that point. A process
that stops in the middle leaves what a call leaves whose every later operation fails.

With one call at a time the lock is always free, and an upload leaves the registry as it found it.
-/

namespace HashBox.Vault

/-! ## ProcessUpload -/

/-- The operations of an upload that can fail; those on a chunk carry its index. A `commit` fails
with the error of `commitManifestAndChunkRefs`, of its context or of its transaction. -/
inductive UploadOp
  | start
  | createSession
  | receive (index : Nat)
  | getChunk (index : Nat)
  | persist (index : Nat)
  | putRecord (index : Nat)
  | newManifest
  | commit
  | finish
  | markFailed
deriving DecidableEq, Repr

structure UploadEnv where
  sessionID : SessionID
  clock : UploadOp → Time
  fault : UploadOp → Option Error

section
variable (blake3 : Bytes → Hash) (env : UploadEnv)

/-- `touchChunk`: whether the chunk's record is new. -/
def touchChunk (index : Nat) (d : Disk) (c : Bytes) : Except Error Bool × Disk :=
  match env.fault (.getChunk index) with
  | some e => (.error e, d)
  | none =>
    match getChunk d (blake3 c) with
    | some _ =>
      if (d.files.lookup (blake3 c)).isSome then (.ok false, d)
      else
        match env.fault (.persist index) with
        | some e => (.error (.wrap "re-persist chunk file after gc race" e), d)
        | none => (.ok false, writeChunkIfMissing d (blake3 c) c (env.clock (.persist index)))
    | none =>
      match env.fault (.persist index) with
      | some e => (.error (.wrap "persist chunk file" e), d)
      | none =>
        let d := writeChunkIfMissing d (blake3 c) c (env.clock (.persist index))
        match env.fault (.putRecord index) with
        | some e => (.error (.wrap "commit chunk metadata" e), d)
        | none =>
          let (created, d) := putNewChunk d (blake3 c) c.length (env.clock (.putRecord index))
          (.ok created, d)

/-- The loop over `chunkCh`, and the error of `splitErrCh` after it. -/
def uploadChunks : List Bytes → UploadLoop → Disk → Except Error UploadLoop × Disk
  | [], u, d =>
    match env.fault (.receive u.chunkHashes.length) with
    | some e => (.error (.wrap "split upload stream" e), d)
    | none => (.ok u, d)
  | c :: rest, u, d =>
    let index := u.chunkHashes.length
    match env.fault (.receive index) with
    | some e => (.error (.wrap "split upload stream" e), d)
    | none =>
      match touchChunk blake3 env index d c with
      | (.error e, d) => (.error (.wrap s!"process chunk {index}" e), d)
      | (.ok created, d) =>
        uploadChunks rest
          { written := u.written ++ c
            chunkHashes := u.chunkHashes ++ [blake3 c]
            totalSize := u.totalSize + c.length
            newChunkCount := if created then u.newChunkCount + 1 else u.newChunkCount
            reuseChunkCount := if created then u.reuseChunkCount else u.reuseChunkCount + 1 }
          d

/-- `ProcessUpload` after the loop: the commit and the session's last update. The session comes
back as an error return leaves it. -/
def commitUpload (session : UploadSessionRecord) (u : UploadLoop) (d : Disk) :
    Except Error UploadCommitResult × UploadSessionRecord × Disk :=
  if u.totalSize = 0 then
    (.error (.detail .invalidUpload "berkas kosong tidak dapat dikomit"), session, d)
  else
    let m := newManifest (blake3 u.written) u.chunkHashes u.totalSize (env.clock .newManifest)
    match env.fault .commit with
    | some e => (.error (.wrap "commit manifest" e), session, d)
    | none =>
      match commitManifestAndChunkRefs d m with
      | .error e => (.error (.wrap "commit manifest" e), session, d)
      | .ok d =>
        let session := { session with receivedChunks := u.chunkHashes, state := .committed }
        match env.fault .finish with
        | some e => (.error (.wrap "mark upload session committed" e), session, d)
        | none => (.ok (u.result m), session, putUploadSession d session)

/-- `ProcessUpload` once its session is stored. -/
def uploadBody (cfg : FastCdc.Config) (session : UploadSessionRecord) (bytes : Bytes) (d : Disk) :
    Except Error UploadCommitResult × UploadSessionRecord × Disk :=
  match FastCdc.split cfg bytes with
  | .error e => (.error (.wrap "split upload stream" (.other e)), session, d)
  | .ok cs =>
    match uploadChunks blake3 env cs .init d with
    | (.error e, d) => (.error e, session, d)
    | (.ok u, d) => commitUpload blake3 env session u d

def processUpload (cfg : FastCdc.Config) (fileName : String) (bytes : Bytes) (d : Disk) :
    Except Error UploadCommitResult × Disk :=
  match env.fault .start, env.fault .createSession with
  | some e, _ => (.error e, d)
  | none, some e => (.error (.wrap "create upload session" e), d)
  | none, none =>
    let session := newUploadSession env.sessionID fileName (env.clock .createSession)
    match uploadBody blake3 env cfg session bytes (putUploadSession d session) with
    | (.ok r, _, d) => (.ok r, d)
    | (.error e, session, d) =>
      match env.fault .markFailed with
      | some e' => (.error (.also e "update upload session failed" e'), d)
      | none => (.error e, putUploadSession d { session with state := .failed })

end

/-! ## CollectGarbage -/

inductive SweepOp
  | start
  | scan
  | walk
  | record (h : Hash)
  | removeFile (h : Hash)
  | deleteMetadata (h : Hash)
  | orphan (h : Hash)
  | removeOrphan (h : Hash)
deriving DecidableEq, Repr

structure SweepEnv where
  fault : SweepOp → Option Error
  /-- The order in which the iteration over the map of records comes to them. -/
  order : List (Hash × ChunkRecord) → List (Hash × ChunkRecord)
  order_perm : ∀ l, (order l).Perm l

/-- What a loop of the sweep returns: the report, the deletion errors, and the error that ended the
sweep, if one did. -/
structure SweepLoop where
  report : GarbageCollectionReport
  deletionErrors : List Error
  abort : Option Error
  disk : Disk

section
variable (env : SweepEnv) (olderThan : Time)

/-- `scanGarbageCollection`; a transaction or a walk that fails does so before its first entry. -/
def scanGarbageCollection (d : Disk) (activeChunks : List Hash) :
    Except ScanError GarbageCollectionScan :=
  match env.fault .scan with
  | some e => .error ⟨.zero, .wrap "scan gc metadata" e⟩
  | none =>
    match scanMetadata d olderThan activeChunks with
    | .error e => .error e
    | .ok scan =>
      match env.fault .walk with
      | some e => .error ⟨scan.report, .wrap "scan physical chunks" e⟩
      | none => .ok ((Dict.toList d.files).foldl
          (fun scan e => visitFile activeChunks olderThan scan e.1 e.2) scan)

/-- The loop over the chunk records. -/
def sweepRecords (scan : GarbageCollectionScan) (activeChunks : List Hash) :
    List (Hash × ChunkRecord) → SweepLoop → SweepLoop
  | [], w => w
  | (h, r) :: rest, w =>
    match env.fault (.record h) with
    | some e => { w with abort := some e }
    | none =>
      match sweepDecision scan activeChunks olderThan h r with
      | .keep => sweepRecords scan activeChunks rest w
      | .skipActive =>
        let report := { w.report with skippedActiveChunks := w.report.skippedActiveChunks + 1 }
        sweepRecords scan activeChunks rest { w with report }
      | .candidate retired =>
        let report := { w.report with candidateChunks := w.report.candidateChunks + 1 }
        let w := { w with report }
        match env.fault (.removeFile h) with
        | some e =>
          let err := .wrapChunk "remove chunk %s file" h e
          sweepRecords scan activeChunks rest
            { w with deletionErrors := w.deletionErrors ++ [err] }
        | none =>
          let w := { w with disk := removeChunkFile w.disk h }
          let metadata : Except Error (Bool × Disk) := match env.fault (.deleteMetadata h) with
            | some e => .error e
            | none => deleteChunkMetadata w.disk h olderThan retired
          match metadata with
          | .error e =>
            let err := .wrapChunk "remove chunk %s metadata" h e
            sweepRecords scan activeChunks rest
              { w with deletionErrors := w.deletionErrors ++ [err] }
          | .ok (deleted, disk) =>
            let deletedChunks :=
              if deleted then w.report.deletedChunks + 1 else w.report.deletedChunks
            sweepRecords scan activeChunks rest
              { w with report := { w.report with deletedChunks }, disk }

/-- The loop over the physical orphans. -/
def sweepOrphans : List Hash → SweepLoop → SweepLoop
  | [], w => w
  | h :: rest, w =>
    match env.fault (.orphan h), env.fault (.removeOrphan h) with
    | some e, _ => { w with abort := some e }
    | none, some e =>
      let err := .wrapChunk "remove physical orphan %s" h e
      sweepOrphans rest { w with deletionErrors := w.deletionErrors ++ [err] }
    | none, none =>
      let deletedPhysicalOrphans := w.report.deletedPhysicalOrphans + 1
      sweepOrphans rest
        { w with report := { w.report with deletedPhysicalOrphans }
                 disk := removeChunkFile w.disk h }

/-- `CollectGarbage`: the report, the errors it returns (none when it returns nil) and the disk. -/
def collectGarbage (a : ActiveUploads) (d : Disk) :
    GarbageCollectionReport × List Error × Disk :=
  match env.fault .start with
  | some e => (.zero, [e], d)
  | none =>
    let activeChunks := snapshotActiveChunkHashes a
    match scanGarbageCollection env olderThan d activeChunks with
    | .error e => (e.report, [e.err], d)
    | .ok scan =>
      let w := sweepRecords env olderThan scan activeChunks
        (env.order (Dict.toList scan.chunkRecords)) ⟨scan.report, [], none, d⟩
      match w.abort with
      | some e => (w.report, [e], w.disk)
      | none =>
        let w := sweepOrphans env scan.physicalOrphans w
        match w.abort with
        | some e => (w.report, [e], w.disk)
        | none => (w.report, w.deletionErrors, w.disk)

end

/-! ## Sequences of calls -/

/-- A call on the store, with its environment. -/
inductive Call
  | processUpload (cfg : FastCdc.Config) (env : UploadEnv) (fileName : String) (bytes : Bytes)
  | retireManifest (manifestID : Hash) (now : Time)
  | retainManifest (manifestID : Hash) (now : Time)
  | collectGarbage (env : SweepEnv) (olderThan : Time)

/-- The disk after the call; a lifecycle call that fails leaves it as it is. -/
def Call.run (blake3 : Bytes → Hash) (d : Disk) : Call → Disk
  | .processUpload cfg env fileName bytes => (Vault.processUpload blake3 env cfg fileName bytes d).2
  | .retireManifest manifestID now =>
    match Vault.retireManifest d manifestID now with
    | .ok d => d
    | .error _ => d
  | .retainManifest manifestID now =>
    match Vault.retainManifest d manifestID now with
    | .ok d => d
    | .error _ => d
  | .collectGarbage env olderThan => (Vault.collectGarbage env olderThan ∅ d).2.2

/-! ## Environments to evaluate calls with -/

/-- Nothing fails, the clock stands. -/
def UploadEnv.calm (sessionID : SessionID) (now : Time) : UploadEnv :=
  ⟨sessionID, fun _ => now, fun _ => none⟩

def SweepEnv.calm : SweepEnv := ⟨fun _ => none, id, fun l => .refl l⟩

end HashBox.Vault
