import HashBox.Vault.Gc
import HashBox.Vault.Names

/-!
# Garbage collection on the stored bytes (`internal/cas/garbage_collector.go`)

`Gc.lean` and `Calls.lean` work with records that have been read; here the database is what it is to
the program: bytes under text keys, which may not decode and whose records may say anything. Hashes
are text, as the records have them. `encoding/json` is a parameter, and so are the visits of the
directory walk; an environment says which operations fail.

Text stands for the bytes of a Go string; bytes that are no UTF-8 stand as U+FFFD, which no check
accepts either.
-/

namespace HashBox.Vault.Metadata

def manifestPrefix : String := "manifest:"

def chunkPrefix : String := "chunk:"

/-- `strings.HasPrefix(s, p)`. -/
def hasPrefix (p s : String) : Bool := p.toList.isPrefixOf s.toList

/-- `strings.TrimPrefix(s, p)` of a string that has the prefix. -/
def trimPrefix (p s : String) : String := String.ofList (s.toList.drop p.toList.length)

def manifestKey (manifestID : String) : String := manifestPrefix ++ manifestID

def chunkKey (chunkHash : String) : String := chunkPrefix ++ chunkHash

/-- `ManifestRecord` as it decodes. -/
structure ManifestRecord where
  manifestID : String
  fileHash : String
  chunkHashes : List String
  totalSizeBytes : Int
  chunkCount : Int
  createdAt : Time
  immutable : Bool
  retired : Bool
  retiredAt : Option Time
deriving DecidableEq, Repr

/-- `ChunkRecord` as it decodes. -/
structure ChunkRecord where
  chunkHash : String
  sizeBytes : Int
  storagePath : String
  manifestRefCount : Int
  retained : Bool
  createdAt : Time
deriving DecidableEq, Repr

/-- The database and the paths of the files below the chunk root. -/
structure Store where
  db : Dict String Bytes
  files : List Path

/-! ## The environment -/

/-- The operations that can fail: the checks of the context, the reads, the removals. -/
inductive Op
  | start
  | manifestContext (key : String)
  | manifestValue (key : String)
  | chunkContext (key : String)
  | chunkValue (key : String)
  | visitContext (path : Path)
  | recordContext (chunkHash : String)
  | removeFile (path : Path)
  | deleteContext (chunkHash : String)
  | deleteTransaction (chunkHash : String)
  | orphanContext (path : Path)
deriving DecidableEq

/-- An error of the file system or of the walk's function, told apart by `os.ErrNotExist`. -/
inductive WalkError
  | notExist
  | other (err : Error)
deriving DecidableEq, Repr

/-- `os.DirEntry`, with its path; `regular` of a file that is neither a directory nor special. -/
structure DirEntry where
  path : Path
  regular : Bool
  info : Except WalkError Time

/-- A call that `filepath.WalkDir` makes of its function. -/
inductive Visit
  | failed (walkErr : WalkError)
  | entry (e : DirEntry)

structure Env where
  chunkRoot : String
  unmarshalManifest : Bytes → Except Error ManifestRecord
  unmarshalChunk : Bytes → Except Error ChunkRecord
  fault : Op → Option Error
  walk : List Visit
  /-- The order in which the iteration over the map of records comes to them. -/
  order : List (String × ChunkRecord) → List (String × ChunkRecord)
  order_perm : ∀ l, (order l).Perm l

/-- An operation that may fail. -/
def Env.try (env : Env) (op : Op) : Except Error Unit :=
  match env.fault op with
  | some e => .error e
  | none => .ok ()

/-! ## The scan -/

/-- The loop of `validateManifest` over the chunk hashes. -/
def checkHashes (chunkHashes : List String) : Except Error Unit :=
  forM chunkHashes fun h => (normalizeHash h).map fun _ => ()

def validateManifest (m : ManifestRecord) : Except Error Unit :=
  if m.manifestID = "" ∨ m.fileHash = "" then .error .invalidHash
  else
    match normalizeHash m.manifestID, normalizeHash m.fileHash with
    | .error e, _ => .error e
    | .ok _, .error e => .error e
    | .ok manifestID, .ok fileHash =>
      if manifestID ≠ fileHash then .error (.other "manifest id dan file hash tidak konsisten")
      else if m.chunkCount ≠ m.chunkHashes.length then .error (.other "chunk count tidak konsisten")
      else if m.totalSizeBytes < 0 then .error (.other "total size tidak valid")
      else if !m.immutable then .error (.other "manifest tidak immutable")
      else if m.retired && m.retiredAt.getD 0 == 0 then
        .error (.other "manifest retired tanpa waktu retirement")
      else checkHashes m.chunkHashes

structure Scan where
  referencedChunks : List String
  retiredChunkAt : Dict String Time
  chunkRecords : Dict String ChunkRecord
  physicalOrphans : List Path
  report : GarbageCollectionReport

def Scan.empty : Scan := ⟨[], ∅, ∅, [], .zero⟩

section
variable (env : Env)

def decodeManifest (key : String) (value : Bytes) : Except Error ManifestRecord :=
  match env.try (.manifestValue key) with
  | .error e => .error e
  | .ok () => env.unmarshalManifest value

def decodeChunk (key : String) (value : Bytes) : Except Error ChunkRecord :=
  match env.try (.chunkValue key) with
  | .error e => .error e
  | .ok () => env.unmarshalChunk value

/-- The loop over the manifests, up to the chunks of one. -/
def readManifest (key : String) (value : Bytes) : Except Error ManifestRecord :=
  match env.try (.manifestContext key) with
  | .error e => .error e
  | .ok () =>
    match decodeManifest env key value with
    | .error e => .error (.wrap "decode manifest" e)
    | .ok m =>
      match validateManifest m with
      | .error e => .error (.wrap "validate manifest" e)
      | .ok () =>
        let keyID := trimPrefix manifestPrefix key
        if normalizeHash keyID = .ok m.manifestID then .ok m
        else .error (.other ("manifest key tidak konsisten: " ++ keyID))

/-- The loop over the chunks of a manifest. -/
def scanManifestChunks (m : ManifestRecord) : List String → Scan → Scan × Option Error
  | [], scan => (scan, none)
  | h :: hs, scan =>
    match normalizeHash h with
    | .error e => (scan, some (.wrap "normalize manifest chunk" e))
    | .ok h =>
      scanManifestChunks m hs <|
        if !m.retired then { scan with referencedChunks := h :: scan.referencedChunks }
        else if (scan.retiredChunkAt.lookup h).all (· < m.retiredAt.getD 0) then
          { scan with retiredChunkAt := scan.retiredChunkAt.insert h (m.retiredAt.getD 0) }
        else scan

/-- The loop over the manifests: the scan as far as it has come, and the error that ended it. -/
def scanManifests : List (String × Bytes) → Scan → Scan × Option Error
  | [], scan => (scan, none)
  | (key, value) :: rest, scan =>
    match readManifest env key value with
    | .error e => (scan, some e)
    | .ok m =>
      let report := { scan.report with scannedManifests := scan.report.scannedManifests + 1 }
      match scanManifestChunks m m.chunkHashes { scan with report } with
      | (scan, some e) => (scan, some e)
      | (scan, none) => scanManifests rest scan

/-- The loop over the chunk records, up to what it keeps of one: the record under its hash. -/
def readChunk (key : String) (value : Bytes) : Except Error ChunkRecord :=
  match env.try (.chunkContext key) with
  | .error e => .error e
  | .ok () =>
    match decodeChunk env key value with
    | .error e => .error (.wrap "decode chunk metadata" e)
    | .ok r =>
      let keyHash := trimPrefix chunkPrefix key
      match normalizeHash keyHash with
      | .error e => .error (.wrap "invalid chunk metadata key" e)
      | .ok normalizedKeyHash =>
        if normalizeHash r.chunkHash ≠ .ok normalizedKeyHash then
          .error (.other ("chunk metadata key tidak konsisten: " ++ keyHash))
        else if r.manifestRefCount < 0 then
          .error (.other ("negative manifest ref count for chunk " ++ normalizedKeyHash))
        else .ok { r with chunkHash := normalizedKeyHash }

/-- The loop over the chunk records. -/
def scanChunkRecords : List (String × Bytes) → Scan → Scan × Option Error
  | [], scan => (scan, none)
  | (key, value) :: rest, scan =>
    match readChunk env key value with
    | .error e => (scan, some e)
    | .ok r =>
      let report :=
        { scan.report with scannedChunkRecords := scan.report.scannedChunkRecords + 1 }
      let chunkRecords := scan.chunkRecords.insert r.chunkHash r
      scanChunkRecords rest { scan with chunkRecords, report }

/-- The entries whose keys have the prefix. -/
def withPrefix (p : String) (s : Store) : List (String × Bytes) :=
  (Dict.toList s.db).filter fun e => hasPrefix p e.1

/-- The loop that counts the old records an active upload holds. -/
def countSkippedActive (activeChunks : List String) (olderThan : Time) (scan : Scan) : Scan :=
  let skipped := (Dict.toList scan.chunkRecords).countP fun (h, r) =>
    !scan.referencedChunks.contains h && activeChunks.contains h && oldEnough r.createdAt olderThan
  { scan with report :=
      { scan.report with skippedActiveChunks := scan.report.skippedActiveChunks + skipped } }

/-- The read transaction of `scanGarbageCollection`. -/
def scanMetadata (s : Store) : Scan × Option Error :=
  match scanManifests env (withPrefix manifestPrefix s) .empty with
  | (scan, some e) => (scan, some e)
  | (scan, none) => scanChunkRecords env (withPrefix chunkPrefix s) scan

/-- The function of the walk at one entry. -/
def visitEntry (activeChunks : List String) (olderThan : Time) (scan : Scan) (e : DirEntry) :
    Except WalkError Scan :=
  match env.try (.visitContext e.path) with
  | .error err => .error (.other err)
  | .ok () =>
    if !e.regular then .ok scan
    else
      match walkedHash (e.path.getLastD "") with
      | none => .ok scan
      | some h =>
        let report :=
          { scan.report with scannedPhysicalFiles := scan.report.scannedPhysicalFiles + 1 }
        let scan := { scan with report }
        if scan.referencedChunks.contains h then .ok scan
        else if (scan.chunkRecords.lookup h).isSome then .ok scan
        else if activeChunks.contains h then
          .ok { scan with
            report := { report with skippedActiveChunks := report.skippedActiveChunks + 1 } }
        else if (scan.retiredChunkAt.lookup h).any fun t => olderThan ≤ t then .ok scan
        else
          match e.info with
          | .error err => .error err
          | .ok modTime =>
            if modTime < olderThan then
              .ok { scan with physicalOrphans := scan.physicalOrphans ++ [e.path] }
            else .ok scan

/-- `filepath.WalkDir`: the scan as far as the walk has come, and the error that ended it. -/
def walkDir (activeChunks : List String) (olderThan : Time) :
    List Visit → Scan → Scan × Option WalkError
  | [], scan => (scan, none)
  | .failed walkErr :: _, scan => (scan, some walkErr)
  | .entry e :: rest, scan =>
    match visitEntry env activeChunks olderThan scan e with
    | .error err => (scan, some err)
    | .ok scan => walkDir activeChunks olderThan rest scan

/-- `scanGarbageCollection`; a directory that is not there ends the walk well. -/
def scanGarbageCollection (s : Store) (olderThan : Time) (activeChunks : List String) :
    Scan × Option Error :=
  match scanMetadata env s with
  | (scan, some e) => (scan, some (.wrap "scan gc metadata" e))
  | (scan, none) =>
    let scan := countSkippedActive activeChunks olderThan scan
    match walkDir env activeChunks olderThan env.walk scan with
    | (scan, none) => (scan, none)
    | (scan, some .notExist) => (scan, none)
    | (scan, some (.other e)) => (scan, some (.wrap "scan physical chunks" e))

/-! ## The deletions -/

/-- `removeChunkFile`; a file that is not there is no error. -/
def removeChunkFile (s : Store) (path : Path) : Except Error Store :=
  match env.try (.removeFile path) with
  | .error e => .error e
  | .ok () => .ok { s with files := s.files.filter (· ≠ path) }

/-- `deleteChunkMetadata`: whether the record is gone, and the database. -/
def deleteChunkMetadata (s : Store) (h : String) (olderThan : Time) (retired : Bool) :
    Except Error (Bool × Store) :=
  match env.try (.deleteContext h), env.try (.deleteTransaction h) with
  | .error e, _ => .error e
  | .ok (), .error e => .error e
  | .ok (), .ok () =>
    match s.db.lookup (chunkKey h) with
    | none => .ok (true, s)
    | some value =>
      match env.unmarshalChunk value with
      | .error e => .error e
      | .ok r =>
        if normalizeHash r.chunkHash ≠ .ok h then
          .error (.other "chunk metadata key tidak konsisten")
        else if !retired && (r.manifestRefCount ≠ 0 || !oldEnough r.createdAt olderThan) then
          .ok (false, s)
        else .ok (true, { s with db := s.db.erase (chunkKey h) })

/-- What the loops of the sweep carry: the report, the deletion errors, the error that ended them,
if one did, and the store. -/
structure Sweep where
  report : GarbageCollectionReport
  deletionErrors : List Error
  abort : Option Error
  store : Store

/-- What the loop over the chunk records does with one of them. -/
def sweepDecision (scan : Scan) (activeChunks : List String) (olderThan : Time) (h : String)
    (r : ChunkRecord) : SweepDecision :=
  if scan.referencedChunks.contains h then .keep
  else if activeChunks.contains h then
    if oldEnough r.createdAt olderThan then .skipActive else .keep
  else
    match scan.retiredChunkAt.lookup h with
    | some retiredAt => if retiredAt < olderThan then .candidate true else .keep
    | none =>
      if r.manifestRefCount ≠ 0 then .keep
      else if oldEnough r.createdAt olderThan then .candidate false else .keep

/-- The removal of a candidate: its file, then its record. -/
def removeCandidate (s : Store) (h : String) (olderThan : Time) (retired : Bool) :
    Except Error Bool × Store :=
  match chunkPaths h with
  | .error e => (.error (.wrap ("resolve chunk " ++ h ++ " path") e), s)
  | .ok path =>
    match removeChunkFile env s path with
    | .error e => (.error (.wrap ("remove chunk " ++ h ++ " file") e), s)
    | .ok s =>
      match deleteChunkMetadata env s h olderThan retired with
      | .error e => (.error (.wrap ("remove chunk " ++ h ++ " metadata") e), s)
      | .ok (deleted, s) => (.ok deleted, s)

/-- The loop over the chunk records. -/
def sweepRecords (scan : Scan) (activeChunks : List String) (olderThan : Time) :
    List (String × ChunkRecord) → Sweep → Sweep
  | [], w => w
  | (h, r) :: rest, w =>
    match env.try (.recordContext h) with
    | .error e => { w with abort := some e }
    | .ok () =>
      match sweepDecision scan activeChunks olderThan h r with
      | .keep => sweepRecords scan activeChunks olderThan rest w
      | .skipActive =>
        let report := { w.report with skippedActiveChunks := w.report.skippedActiveChunks + 1 }
        sweepRecords scan activeChunks olderThan rest { w with report }
      | .candidate retired =>
        let report := { w.report with candidateChunks := w.report.candidateChunks + 1 }
        sweepRecords scan activeChunks olderThan rest <|
          match removeCandidate env w.store h olderThan retired with
          | (.error e, store) =>
            { w with report, deletionErrors := w.deletionErrors ++ [e], store }
          | (.ok deleted, store) =>
            let deletedChunks := if deleted then report.deletedChunks + 1 else report.deletedChunks
            { w with report := { report with deletedChunks }, store }

/-- The loop over the physical orphans. -/
def sweepOrphans : List Path → Sweep → Sweep
  | [], w => w
  | path :: rest, w =>
    match env.try (.orphanContext path) with
    | .error e => { w with abort := some e }
    | .ok () =>
      match removeChunkFile env w.store path with
      | .error e =>
        let err := .wrap ("remove physical orphan " ++ String.intercalate "/" path) e
        sweepOrphans rest { w with deletionErrors := w.deletionErrors ++ [err] }
      | .ok store =>
        let deletedPhysicalOrphans := w.report.deletedPhysicalOrphans + 1
        sweepOrphans rest { w with report := { w.report with deletedPhysicalOrphans }, store }

/-- `CollectGarbage` with the snapshot of the active uploads' chunks: the report, the errors it
returns (none when it returns nil) and the store. -/
def collectGarbage (s : Store) (olderThan : Time) (activeChunks : List String) :
    GarbageCollectionReport × List Error × Store :=
  match env.try .start with
  | .error e => (.zero, [e], s)
  | .ok () =>
    if trimSpace env.chunkRoot = "" then (.zero, [.other "chunk root is empty"], s)
    else
      match scanGarbageCollection env s olderThan activeChunks with
      | (scan, some e) => (scan.report, [e], s)
      | (scan, none) =>
        let w := sweepRecords env scan activeChunks olderThan
          (env.order (Dict.toList scan.chunkRecords)) ⟨scan.report, [], none, s⟩
        match w.abort with
        | some e => (w.report, [e], w.store)
        | none =>
          let w := sweepOrphans env scan.physicalOrphans w
          match w.abort with
          | some e => (w.report, [e], w.store)
          | none => (w.report, w.deletionErrors, w.store)

end

end HashBox.Vault.Metadata
