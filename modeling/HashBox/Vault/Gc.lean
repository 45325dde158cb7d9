import HashBox.Vault.Store

/-!
# The garbage collector (`internal/cas/garbage_collector.go`)

The registry of active uploads, and the parts of a sweep that are one step each: the metadata scan
(one read transaction), the visit of one file by the directory walk, the removal of one chunk file
and of one metadata record. The loops over them are in `Calls.lean` and `System.lean`.

A set of hashes is a list of which only membership is read.
-/

namespace HashBox.Vault

/-- `activeUploads`: the chunks each registered upload has touched. -/
abbrev ActiveUploads := Dict SessionID (List Hash)

def registerActiveUpload (a : ActiveUploads) (uploadID : SessionID) : ActiveUploads :=
  a.insert uploadID []

def unregisterActiveUpload (a : ActiveUploads) (uploadID : SessionID) : ActiveUploads :=
  a.erase uploadID

def markActiveUploadChunk (a : ActiveUploads) (uploadID : SessionID) (chunkHash : Hash) :
    ActiveUploads :=
  match a.lookup uploadID with
  | none => a
  | some chunks => a.insert uploadID (chunkHash :: chunks)

def snapshotActiveChunkHashes (a : ActiveUploads) : List Hash :=
  (Dict.toList a).flatMap fun e => e.2

structure GarbageCollectionReport where
  scannedManifests : Nat
  scannedChunkRecords : Nat
  scannedPhysicalFiles : Nat
  candidateChunks : Nat
  deletedChunks : Nat
  deletedPhysicalOrphans : Nat
  skippedActiveChunks : Nat
deriving DecidableEq, Repr

def GarbageCollectionReport.zero : GarbageCollectionReport := ⟨0, 0, 0, 0, 0, 0, 0⟩

/-- `garbageCollectionScan`; an orphan is named by its hash. -/
structure GarbageCollectionScan where
  referencedChunks : List Hash
  retiredChunkAt : Dict Hash Time
  chunkRecords : Dict Hash ChunkRecord
  physicalOrphans : List Hash
  report : GarbageCollectionReport

def GarbageCollectionScan.empty : GarbageCollectionScan := ⟨[], ∅, ∅, [], .zero⟩

/-- An error of the scan, with the report as far as the scan has come. -/
structure ScanError where
  report : GarbageCollectionReport
  err : Error
deriving DecidableEq, Repr

/-! ## The metadata scan -/

/-- The body of the loop over a manifest's chunks. -/
def scanManifestChunk (m : ManifestRecord) (scan : GarbageCollectionScan) (h : Hash) :
    GarbageCollectionScan :=
  if !m.retired then { scan with referencedChunks := h :: scan.referencedChunks }
  else
    -- a validated retired manifest has its time
    let retiredAt := m.retiredAt.getD 0
    match scan.retiredChunkAt.lookup h with
    | some previous =>
      if previous < retiredAt then
        { scan with retiredChunkAt := scan.retiredChunkAt.insert h retiredAt }
      else scan
    | none => { scan with retiredChunkAt := scan.retiredChunkAt.insert h retiredAt }

def scanManifests : List (Hash × ManifestRecord) → GarbageCollectionScan →
    Except ScanError GarbageCollectionScan
  | [], scan => .ok scan
  | (key, m) :: rest, scan =>
    match validateManifest m with
    | .error e => .error ⟨scan.report, .wrap "validate manifest" e⟩
    | .ok () =>
      if key ≠ m.manifestID then
        .error ⟨scan.report, .chunk "manifest key tidak konsisten: %s" key⟩
      else
        let report := { scan.report with scannedManifests := scan.report.scannedManifests + 1 }
        scanManifests rest (m.chunkHashes.foldl (scanManifestChunk m) { scan with report })

def scanChunkRecords : List (Hash × ChunkRecord) → GarbageCollectionScan →
    Except ScanError GarbageCollectionScan
  | [], scan => .ok scan
  | (key, r) :: rest, scan =>
    if r.chunkHash ≠ key then
      .error ⟨scan.report, .chunk "chunk metadata key tidak konsisten: %s" key⟩
    else if r.manifestRefCount < 0 then
      .error ⟨scan.report, .chunk "negative manifest ref count for chunk %s" key⟩
    else
      let report :=
        { scan.report with scannedChunkRecords := scan.report.scannedChunkRecords + 1 }
      scanChunkRecords rest
        { scan with chunkRecords := scan.chunkRecords.insert r.chunkHash r, report }

/-- `!t.IsZero() && t.Before(olderThan)`. -/
def oldEnough (t olderThan : Time) : Bool := t ≠ 0 && t < olderThan

/-- The loop that counts the old records an active upload holds. -/
def countSkippedActive (activeChunks : List Hash) (olderThan : Time)
    (scan : GarbageCollectionScan) : GarbageCollectionScan :=
  let skipped := (Dict.toList scan.chunkRecords).countP fun (h, r) =>
    !scan.referencedChunks.contains h && activeChunks.contains h && oldEnough r.createdAt olderThan
  { scan with report :=
      { scan.report with skippedActiveChunks := scan.report.skippedActiveChunks + skipped } }

/-- `scanGarbageCollection` up to the walk: the read transaction and the count after it. -/
def scanMetadata (d : Disk) (olderThan : Time) (activeChunks : List Hash) :
    Except ScanError GarbageCollectionScan :=
  match scanManifests (Dict.toList d.manifests) .empty with
  | .error e => .error { e with err := .wrap "scan gc metadata" e.err }
  | .ok scan =>
    match scanChunkRecords (Dict.toList d.chunks) scan with
    | .error e => .error { e with err := .wrap "scan gc metadata" e.err }
    | .ok scan => .ok (countSkippedActive activeChunks olderThan scan)

/-- Whether the walk may take a chunk's file for an orphan: no active manifest lists the chunk, it
has no metadata, no active upload holds it and no manifest that lists it is in its grace period. -/
def orphanHash (scan : GarbageCollectionScan) (activeChunks : List Hash) (olderThan : Time)
    (h : Hash) : Bool :=
  !scan.referencedChunks.contains h && (scan.chunkRecords.lookup h).isNone &&
    !activeChunks.contains h && !((scan.retiredChunkAt.lookup h).any fun t => olderThan ≤ t)

/-- The walk's visit of the file of `h`. -/
def visitFile (activeChunks : List Hash) (olderThan : Time) (scan : GarbageCollectionScan)
    (h : Hash) (f : ChunkFile) : GarbageCollectionScan :=
  let report := { scan.report with scannedPhysicalFiles := scan.report.scannedPhysicalFiles + 1 }
  let scan := { scan with report }
  if scan.referencedChunks.contains h then scan
  else if (scan.chunkRecords.lookup h).isSome then scan
  else if activeChunks.contains h then
    { scan with report := { report with skippedActiveChunks := report.skippedActiveChunks + 1 } }
  else if (scan.retiredChunkAt.lookup h).any fun t => olderThan ≤ t then scan
  else if f.modTime < olderThan then
    { scan with physicalOrphans := scan.physicalOrphans ++ [h] }
  else scan

/-! ## The deletions -/

/-- What the loop over the chunk records does with one of them. -/
inductive SweepDecision
  | keep
  | skipActive
  | candidate (retired : Bool)
deriving DecidableEq, Repr

def sweepDecision (scan : GarbageCollectionScan) (activeChunks : List Hash) (olderThan : Time)
    (h : Hash) (r : ChunkRecord) : SweepDecision :=
  if scan.referencedChunks.contains h then .keep
  else if activeChunks.contains h then
    if oldEnough r.createdAt olderThan then .skipActive else .keep
  else
    match scan.retiredChunkAt.lookup h with
    | some retiredAt => if retiredAt < olderThan then .candidate true else .keep
    | none =>
      if r.manifestRefCount ≠ 0 then .keep
      else if oldEnough r.createdAt olderThan then .candidate false else .keep

def removeChunkFile (d : Disk) (h : Hash) : Disk := { d with files := d.files.erase h }

/-- `deleteChunkMetadata`: whether the record is gone, and the database. -/
def deleteChunkMetadata (d : Disk) (h : Hash) (olderThan : Time) (retired : Bool) :
    Except Error (Bool × Disk) :=
  match d.chunks.lookup h with
  | none => .ok (true, d)
  | some r =>
    if r.chunkHash ≠ h then .error (.other "chunk metadata key tidak konsisten")
    else if !retired && (r.manifestRefCount ≠ 0 || !oldEnough r.createdAt olderThan) then
      .ok (false, d)
    else .ok (true, { d with chunks := d.chunks.erase h })

/-- `deleteChunkMetadata` finds a record that it removes. -/
def Disk.drops (d : Disk) (h : Hash) (olderThan : Time) (retired : Bool) : Bool :=
  (d.chunks.lookup h).any fun r =>
    r.chunkHash == h && (retired || (r.manifestRefCount == 0 && oldEnough r.createdAt olderThan))

end HashBox.Vault
