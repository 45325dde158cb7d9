import HashBox.Lib.Runs
import HashBox.Lib.RwLock
import HashBox.Vault.Gc

/-!
# Concurrent calls on the Vault's stores

Any number of `ProcessUpload`, `RetireManifest`, `RetainManifest` and `CollectGarbage` calls in
flight, one atomic step at a time: a database transaction, a file operation, a change of the
registry, taking the lifecycle lock. A deferred `RUnlock` or `Unlock` runs with the step that
returns. Every step that can fail in the source (a transaction that conflicts, an I/O error, a
cancelled context, an error of the upload's reader) may fail here: the `Choice` says so.

`ι` names the `Store` values. All share one `Disk`; the lock and the registry of active uploads
belong to the `Store` value. A thread is named by a session id: `rand.Read` gives an upload an id
that no other call has.
-/

namespace HashBox.Vault

/-- What one `Store` value holds in memory. -/
structure Mem where
  lifecycleMu : RwLock SessionID
  activeUploads : ActiveUploads

def Mem.idle : Mem := ⟨.free, ∅⟩

/-- What the environment decides about a step. -/
inductive Choice
  | go (now : Time)
  | fail (err : Error)
  /-- The record a map iteration, or the file a directory walk, comes to next. -/
  | pick (h : Hash)

/-! ## ProcessUpload -/

/-- Where a `ProcessUpload` stands; `getChunk` to `mark` are `touchChunk` under the read lock. -/
inductive UploadPc
  | register
  | next
  | touchLock (c : Bytes)
  | getChunk (c : Bytes)
  | stat (c : Bytes)
  | persist (c : Bytes) (found : Bool)
  | putRecord (c : Bytes)
  | mark (c : Bytes) (created : Bool)
  | commitLock (m : ManifestRecord)
  | commit (m : ManifestRecord)
  | finish (m : ManifestRecord)
  | failed (err : Error)
  | unregisterLock (result : Except Error UploadCommitResult)
  | unregister (result : Except Error UploadCommitResult)
  | done (result : Except Error UploadCommitResult)

structure Upload extends UploadLoop where
  session : UploadSessionRecord
  /-- What `chunkCh` and `splitErrCh` still deliver. -/
  rest : List Bytes
  splitErr : Option Error
  pc : UploadPc

/-- The call once `createUploadSession` has stored its record. -/
def Upload.start (cfg : FastCdc.Config) (session : UploadSessionRecord) (bytes : Bytes) : Upload :=
  let (rest, splitErr) := match FastCdc.split cfg bytes with
    | .ok cs => (cs, none)
    | .error e => ([], some (.other e))
  { UploadLoop.init with session, rest, splitErr, pc := .register }

/-- The error return from inside the loop over the chunks. -/
def Upload.failChunk (u : Upload) (err : Error) : Upload :=
  let index := u.chunkHashes.length
  { u with pc := .failed (.wrap s!"process chunk {index}" err) }

section
variable (blake3 : Bytes → Hash)

def uploadStep (d : Disk) (s : Mem) (t : SessionID) (u : Upload) :
    Choice → Option (Disk × Mem × Upload)
  | .pick _ => none
  | .fail err =>
    let released := { s with lifecycleMu := s.lifecycleMu.runlock t }
    match u.pc with
    | .next => some (d, s, { u with pc := .failed (.wrap "split upload stream" err) })
    | .touchLock _ => some (d, s, u.failChunk err)
    | .getChunk _ => some (d, released, u.failChunk err)
    | .persist _ true =>
      some (d, released, u.failChunk (.wrap "re-persist chunk file after gc race" err))
    | .persist _ false => some (d, released, u.failChunk (.wrap "persist chunk file" err))
    | .putRecord _ => some (d, released, u.failChunk (.wrap "commit chunk metadata" err))
    | .commitLock _ => some (d, s, { u with pc := .failed (.wrap "commit manifest" err) })
    | .commit _ =>
      some (d, released,
        { u with pc := .failed (.wrap "commit manifest" (.wrap "store manifest" err)) })
    | .finish _ =>
      let session := { u.session with receivedChunks := u.chunkHashes }
      some (d, s,
        { u with session, pc := .failed (.wrap "mark upload session committed" err) })
    | .failed e =>
      some (d, s,
        { u with pc := .unregisterLock (.error (.also e "update upload session failed" err)) })
    | _ => none
  | .go now =>
    match u.pc with
    | .register =>
      let activeUploads := registerActiveUpload s.activeUploads u.session.sessionID
      some (d, { s with activeUploads }, { u with pc := .next })
    | .next =>
      match u.rest, u.splitErr with
      | c :: rest, _ => some (d, s, { u with rest, written := u.written ++ c, pc := .touchLock c })
      | [], some e => some (d, s, { u with pc := .failed (.wrap "split upload stream" e) })
      | [], none =>
        if u.totalSize = 0 then
          some (d, s, { u with pc := .failed (.detail .invalidUpload
            "berkas kosong tidak dapat dikomit") })
        else
          let m := newManifest (blake3 u.written) u.chunkHashes u.totalSize now
          some (d, s, { u with pc := .commitLock m })
    | .touchLock c =>
      (s.lifecycleMu.rlock t).map fun lifecycleMu =>
        (d, { s with lifecycleMu }, { u with pc := .getChunk c })
    | .getChunk c =>
      match getChunk d (blake3 c) with
      | some _ => some (d, s, { u with pc := .stat c })
      | none => some (d, s, { u with pc := .persist c false })
    | .stat c =>
      if (d.files.lookup (blake3 c)).isSome then some (d, s, { u with pc := .mark c false })
      else some (d, s, { u with pc := .persist c true })
    | .persist c found =>
      let d := writeChunkIfMissing d (blake3 c) c now
      some (d, s, { u with pc := if found then .mark c false else .putRecord c })
    | .putRecord c =>
      let (created, d) := putNewChunk d (blake3 c) c.length now
      some (d, s, { u with pc := .mark c created })
    | .mark c created =>
      let activeUploads := markActiveUploadChunk s.activeUploads u.session.sessionID (blake3 c)
      some (d, { lifecycleMu := s.lifecycleMu.runlock t, activeUploads },
        { u with
          chunkHashes := u.chunkHashes ++ [blake3 c]
          totalSize := u.totalSize + c.length
          newChunkCount := if created then u.newChunkCount + 1 else u.newChunkCount
          reuseChunkCount := if created then u.reuseChunkCount else u.reuseChunkCount + 1
          pc := .next })
    | .commitLock m =>
      (s.lifecycleMu.rlock t).map fun lifecycleMu =>
        (d, { s with lifecycleMu }, { u with pc := .commit m })
    | .commit m =>
      let released := { s with lifecycleMu := s.lifecycleMu.runlock t }
      match commitManifestAndChunkRefs d m with
      | .ok d => some (d, released, { u with pc := .finish m })
      | .error e => some (d, released, { u with pc := .failed (.wrap "commit manifest" e) })
    | .finish m =>
      let session := { u.session with receivedChunks := u.chunkHashes, state := .committed }
      some (putUploadSession d session, s,
        { u with session, pc := .unregisterLock (.ok (u.result m)) })
    | .failed e =>
      let session := { u.session with state := .failed }
      some (putUploadSession d session, s, { u with session, pc := .unregisterLock (.error e) })
    | .unregisterLock r =>
      (s.lifecycleMu.rlock t).map fun lifecycleMu =>
        (d, { s with lifecycleMu }, { u with pc := .unregister r })
    | .unregister r =>
      some (d, { lifecycleMu := s.lifecycleMu.runlock t,
                 activeUploads := unregisterActiveUpload s.activeUploads u.session.sessionID },
        { u with pc := .done r })
    | .done _ => none

end

/-! ## RetireManifest and RetainManifest -/

inductive LifecyclePc
  | lock
  | update
  | done (result : Except Error Unit)

structure Lifecycle where
  manifestID : Hash
  retired : Bool
  pc : LifecyclePc

def lifecycleStep (d : Disk) (s : Mem) (t : SessionID) (l : Lifecycle) :
    Choice → Option (Disk × Mem × Lifecycle)
  | .pick _ => none
  | .fail err =>
    match l.pc with
    | .lock => some (d, s, { l with pc := .done (.error err) })
    | .update =>
      let err := .wrap (if l.retired then "retire manifest" else "retain manifest") err
      some (d, { s with lifecycleMu := s.lifecycleMu.runlock t },
        { l with pc := .done (.error err) })
    | .done _ => none
  | .go now =>
    match l.pc with
    | .lock =>
      (s.lifecycleMu.rlock t).map fun lifecycleMu =>
        (d, { s with lifecycleMu }, { l with pc := .update })
    | .update =>
      let released := { s with lifecycleMu := s.lifecycleMu.runlock t }
      match updateManifestLifecycle d l.manifestID l.retired now with
      | .ok d => some (d, released, { l with pc := .done (.ok ()) })
      | .error e => some (d, released, { l with pc := .done (.error e) })
    | .done _ => none

/-! ## CollectGarbage -/

/-- Where a sweep stands; all but `lock` and `done` is under the write lock. -/
inductive SweepPc
  | lock
  | snapshot
  | scan (activeChunks : List Hash)
  | walk (activeChunks : List Hash) (scan : GarbageCollectionScan) (visited : List Hash)
  | records (activeChunks : List Hash) (scan : GarbageCollectionScan)
      (todo : List (Hash × ChunkRecord))
  | removeFile (activeChunks : List Hash) (scan : GarbageCollectionScan)
      (todo : List (Hash × ChunkRecord)) (h : Hash) (retired : Bool)
  | deleteMetadata (activeChunks : List Hash) (scan : GarbageCollectionScan)
      (todo : List (Hash × ChunkRecord)) (h : Hash) (retired : Bool)
  | orphans (todo : List Hash)
  | done

structure Sweep where
  olderThan : Time
  report : GarbageCollectionReport
  deletionErrors : List Error
  pc : SweepPc

def Sweep.start (olderThan : Time) : Sweep := ⟨olderThan, .zero, [], .lock⟩

/-- The sweep goes on at `pc` after an error of one deletion. -/
def Sweep.deletionError (w : Sweep) (err : Error) (pc : SweepPc) : Sweep :=
  { w with deletionErrors := w.deletionErrors ++ [err], pc }

def sweepStep (d : Disk) (s : Mem) (t : SessionID) (w : Sweep) :
    Choice → Option (Disk × Mem × Sweep)
  -- a cancelled context or a failed scan ends the sweep, a failed deletion does not
  | .fail err =>
    let released := { s with lifecycleMu := s.lifecycleMu.unlock }
    match w.pc with
    | .lock => some (d, s, w.deletionError err .done)
    | .scan _ => some (d, released, w.deletionError err .done)
    | .walk _ scan _ =>
      let w := { w with report := scan.report }
      some (d, released, w.deletionError (.wrap "scan physical chunks" err) .done)
    | .records .. => some (d, released, w.deletionError err .done)
    | .removeFile active scan todo h _ =>
      some (d, s, w.deletionError (.wrapChunk "remove chunk %s file" h err)
        (.records active scan todo))
    | .deleteMetadata active scan todo h _ =>
      some (d, s, w.deletionError (.wrapChunk "remove chunk %s metadata" h err)
        (.records active scan todo))
    | .orphans [] => none
    | .orphans (h :: todo) =>
      some (d, s, w.deletionError (.wrapChunk "remove physical orphan %s" h err)
        (.orphans todo))
    | _ => none
  | .pick h =>
    match w.pc with
    | .walk active scan visited =>
      if visited.contains h then none
      else (d.files.lookup h).map fun f =>
        (d, s, { w with pc := .walk active (visitFile active w.olderThan scan h f) (h :: visited) })
    | .records active scan todo =>
      (todo.lookup h).map fun r =>
        let todo := todo.filter fun e => e.1 ≠ h
        match sweepDecision scan active w.olderThan h r with
        | .keep => (d, s, { w with pc := .records active scan todo })
        | .skipActive =>
          let report :=
            { w.report with skippedActiveChunks := w.report.skippedActiveChunks + 1 }
          (d, s, { w with report, pc := .records active scan todo })
        | .candidate retired =>
          let report := { w.report with candidateChunks := w.report.candidateChunks + 1 }
          (d, s, { w with report, pc := .removeFile active scan todo h retired })
    | _ => none
  | .go _ =>
    match w.pc with
    | .lock =>
      (s.lifecycleMu.lock t).map fun lifecycleMu =>
        (d, { s with lifecycleMu }, { w with pc := .snapshot })
    | .snapshot =>
      some (d, s, { w with pc := .scan (snapshotActiveChunkHashes s.activeUploads) })
    | .scan active =>
      match scanMetadata d w.olderThan active with
      | .ok scan => some (d, s, { w with pc := .walk active scan [] })
      | .error e =>
        let w := { w with report := e.report }
        some (d, { s with lifecycleMu := s.lifecycleMu.unlock }, w.deletionError e.err .done)
    | .walk active scan _ =>
      some (d, s,
        { w with report := scan.report
                 pc := .records active scan (Dict.toList scan.chunkRecords) })
    | .records _ scan [] => some (d, s, { w with pc := .orphans scan.physicalOrphans })
    | .removeFile active scan todo h retired =>
      some (removeChunkFile d h, s, { w with pc := .deleteMetadata active scan todo h retired })
    | .deleteMetadata active scan todo h retired =>
      match deleteChunkMetadata d h w.olderThan retired with
      | .error e =>
        some (d, s, w.deletionError (.wrapChunk "remove chunk %s metadata" h e)
          (.records active scan todo))
      | .ok (deleted, d) =>
        let deletedChunks :=
          if deleted then w.report.deletedChunks + 1 else w.report.deletedChunks
        some (d, s,
          { w with report := { w.report with deletedChunks }, pc := .records active scan todo })
    | .orphans [] =>
      some (d, { s with lifecycleMu := s.lifecycleMu.unlock }, { w with pc := .done })
    | .orphans (h :: todo) =>
      let deletedPhysicalOrphans := w.report.deletedPhysicalOrphans + 1
      some (removeChunkFile d h, s,
        { w with report := { w.report with deletedPhysicalOrphans }, pc := .orphans todo })
    | _ => none

/-! ## The system -/

inductive Thread
  | upload (u : Upload)
  | lifecycle (l : Lifecycle)
  | sweep (w : Sweep)

/-- One step of a thread. -/
def Thread.step (blake3 : Bytes → Hash) (d : Disk) (s : Mem) (t : SessionID) (k : Choice) :
    Thread → Option (Disk × Mem × Thread)
  | .upload u => (uploadStep blake3 d s t u k).map fun r => (r.1, r.2.1, .upload r.2.2)
  | .lifecycle l => (lifecycleStep d s t l k).map fun r => (r.1, r.2.1, .lifecycle r.2.2)
  | .sweep w => (sweepStep d s t w k).map fun r => (r.1, r.2.1, .sweep r.2.2)

structure System (ι : Type) where
  disk : Disk
  mem : ι → Mem
  threads : SessionID → Option (ι × Thread)

/-- No call in flight. -/
def System.idle {ι : Type} (d : Disk) : System ι := ⟨d, fun _ => .idle, fun _ => none⟩

/-- A call arrives at a store, or a thread takes a step. -/
inductive Action (ι : Type)
  | processUpload (t : SessionID) (store : ι) (fileName : String) (bytes : Bytes) (now : Time)
  | updateManifestLifecycle (t : SessionID) (store : ι) (manifestID : Hash) (retired : Bool)
  | collectGarbage (t : SessionID) (store : ι) (olderThan : Time)
  | run (t : SessionID) (k : Choice)

section
variable {ι : Type} [DecidableEq ι]

def System.spawn (y : System ι) (t : SessionID) (store : ι) (d : Disk) (th : Thread) :
    Option (System ι) :=
  match y.threads t with
  | some _ => none
  | none => some { y with disk := d, threads := Function.update y.threads t (some (store, th)) }

def System.step (cfg : FastCdc.Config) (blake3 : Bytes → Hash) (y : System ι) :
    Action ι → Option (System ι)
  | .processUpload t store fileName bytes now =>
    let session := newUploadSession t fileName now
    y.spawn t store (putUploadSession y.disk session) (.upload (.start cfg session bytes))
  | .updateManifestLifecycle t store manifestID retired =>
    y.spawn t store y.disk (.lifecycle ⟨manifestID, retired, .lock⟩)
  | .collectGarbage t store olderThan => y.spawn t store y.disk (.sweep (.start olderThan))
  | .run t k =>
    match y.threads t with
    | none => none
    | some (store, th) =>
      (th.step blake3 y.disk (y.mem store) t k).map fun r =>
        { disk := r.1
          mem := Function.update y.mem store r.2.1
          threads := Function.update y.threads t (some (store, r.2.2)) }

/-- The states that any interleaving of calls reaches from a disk with no call in flight. -/
def System.Reachable (cfg : FastCdc.Config) (blake3 : Bytes → Hash) (d : Disk) (y : System ι) :
    Prop :=
  Runs.Reach (System.step cfg blake3) (fun _ _ => True) (· = .idle d) y

end

/-! ## With the maintenance of the sessions -/

/-- The calls a process makes on its stores, the periodic session cleanup among them. A cleanup
that fails changes nothing. -/
inductive StoreAction (ι : Type)
  | call (a : Action ι)
  | cleanupExpiredUploadSessions (now : Time)

def System.storeStep {ι : Type} [DecidableEq ι] (cfg : FastCdc.Config) (blake3 : Bytes → Hash)
    (y : System ι) : StoreAction ι → Option (System ι)
  | .call a => y.step cfg blake3 a
  | .cleanupExpiredUploadSessions now =>
    some { y with disk := (Vault.cleanupExpiredUploadSessions y.disk now).2 }

/-! ## Parameters to evaluate runs with -/

/-- A hash that tells short byte sequences apart. -/
def sampleHash (bytes : Bytes) : Hash :=
  BitVec.ofNat 256 (bytes.foldl (fun n b => 257 * n + b.toNat + 1) 0)

/-- Chunks of `n` bytes. -/
def sampleConfig (n : Int) : FastCdc.Config := ⟨n, n, n⟩

/-- `n` steps of a thread, all at one time. -/
def runs {ι : Type} (t : SessionID) (n : Nat) (now : Time) : List (Action ι) :=
  List.replicate n (.run t (.go now))

end HashBox.Vault
