import HashBox.Lib.Files
import HashBox.Vault.Names
import HashBox.Vault.System

/-!
# One Store on a file system (`internal/cas/store.go`, `internal/cas/garbage_collector.go`)

In `System.lean` a chunk file is written or removed in one step. Here every system call is a step of
its own: `writeChunkIfMissing` looks for the target, writes a temporary file beside it, syncs it and
links it to its final name; the sweep walks the directory and unlinks what it found. The machine may
crash after any step, with whatever loss `Files.crash` allows.

What the calls do to the database, the lock and the registry is taken from `System.lean`: the steps
that touch no file are the steps there, on the database alone.

Directories are not part of the model: none is ever removed, and a call that fails for lack of one
is a call that fails.
-/

namespace HashBox.Vault

/-- The tree below the chunk root. -/
abbrev ChunkRoot := Files Path UInt8

def fileName (p : Path) : String := p.getLastD ""

/-- The name `os.CreateTemp` makes of the pattern `.chunk-*.tmp` and the number it has drawn. -/
def tempName (n : Nat) : String := ".chunk-" ++ (toString n ++ ".tmp")

/-- A Store's part of the Badger database. -/
structure Database where
  manifests : Dict Hash ManifestRecord
  chunks : Dict Hash ChunkRecord
  uploads : Dict SessionID UploadSessionRecord

/-- The database as a disk without files, for the steps that touch none. -/
def Database.disk (db : Database) : Disk := ⟨db.manifests, db.chunks, db.uploads, ∅⟩

def Disk.database (d : Disk) : Database := ⟨d.manifests, d.chunks, d.uploads⟩

/-- What the environment decides about a step. -/
inductive FileChoice
  | call (k : Choice)
  /-- The number `os.CreateTemp` draws. -/
  | temp (n : Nat) (now : Time)
  /-- How many bytes a `write` takes. -/
  | wrote (n : Nat) (now : Time)
  /-- The file the directory walk comes to next, and the hash its name spells. -/
  | visit (p : Path) (h : Hash)

/-! ## writeChunkIfMissing -/

/-- The temporary file: its name and its inode. -/
structure TempFile where
  path : Path
  inode : Nat
deriving DecidableEq, Repr

/-- Where a `writeChunkIfMissing` stands. -/
inductive WriterPc
  | stat
  | mkdirAll
  | createTemp
  | write (tmp : TempFile) (todo : Bytes)
  | sync (tmp : TempFile)
  | chmod (tmp : TempFile)
  | close (tmp : TempFile)
  /-- `tmpFile.Close` before the return of an error. -/
  | abandon (tmp : TempFile) (err : Error)
  | link (tmp : TempFile)
  /-- The `stat` after a failed `link`. -/
  | statLinked (tmp : TempFile) (err : Error)
  /-- The deferred `os.Remove`. -/
  | remove (tmp : TempFile) (result : Except Error Unit)
  | done (result : Except Error Unit)

/-- `writeChunkIfMissing` on `targetPath`, one system call at a time. -/
def writerStep (root : ChunkRoot) (targetPath : Path) (content : Bytes) :
    WriterPc → FileChoice → Option (ChunkRoot × WriterPc)
  | .stat, .call (.go _) =>
    some (root, if (root.lookup targetPath).isSome then .done (.ok ()) else .mkdirAll)
  | .stat, .call (.fail err) => some (root, .done (.error (.wrap "stat target chunk" err)))
  | .mkdirAll, .call (.go _) => some (root, .createTemp)
  | .mkdirAll, .call (.fail err) => some (root, .done (.error (.wrap "ensure chunk parent" err)))
  | .createTemp, .temp n now =>
    let path := targetPath.dropLast ++ [tempName n]
    (root.openExcl path now).map fun r => (r.1, .write ⟨path, r.2⟩ content)
  | .createTemp, .call (.fail err) =>
    some (root, .done (.error (.wrap "create temp chunk file" err)))
  -- `Write` goes on until everything is written
  | .write tmp todo, .wrote n now =>
    some (root.append tmp.inode (todo.take n) now, .write tmp (todo.drop n))
  | .write tmp [], .call (.go _) => some (root, .sync tmp)
  | .write tmp _, .call (.fail err) => some (root, .abandon tmp (.wrap "write temp chunk" err))
  | .sync tmp, .call (.go _) => some (root.fsync tmp.inode, .chmod tmp)
  | .sync tmp, .call (.fail err) => some (root, .abandon tmp (.wrap "sync temp chunk" err))
  | .chmod tmp, .call (.go _) => some (root, .close tmp)
  | .chmod tmp, .call (.fail err) => some (root, .abandon tmp (.wrap "chmod temp chunk" err))
  | .close tmp, .call (.go _) => some (root, .link tmp)
  | .close tmp, .call (.fail err) =>
    some (root, .remove tmp (.error (.wrap "close temp chunk" err)))
  | .abandon tmp err, .call (.go _) => some (root, .remove tmp (.error err))
  | .abandon tmp err, .call (.fail _) => some (root, .remove tmp (.error err))
  | .link tmp, .call (.go _) =>
    match root.link tmp.path targetPath with
    | .ok root => some (root, .remove tmp (.ok ()))
    | .error .exist => some (root, .remove tmp (.ok ()))
    | .error .notExist => some (root, .statLinked tmp (.other "no such file or directory"))
  | .link tmp, .call (.fail err) => some (root, .statLinked tmp err)
  | .statLinked tmp err, .call (.go _) =>
    some (root, .remove tmp (if (root.lookup targetPath).isSome then .ok ()
      else .error (.wrap "link temp chunk" err)))
  | .statLinked tmp err, .call (.fail _) =>
    some (root, .remove tmp (.error (.wrap "link temp chunk" err)))
  | .remove tmp result, .call (.go _) => some (root.remove tmp.path, .done result)
  | .remove _ result, .call (.fail _) => some (root, .done result)
  | _, _ => none

/-! ## The calls -/

inductive FileThread
  | upload (u : Upload)
  /-- The upload, whose `pc` is `persist c found`, is in `writeChunkIfMissing`. -/
  | writing (u : Upload) (c : Bytes) (found : Bool) (w : WriterPc)
  | lifecycle (l : Lifecycle)
  /-- The paths the walk has visited, and the orphans among them yet to be removed. -/
  | sweep (w : Sweep) (visited orphans : List Path)

/-- An upload that comes to `persist` calls `writeChunkIfMissing`. -/
def FileThread.ofUpload (u : Upload) : FileThread :=
  match u.pc with
  | .persist c found => .writing u c found .stat
  | _ => .upload u

/-- `touchChunk` when `writeChunkIfMissing` has returned. -/
def writerReturned (s : Mem) (t : SessionID) (u : Upload) (c : Bytes) (found : Bool) :
    Except Error Unit → Mem × FileThread
  | .ok () => (s, .upload { u with pc := if found then .mark c false else .putRecord c })
  | .error err =>
    let context := if found then "re-persist chunk file after gc race" else "persist chunk file"
    ({ s with lifecycleMu := s.lifecycleMu.runlock t }, .upload (u.failChunk (.wrap context err)))

/-- The path whose `os.Remove` is the sweep's next step. -/
def Sweep.removesPath (w : Sweep) (orphans : List Path) : Option Path :=
  match w.pc with
  | .removeFile _ _ _ h _ => some (chunkPath h)
  | .orphans _ => orphans.head?
  | _ => none

/-- The tree after a step of the sweep. -/
def Sweep.rootAfter (w : Sweep) (k : Choice) (root : ChunkRoot) (orphans : List Path) : ChunkRoot :=
  match k, w.removesPath orphans with
  | .go _, some p => root.remove p
  | _, _ => root

/-- A step of the loop over the orphans is done with the first one. -/
def Sweep.orphansLeft {α : Type} (w : Sweep) (orphans : List α) : List α :=
  match w.pc with
  | .orphans _ => orphans.tail
  | _ => orphans

section
variable (blake3 : Bytes → Hash)

def fileUploadStep (root : ChunkRoot) (db : Database) (s : Mem) (t : SessionID) (u : Upload) :
    FileChoice → Option (ChunkRoot × Database × Mem × FileThread)
  | .call k =>
    match u.pc, k with
    -- the `stat` of `touchChunk`: any error leads to the writer
    | .stat c, .go _ =>
      if (root.lookup (chunkPath (blake3 c))).isSome then
        some (root, db, s, .upload { u with pc := .mark c false })
      else some (root, db, s, .ofUpload { u with pc := .persist c true })
    | .stat c, .fail _ => some (root, db, s, .ofUpload { u with pc := .persist c true })
    | .persist .., _ => none
    | _, k =>
      (uploadStep blake3 db.disk s t u k).map fun r =>
        (root, r.1.database, r.2.1, .ofUpload r.2.2)
  | _ => none

def fileWriterStep (root : ChunkRoot) (db : Database) (s : Mem) (t : SessionID) (u : Upload)
    (c : Bytes) (found : Bool) (w : WriterPc) (k : FileChoice) :
    Option (ChunkRoot × Database × Mem × FileThread) :=
  (writerStep root (chunkPath (blake3 c)) c w k).map fun r =>
    match r.2 with
    | .done result => (r.1, db, writerReturned s t u c found result)
    | w => (r.1, db, s, .writing u c found w)

end

def fileSweepStep (root : ChunkRoot) (db : Database) (s : Mem) (t : SessionID) (w : Sweep)
    (visited orphans : List Path) :
    FileChoice → Option (ChunkRoot × Database × Mem × FileThread)
  | .visit p h =>
    match w.pc, (root.lookup p).bind root.inode with
    | .walk active scan seen, some f =>
      if visited.contains p || walkedHash (fileName p) ≠ some (hex h) then none
      else
        let orphan := orphanHash scan active w.olderThan h && decide (f.modTime < w.olderThan)
        let scan := visitFile active w.olderThan scan h ⟨f.content, f.modTime⟩
        some (root, db, s, .sweep { w with pc := .walk active scan (h :: seen) }
          (p :: visited) (if orphan then orphans ++ [p] else orphans))
    | _, _ => none
  | .call k =>
    (sweepStep db.disk s t w k).map fun r =>
      (w.rootAfter k root orphans, r.1.database, r.2.1,
        .sweep r.2.2 visited (w.orphansLeft orphans))
  | _ => none

/-- One step of a thread. -/
def FileThread.step (blake3 : Bytes → Hash) (root : ChunkRoot) (db : Database) (s : Mem)
    (t : SessionID) (k : FileChoice) :
    FileThread → Option (ChunkRoot × Database × Mem × FileThread)
  | .upload u => fileUploadStep blake3 root db s t u k
  | .writing u c found w => fileWriterStep blake3 root db s t u c found w k
  | .lifecycle l =>
    match k with
    | .call k =>
      (lifecycleStep db.disk s t l k).map fun r => (root, r.1.database, r.2.1, .lifecycle r.2.2)
    | _ => none
  | .sweep w visited orphans => fileSweepStep root db s t w visited orphans k

/-! ## The system -/

structure FileStore where
  root : ChunkRoot
  db : Database
  mem : Mem
  threads : SessionID → Option FileThread

/-- An empty chunk root, and no call in flight. -/
def FileStore.idle (db : Database) : FileStore := ⟨.empty, db, .idle, fun _ => none⟩

inductive FileStoreAction
  | processUpload (t : SessionID) (fileName : String) (bytes : Bytes) (now : Time)
  | updateManifestLifecycle (t : SessionID) (manifestID : Hash) (retired : Bool)
  | collectGarbage (t : SessionID) (olderThan : Time)
  | run (t : SessionID) (k : FileChoice)
  /-- The machine stops, and the process starts again: on the database as it was recovered, and the
  files that are left. -/
  | crash (recovered : Database) (kept : List (Path × Nat)) (torn : Nat → Bytes)

def FileStore.spawn (y : FileStore) (t : SessionID) (db : Database) (th : FileThread) :
    Option FileStore :=
  match y.threads t with
  | some _ => none
  | none => some { y with db, threads := Function.update y.threads t (some th) }

def FileStore.step (cfg : FastCdc.Config) (blake3 : Bytes → Hash) (y : FileStore) :
    FileStoreAction → Option FileStore
  | .processUpload t fileName bytes now =>
    let session := newUploadSession t fileName now
    y.spawn t (putUploadSession y.db.disk session).database
      (.upload (.start cfg session bytes))
  | .updateManifestLifecycle t manifestID retired =>
    y.spawn t y.db (.lifecycle ⟨manifestID, retired, .lock⟩)
  | .collectGarbage t olderThan => y.spawn t y.db (.sweep (.start olderThan) [] [])
  | .run t k =>
    match y.threads t with
    | none => none
    | some th =>
      (th.step blake3 y.root y.db y.mem t k).map fun r =>
        { root := r.1
          db := r.2.1
          mem := r.2.2.1
          threads := Function.update y.threads t (some r.2.2.2) }
  | .crash recovered kept torn => some ⟨y.root.crash kept torn, recovered, .idle, fun _ => none⟩

/-- The states that any interleaving of calls, with crashes, reaches from an empty chunk root. -/
def FileStore.Reachable (cfg : FastCdc.Config) (blake3 : Bytes → Hash) (y : FileStore) : Prop :=
  Runs.Reach (FileStore.step cfg blake3) (fun _ _ => True) (fun y => ∃ db, y = .idle db) y

/-! ## A run to evaluate -/

/-- `n` steps of a thread, all at one time. -/
def fileRuns (t : SessionID) (n : Nat) (now : Time) : List FileStoreAction :=
  List.replicate n (.run t (.call (.go now)))

/-- A machine that stops in the middle of a write and keeps the torn temporary file; then two
uploads write one chunk at the same time, and the second to link finds the first one's file. -/
def twoWriters : List FileStoreAction :=
  let content : Bytes := [1, 2]
  let temp := (chunkPath (sampleHash content)).dropLast ++ [tempName 6]
  [.processUpload 3 "c" content 5] ++ fileRuns 3 6 5 ++ [.run 3 (.temp 6 5), .run 3 (.wrote 1 5),
    .crash ⟨∅, ∅, ∅⟩ [(temp, 0)] fun _ => [7, 7, 7],
    .processUpload 1 "a" content 8, .processUpload 2 "b" content 8] ++
  fileRuns 1 6 9 ++ fileRuns 2 6 9 ++ [.run 1 (.temp 7 9), .run 2 (.temp 8 9), .run 2 (.wrote 1 9),
    .run 1 (.wrote 2 9), .run 2 (.wrote 1 9)] ++ fileRuns 2 4 9 ++ fileRuns 1 6 9 ++ fileRuns 2 2 9

end HashBox.Vault
