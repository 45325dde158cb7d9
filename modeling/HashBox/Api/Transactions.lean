import HashBox.Lib.Dict
import HashBox.Lib.ReadCommitted
import HashBox.Lib.Runs
import HashBox.Api.Directory
import HashBox.Api.File

/-!
# Transactions statement by statement

`PermanentDelete`, `PermanentDeleteSubtree` and `MarkCommitted` as PostgreSQL runs them under READ
COMMITTED. A step is the start of a statement, one row that a statement comes to, one advisory lock,
or the commit; a transaction may be rolled back at any point. What a transaction has written it
alone sees until it commits. Row locks on the closure, the directories and the requests are left
out: the runs without them include those with them. A transaction queues a manifest only under the
manifest's advisory lock, so no two of them write one request at a time.

`hashtextextended` is PostgreSQL's function from texts to the keys of advisory locks.
-/

namespace HashBox.Api

inductive TxnCall
  | permanentDelete (fileID userID : Uuid)
  | permanentDeleteSubtree (directoryID userID : Uuid)
  | markCommitted (fileID userID : Uuid) (result : UploadCommitResult)

/-- Where a transaction is. A `Scan` is a statement under way. -/
inductive TxnPoint
  /-- `PermanentDeleteSubtree` begins with two reads. -/
  | checkOwned
  | querySubtree
  /-- `SELECT … FOR UPDATE`. -/
  | find
  | finding (scan : Scan FileRow Uuid)
  /-- `lockManifestLifecycles`. -/
  | locking (manifestIDs : List Hash)
  /-- `DELETE FROM files`. -/
  | delete
  | deleting (scan : Scan FileRow Uuid)
  /-- `queueManifestRetirements`: its locks, and for each id the check and the insert. -/
  | queueLocking (manifestIDs : List Hash)
  | queueing (manifestIDs : List Hash)
  | inserting (manifestID : Hash) (manifestIDs : List Hash)
  /-- `DELETE FROM directory_closure`, then `DELETE FROM directories`. -/
  | deleteClosure
  | deleteDirectories
  /-- `MarkCommitted`. -/
  | lockLifecycle
  | update
  | updating (scan : Scan FileRow Uuid)
  | commit

structure Txn where
  call : TxnCall
  point : TxnPoint
  now : Time
  subtreeIDs : List Uuid
  /-- What `SELECT … FOR UPDATE` returned; `''` is `none`. -/
  manifestRows : List (Option Hash)
  /-- What `DELETE … RETURNING` returned. -/
  deletedRows : List (Option Hash)
  /-- Written and not committed: the file rows deleted and updated, the requests queued. -/
  deleted : List Uuid
  updated : List Uuid
  queued : List Hash

def TxnCall.first : TxnCall → TxnPoint
  | .permanentDelete _ _ => .find
  | .permanentDeleteSubtree _ _ => .checkOwned
  | .markCommitted _ _ _ => .lockLifecycle

def Txn.start (call : TxnCall) (now : Time) : Txn := ⟨call, call.first, now, [], [], [], [], [], []⟩

/-- The condition of `SELECT … FOR UPDATE`. -/
def TxnCall.finds (m : Metadata) (subtreeIDs : List Uuid) : TxnCall → FileRow → Bool
  | .permanentDelete fileID userID, f => m.selectsFile fileID userID f && f.dihapusPada.isSome
  | .permanentDeleteSubtree _ _, f => f.within subtreeIDs && f.committed
  | .markCommitted _ _ _, _ => false

/-- The condition of `DELETE FROM files`. -/
def TxnCall.deletes (m : Metadata) (subtreeIDs : List Uuid) : TxnCall → FileRow → Bool
  | .permanentDelete fileID userID, f => m.selectsFile fileID userID f && f.dihapusPada.isSome
  | .permanentDeleteSubtree _ _, f => f.within subtreeIDs
  | .markCommitted _ _ _, _ => false

/-- `PermanentDelete` returns `ErrNotFound` when a statement of it reaches no row. -/
def TxnCall.notFound : TxnCall → List (Option Hash) → Bool
  | .permanentDelete _ _, rows => rows.isEmpty
  | _, _ => false

namespace Txn

/-- The file rows that a statement of the transaction sees. -/
def view (x : Txn) (db : Db) : List FileRow :=
  db.files.rows.filter fun f => decide (f.idBerkas ∉ x.deleted)

/-- The argument of `queueManifestRetirements`. -/
def manifestIDs (x : Txn) : List Hash :=
  match x.call with
  | .permanentDelete _ _ => x.deletedRows.filterMap id
  | .permanentDeleteSubtree _ _ => x.manifestRows.filterMap id
  | .markCommitted _ _ _ => []

/-- What the transaction's commit makes of the users' data. -/
def write (x : Txn) (m : Metadata) : Metadata :=
  let files := m.files.deleteWhere fun f => decide (f.idBerkas ∈ x.deleted)
  match x.call with
  | .permanentDelete _ _ => { m with files }
  | .permanentDeleteSubtree _ userID =>
    { m with files }.removeDirectories x.subtreeIDs userID
  | .markCommitted _ _ result =>
    { m with
      files := m.files.updateWhere (fun f => decide (f.idBerkas ∈ x.updated))
        (FileRow.commit result x.now) fun _ => rfl }

/-- What the commit makes of the database. -/
def apply (x : Txn) (db : Db) : Db :=
  x.queued.foldl (fun db manifestID => upsertRetirement db manifestID x.now)
    (db.withMetadata (x.write db.toMetadata))

end Txn

/-! ## Steps -/

/-- What the transactions share. -/
structure Shared where
  db : Db
  rowLocks : Locks Uuid
  advisory : Locks (BitVec 64)

/-- What a transaction's step comes to. -/
inductive Progress
  | goes (s : Shared) (x : Txn)
  | commits
  | rollsBack

section
variable (hashtextextended : Hash → BitVec 64)

/-- `pg_advisory_xact_lock`. -/
def Shared.lockLifecycle (s : Shared) (t : Nat) (manifestID : Hash) : Option Shared :=
  (s.advisory.acquire t (hashtextextended manifestID)).map fun advisory => { s with advisory }

/-- A statement of the transaction comes to a row. -/
def Shared.visit (s : Shared) (t : Nat) (x : Txn) (cond : FileRow → Bool) (id : Uuid) :
    Option (Shared × Option FileRow) :=
  (Scan.visit (·.idBerkas) (x.view s.db) cond s.rowLocks t id).map fun out =>
    ({ s with rowLocks := out.1 }, out.2)

def Shared.scan (s : Shared) (x : Txn) (cond : FileRow → Bool) : Scan FileRow Uuid :=
  .start (·.idBerkas) (x.view s.db) cond

/-- The next step of a transaction; `none` while it waits for a lock. -/
def Txn.next (s : Shared) (t : Nat) (x : Txn) : Option Progress :=
  match x.point with
  | .checkOwned =>
    match x.call with
    | .permanentDeleteSubtree directoryID userID =>
      some (if s.db.ownsDeleted userID directoryID then .goes s { x with point := .querySubtree }
        else .rollsBack)
    | _ => none
  | .querySubtree =>
    match x.call with
    | .permanentDeleteSubtree directoryID _ =>
      let subtreeIDs := s.db.subtree directoryID
      some (if subtreeIDs = [] then .rollsBack
        else .goes s { x with point := .find, subtreeIDs })
    | _ => none
  | .find =>
    some (.goes s { x with
      point := .finding (s.scan x (x.call.finds s.db.toMetadata x.subtreeIDs)) })
  | .finding ⟨_, []⟩ =>
    some (if x.call.notFound x.manifestRows then .rollsBack
      else .goes s { x with point := .locking (sortedManifestIDs (x.manifestRows.filterMap id)) })
  | .finding ⟨cond, fileID :: todo⟩ =>
    (s.visit t x cond fileID).map fun (s, row) =>
      .goes s { x with
        point := .finding ⟨cond, todo⟩
        manifestRows := x.manifestRows ++ (row.map (·.idManifest)).toList }
  | .locking [] => some (.goes s { x with point := .delete })
  | .locking (manifestID :: todo) =>
    (s.lockLifecycle hashtextextended t manifestID).map fun s =>
      .goes s { x with point := .locking todo }
  | .delete =>
    some (.goes s { x with
      point := .deleting (s.scan x (x.call.deletes s.db.toMetadata x.subtreeIDs)) })
  | .deleting ⟨_, []⟩ =>
    some (if x.call.notFound x.deletedRows then .rollsBack
      else .goes s { x with point := .queueLocking (sortedManifestIDs x.manifestIDs) })
  | .deleting ⟨cond, fileID :: todo⟩ =>
    (s.visit t x cond fileID).map fun
      | (s, none) => .goes s { x with point := .deleting ⟨cond, todo⟩ }
      | (s, some f) => .goes s { x with
          point := .deleting ⟨cond, todo⟩
          deletedRows := x.deletedRows ++ [f.idManifest]
          deleted := fileID :: x.deleted }
  | .queueLocking [] =>
    some (.goes s { x with point := .queueing (sortedManifestIDs x.manifestIDs) })
  | .queueLocking (manifestID :: todo) =>
    (s.lockLifecycle hashtextextended t manifestID).map fun s =>
      .goes s { x with point := .queueLocking todo }
  | .queueing [] =>
    match x.call with
    | .permanentDeleteSubtree _ _ => some (.goes s { x with point := .deleteClosure })
    | _ => some (.goes s { x with point := .commit })
  | .queueing (manifestID :: todo) =>
    some (.goes s { x with
      point := if (x.view s.db).any fun f => f.refersTo manifestID then .queueing todo
        else .inserting manifestID todo })
  | .inserting manifestID todo =>
    some (.goes s { x with point := .queueing todo, queued := x.queued ++ [manifestID] })
  | .deleteClosure => some (.goes s { x with point := .deleteDirectories })
  | .deleteDirectories => some (.goes s { x with point := .commit })
  | .lockLifecycle =>
    match x.call with
    | .markCommitted _ _ result =>
      (s.lockLifecycle hashtextextended t result.manifestID).map fun s =>
        .goes s { x with point := .update }
    | _ => none
  | .update =>
    match x.call with
    | .markCommitted fileID userID _ =>
      some (.goes s { x with point := .updating (s.scan x (selectsPending fileID userID)) })
    | _ => none
  | .updating ⟨_, []⟩ => some (.goes s { x with point := .commit })
  | .updating ⟨cond, fileID :: todo⟩ =>
    (s.visit t x cond fileID).map fun (s, row) =>
      .goes s { x with
        point := .updating ⟨cond, todo⟩
        updated := row.toList.map (·.idBerkas) ++ x.updated }
  | .commit => some .commits

end

/-! ## The system -/

/-- `removed` and `queued` are the manifests of the committed rows that the transactions finished so
far have removed, and those that they have queued. -/
structure TxnSystem extends Shared where
  txns : Dict Nat Txn
  removed : List Hash
  queued : List Hash

inductive TxnAction
  | begin (t : Nat) (call : TxnCall) (now : Time)
  | next (t : Nat)
  /-- An error, a deadlock, a lost connection. -/
  | rollback (t : Nat)

namespace TxnSystem

def idle (db : Db) : TxnSystem := ⟨⟨db, .free, .free⟩, ∅, [], []⟩

/-- The transaction ends: its locks are free again. -/
def finish (s : TxnSystem) (t : Nat) (db : Db) : TxnSystem :=
  { s with
    db
    rowLocks := s.rowLocks.release t
    advisory := s.advisory.release t
    txns := s.txns.erase t
    removed := removedManifests s.db.toMetadata db.toMetadata ++ s.removed }

section
variable (hashtextextended : Hash → BitVec 64)

def step (s : TxnSystem) : TxnAction → Option TxnSystem
  | .begin t call now =>
    if (s.txns.lookup t).isSome then none
    else some { s with txns := s.txns.insert t (.start call now) }
  | .next t =>
    match s.txns.lookup t with
    | none => none
    | some x =>
      match x.next hashtextextended s.toShared t with
      | none => none
      | some (.goes s' x') => some { s with toShared := s', txns := s.txns.insert t x' }
      | some .commits =>
        some { s.finish t (x.apply s.db) with queued := x.queued ++ s.queued }
      | some .rollsBack => some (s.finish t s.db)
  | .rollback t => if (s.txns.lookup t).isSome then some (s.finish t s.db) else none

end

end TxnSystem

end HashBox.Api
