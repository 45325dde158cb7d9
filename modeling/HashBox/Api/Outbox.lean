import HashBox.Lib.Threads
import HashBox.Api.Calls
import HashBox.Vault.Store

/-!
# Two stores without a common transaction (`internal/service/manifest_retirement_worker.go`)

The API's database and Vault, a retirement worker, any number of uploads in flight and the other API
calls, interleaved at every call that the worker or an upload makes of a store. `worker` and
`upload` make the next call of the worker and of an upload; `Outcome` says whether the caller gets
an answer. Transactions of the database are atomic; one that fails changes nothing. A call of Vault
that fails may have been carried out.
-/

namespace HashBox.Api

open Vault (Disk ManifestRecord)

/-! ## Vault, as its client sees it -/

/-- The manifest is stored and retired. -/
def retired (d : Disk) (manifestID : Hash) : Bool :=
  (d.manifests.lookup manifestID).any (·.retired)

inductive Outcome
  | ok
  | failed (carriedOut : Bool)
deriving DecidableEq, Repr

/-- A call of Vault: what it leaves, and whether the client gets a success. -/
def vaultCall (f : Disk → Except Vault.Error Disk) (o : Outcome) (d : Disk) : Disk × Bool :=
  match f d with
  | .error _ => (d, false)
  | .ok d' =>
    match o with
    | .ok => (d', true)
    | .failed carriedOut => (if carriedOut then d' else d, false)

/-- A statement of the database. -/
def dbCall (o : Outcome) (db db' : Db) : Db :=
  match o with
  | .ok => db'
  | .failed _ => db

/-! ## The worker -/

/-- The calls of `processManifestRetirement`, by the point of the function they are made at. -/
inductive WorkerPoint
  | firstCheck
  | retire
  | secondCheck
  /-- After either check. -/
  | retain
  | complete
  | fail (message : String)
deriving DecidableEq, Repr

inductive Worker
  | idle
  /-- The manifest in process, and those claimed with it that come after. -/
  | processing (manifestID : Hash) (point : WorkerPoint) (rest : List Hash)
deriving DecidableEq, Repr

/-- The loop of `process` over the claimed manifests. -/
def Worker.next : List Hash → Worker
  | [] => .idle
  | manifestID :: rest => .processing manifestID .firstCheck rest

def manifestRetirementBatchSize : Int := 16

/-- The next call of `processManifestRetirement`. -/
def processStep (db : Db) (vault : Disk) (manifestID : Hash) (rest : List Hash) (o : Outcome)
    (now : Time) : WorkerPoint → Db × Disk × Worker
  | .firstCheck =>
    match o with
    | .failed _ => (db, vault, .processing manifestID (.fail "check manifest references") rest)
    | .ok =>
      (db, vault, .processing manifestID
        (if hasManifestReferences db.toMetadata manifestID then .retain else .retire) rest)
  | .retire =>
    match vaultCall (fun d => Vault.retireManifest d manifestID now) o vault with
    | (vault, true) => (db, vault, .processing manifestID .secondCheck rest)
    | (vault, false) => (db, vault, .processing manifestID (.fail "retire manifest") rest)
  | .secondCheck =>
    match o with
    | .failed _ => (db, vault, .processing manifestID (.fail "check manifest references") rest)
    | .ok =>
      (db, vault, .processing manifestID
        (if hasManifestReferences db.toMetadata manifestID then .retain else .complete) rest)
  | .retain =>
    match vaultCall (fun d => Vault.retainManifest d manifestID now) o vault with
    | (vault, true) => (db, vault, .processing manifestID .complete rest)
    | (vault, false) => (db, vault, .processing manifestID (.fail "retain manifest") rest)
  | .complete =>
    (dbCall o db (markManifestRetirementCompleted db manifestID now), vault, .next rest)
  | .fail message =>
    (dbCall o db (markManifestRetirementFailed db manifestID message now), vault, .next rest)

/-! ## Uploads -/

/-- The calls of `FileService.Upload` from the Vault call on. -/
inductive UploadPoint
  | vaultUpload
  | markCommitted (result : UploadCommitResult)
  | requeue (manifestID : Hash)
  | retain (manifestID : Hash)
  | markFailed
deriving DecidableEq, Repr

structure Upload where
  userID : Uuid
  fileID : Uuid
  point : UploadPoint
deriving DecidableEq, Repr

/-- What the stream gave when Vault commits it: the content's digest, and the variables of
`ProcessUpload`'s loop. -/
structure Sent where
  fileHash : Hash
  loop : Vault.UploadLoop

/-- The next call of an upload; `none` when it returns after it. -/
def uploadStep (db : Db) (vault : Disk) (u : Upload) (sent : Sent) (o : Outcome) (now : Time) :
    Db × Disk × Option Upload :=
  match u.point with
  | .vaultUpload =>
    let manifest :=
      Vault.newManifest sent.fileHash sent.loop.chunkHashes sent.loop.totalSize now
    match vaultCall (fun d => Vault.commitManifestAndChunkRefs d manifest) o vault with
    | (vault, true) =>
      (db, vault, some { u with point := .markCommitted (sent.loop.result manifest) })
    | (vault, false) => (db, vault, some { u with point := .markFailed })
  | .markCommitted result =>
    match o, markCommitted db u.fileID u.userID result now with
    | .ok, .ok (db, _) => (db, vault, some { u with point := .requeue result.manifestID })
    | _, _ => (db, vault, some { u with point := .markFailed })
  | .requeue manifestID =>
    (dbCall o db (requeueManifestRetirement db manifestID now), vault,
      some { u with point := .retain manifestID })
  | .retain manifestID =>
    (db, (vaultCall (fun d => Vault.retainManifest d manifestID now) o vault).1, none)
  | .markFailed => (dbCall o db (markFailed db u.fileID u.userID), vault, none)

/-! ## The system -/

structure Outbox where
  db : Db
  vault : Disk
  worker : Worker
  uploads : Dict Nat Upload

inductive Action
  /-- `ClaimPendingManifestRetirements`, when the worker's ticker fires. -/
  | claim (locked : List Hash)
  | worker (o : Outcome)
  | startUpload (t : Nat) (userID : Uuid) (directoryID : Option Uuid) (fileName mimeType : String)
      (newID : Uuid)
  | upload (t : Nat) (sent : Sent) (o : Outcome)
  /-- Any other call of the API, or its reaper. -/
  | event (e : Event)
  /-- Whatever else Vault does to its chunks and sessions. -/
  | vaultData (d : Disk)

/-- The second half of an upload only comes as `upload` steps. -/
def Event.finishesUpload : Event → Bool
  | .call _ (.uploadFinish _ _) => true
  | _ => false

namespace Outbox

def empty : Outbox := ⟨.empty, .empty, .idle, ∅⟩

section
variable (lower : String → String)

def step (s : Outbox) : Action × Time → Option Outbox
  | (.claim locked, now) =>
    match s.worker with
    | .processing _ _ _ => none
    | .idle =>
      let (claimed, db) :=
        claimPendingManifestRetirements s.db manifestRetirementBatchSize locked now
      some { s with db, worker := .next claimed }
  | (.worker o, now) =>
    match s.worker with
    | .idle => none
    | .processing manifestID point rest =>
      let (db, vault, worker) := processStep s.db s.vault manifestID rest o now point
      some { s with db, vault, worker }
  | (.startUpload t userID directoryID fileName mimeType newID, now) =>
    if (s.uploads.lookup t).isSome then none
    else
      match uploadStart lower s.db userID directoryID fileName mimeType newID now with
      | .error _ => none
      | .ok (db, f) =>
        some { s with
          db
          uploads := s.uploads.insert t ⟨userID, f.idBerkas, .vaultUpload⟩ }
  | (.upload t sent o, now) =>
    match s.uploads.lookup t with
    | none => none
    | some u =>
      let (db, vault, u) := uploadStep s.db s.vault u sent o now
      some { s with db, vault, uploads := s.uploads.put t u }
  | (.event e, now) =>
    if e.finishesUpload then none
    else (Api.step lower s.db (e, now)).map fun db => { s with db }
  | (.vaultData d, _) => some { s with vault := { d with manifests := s.vault.manifests } }

end

/-- The worker waits for its ticker and no upload is in flight. -/
def Quiet (s : Outbox) : Prop := s.worker = .idle ∧ s.uploads = ∅

instance (s : Outbox) : Decidable s.Quiet :=
  decidable_of_iff (s.worker = .idle ∧ s.uploads.entries = [])
    (and_congr_right fun _ => Dict.entries_eq_nil)

end Outbox

end HashBox.Api
