import HashBox.Api.Schema

/-!
# The retirement outbox (`internal/repository/manifest_retirement_repository.go`)

The statements on `manifest_retirement_requests`. A manifest id that the database stores is a
digest, so the guards against blank ids have no case here.
-/

namespace HashBox.Api

/-- `HasManifestReferences`, and the check inside `queueManifestRetirements`. -/
def hasManifestReferences (m : Metadata) (manifestID : Hash) : Bool :=
  m.files.rows.any fun f => f.refersTo manifestID

/-- `sortedManifestIDs`; each id once. -/
def sortedManifestIDs (manifestIDs : List Hash) : List Hash :=
  manifestIDs.dedup.insertionSort (· ≤ ·)

/-- `INSERT … VALUES (?, 'pending', …) ON CONFLICT (manifest_id) DO UPDATE`. -/
def upsertRetirement (db : Db) (manifestID : Hash) (now : Time) : Db :=
  let row : RetirementRow := ⟨manifestID, .pending, 0, now, "", none⟩
  { db with
    manifestRetirementRequests := db.manifestRetirementRequests.upsert row
      (fun r => { row with manifestId := r.manifestId }) fun _ => rfl }

/-- The loop of `queueManifestRetirements` over the ids. -/
def queueOrdered (now : Time) : Db → List Hash → Db
  | db, [] => db
  | db, manifestID :: ids =>
    if hasManifestReferences db.toMetadata manifestID then queueOrdered now db ids
    else queueOrdered now (upsertRetirement db manifestID now) ids

def queueManifestRetirements (db : Db) (manifestIDs : List Hash) (now : Time) : Db :=
  queueOrdered now db (sortedManifestIDs manifestIDs)

/-- An `UPDATE manifest_retirement_requests SET … WHERE manifest_id = ? AND …`. -/
def Db.updateRetirement (db : Db) (p : RetirementRow → Bool) (f : RetirementRow → RetirementRow)
    (h : ∀ r, (f r).manifestId = r.manifestId) : Db :=
  { db with manifestRetirementRequests := db.manifestRetirementRequests.updateWhere p f h }

def requeueManifestRetirement (db : Db) (manifestID : Hash) (now : Time) : Db :=
  db.updateRetirement (·.manifestId == manifestID)
    (fun r => ⟨r.manifestId, .pending, r.attempts, now, "", none⟩) fun _ => rfl

/-- `NOW() + INTERVAL '1 minute'`. -/
def inOneMinute (now : Time) : Time := now + 60 * 1000000000

/-- The rows `ClaimPendingManifestRetirements` selects; `LIMIT` as the function adjusts it, and
`locked` are the rows that `SKIP LOCKED` passes over. -/
def claimable (db : Db) (limit : Int) (locked : List Hash) (now : Time) : List Hash :=
  let limit := if limit ≤ 0 then 16 else if limit > 100 then 100 else limit
  let due := db.manifestRetirementRequests.rows.filter fun r =>
    r.status == .pending && decide (r.availableAt ≤ now) && decide (r.manifestId ∉ locked)
  let ordered := due.insertionSort fun r r' =>
    r.availableAt < r'.availableAt ∨ r.availableAt = r'.availableAt ∧ r.manifestId ≤ r'.manifestId
  (ordered.take limit.toNat).map (·.manifestId)

def claimPendingManifestRetirements (db : Db) (limit : Int) (locked : List Hash) (now : Time) :
    List Hash × Db :=
  let claimed := claimable db limit locked now
  (claimed, db.updateRetirement (fun r => decide (r.manifestId ∈ claimed) && r.status == .pending)
    (fun r => { r with attempts := r.attempts + 1, availableAt := inOneMinute now }) fun _ => rfl)

def markManifestRetirementCompleted (db : Db) (manifestID : Hash) (now : Time) : Db :=
  db.updateRetirement (·.manifestId == manifestID)
    (fun r => ⟨r.manifestId, .completed, r.attempts, r.availableAt, "", some now⟩) fun _ => rfl

/-- `MarkManifestRetirementFailed`; `message` is the cause's text as the function cuts it. -/
def markManifestRetirementFailed (db : Db) (manifestID : Hash) (message : String) (now : Time) :
    Db :=
  db.updateRetirement (·.manifestId == manifestID)
    (fun r => ⟨r.manifestId, .pending, r.attempts, inOneMinute now, message, none⟩) fun _ => rfl

/-- The request of the manifest is pending. -/
def Db.retirementPending (db : Db) (manifestID : Hash) : Bool :=
  db.manifestRetirementRequests.rows.any fun r =>
    r.manifestId == manifestID && r.status == .pending

/-- The manifests of the committed rows of `m` that are gone in `m'`. -/
def removedManifests (m m' : Metadata) : List Hash :=
  (m.files.rows.filter fun f =>
    f.committed && decide (f.idBerkas ∉ m'.files.rows.map (·.idBerkas))).filterMap (·.idManifest)

end HashBox.Api
