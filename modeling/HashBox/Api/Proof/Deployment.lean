import HashBox.Api.Deployment
import HashBox.Api.Proof.Content
import HashBox.Api.Proof.LabVault

/-!
# Files come back as they were sent

`Inv` connects the three stores: a row and its stream, a committed row and the manifest of its
stream, a manifest that a row refers to and the chunks in Vault. Every step keeps it that is
`Regular`: hashes are injective on the data, file ids are new, no missed retain is left uncovered,
and a sweep reaches no manifest that something is still under way for. In its states a download
answers every committed file with the bytes that were uploaded (`download_returns_upload`).
-/

namespace HashBox.Api

open Vault (Bytes Disk Stored ManifestRecord)

variable {lower : String → String} {db db' : Db} {now : Time}

/-! ## What a row keeps -/

/-- The row still has its name, and was committed with its object if it is so now. -/
def FileRow.Keeps (f f' : FileRow) : Prop :=
  f'.idBerkas = f.idBerkas ∧ f'.nama = f.nama ∧
    (f'.committed = true → f.committed = true ∧ f'.idManifest = f.idManifest ∧ f'.ukuran = f.ukuran)

def RowsKept (t t' : Table FileRow.idBerkas) : Prop :=
  ∀ f' ∈ t'.rows, ∃ f ∈ t.rows, f.Keeps f'

theorem RowsKept.refl (t : Table FileRow.idBerkas) : RowsKept t t :=
  fun f hf => ⟨f, hf, rfl, rfl, fun hc => ⟨hc, rfl, rfl⟩⟩

theorem RowsKept.updateRows {t t' : Table FileRow.idBerkas} {p : FileRow → Bool}
    {g : FileRow → FileRow} (hrows : t'.rows = Table.updateRows p g t.rows)
    (hg : ∀ r : FileRow, r.Keeps (g r)) : RowsKept t t' := by
  intro f' hf'
  rw [hrows] at hf'
  rcases Table.mem_updateRows.1 hf' with ⟨r, hr, -, rfl⟩ | ⟨hr, -⟩
  · exact ⟨r, hr, hg r⟩
  · exact RowsKept.refl t f' hr

theorem RowsKept.deleteWhere (t : Table FileRow.idBerkas) (p : FileRow → Bool) :
    RowsKept t (t.deleteWhere p) :=
  fun f' hf' => RowsKept.refl t f' (Table.mem_deleteWhere.1 hf').1

theorem markFailed_rows (db : Db) (fileID userID : Uuid) :
    RowsKept db.files (markFailed db fileID userID).files :=
  .updateRows rfl fun _ => ⟨rfl, rfl, fun h => by cases h⟩

theorem RowsKept.moved {t t' : Table FileRow.idBerkas} {p : FileRow → Bool}
    {g : FileRow → FileRow} (hrows : t'.rows = Table.updateRows p g t.rows)
    (hg : ∀ r, (g r).idBerkas = r.idBerkas ∧ (g r).nama = r.nama ∧
      (g r).committed = r.committed ∧ (g r).idManifest = r.idManifest ∧
      (g r).ukuran = r.ukuran) : RowsKept t t' := by
  refine .updateRows hrows fun r => ?_
  obtain ⟨hkey, hnama, hcommitted, hobject⟩ := hg r
  exact ⟨hkey, hnama, fun hc => ⟨hcommitted ▸ hc, hobject⟩⟩

/-- **Neither the reaper nor a call on what is there already touches a file's object.** -/
theorem step_rows {e : Event} (h : step lower db (e, now) = some db')
    (hfin : e.finishesUpload = false)
    (hup : ∀ userID directoryID fileName mimeType newID,
      e ≠ .call userID (.uploadStart directoryID fileName mimeType newID)) :
    RowsKept db.files db'.files := by
  cases e with
  | expireStalePending olderThan =>
    cases h
    exact .updateRows rfl fun _ => ⟨rfl, rfl, fun h => by cases h⟩
  | call userID c =>
    obtain rfl : runCall lower db userID now c = db' := Option.some.inj h
    cases c with
    | createDirectory name parentID newID =>
      simp only [runCall]
      cases hcall : serviceCreateDirectory lower db userID name parentID newID now with
      | error e => exact .refl _
      | ok out =>
        obtain ⟨-, directories, directoryClosure, -, -, -, -, -, -, hout⟩ :=
          serviceCreateDirectory_ok hcall
        rw [Db.after, hout]
        exact .refl _
    | softDeleteDirectory id =>
      simp only [runCall, softDeleteSubtree]
      split
      · exact .refl _
      · split
        · exact .refl _
        · exact .moved rfl fun _ => ⟨rfl, rfl, rfl, rfl, rfl⟩
    | restoreDirectory id =>
      simp only [runCall, restoreSubtree]
      split
      · exact .refl _
      · split
        · exact .refl _
        · split
          · exact .refl _
          · exact .moved rfl fun _ => ⟨rfl, rfl, rfl, rfl, rfl⟩
    | permanentDeleteDirectory id =>
      simp only [runCall]
      split
      · next hok =>
        rw [(permanentDeleteSubtree_ok hok).2]
        exact .deleteWhere _ _
      · exact .refl _
    | starDirectory id starred =>
      simp only [runCall, setDirectoryStarred]
      split <;> exact .refl _
    | uploadStart directoryID fileName mimeType newID => exact absurd rfl (hup _ _ _ _ _)
    | uploadFinish fileID answer => cases hfin
    | softDeleteFile id =>
      simp only [runCall, softDeleteFile]
      split
      · exact .refl _
      · exact .moved rfl fun _ => ⟨rfl, rfl, rfl, rfl, rfl⟩
    | restoreFile id =>
      simp only [runCall, restoreFile]
      split
      · exact .refl _
      · split
        · exact .refl _
        · exact .moved rfl fun _ => ⟨rfl, rfl, rfl, rfl, rfl⟩
    | permanentDeleteFile id =>
      simp only [runCall]
      split
      · next hok =>
        rw [permanentDeleteFile_ok hok]
        exact .deleteWhere _ _
      · exact .refl _
    | starFile id starred =>
      simp only [runCall, setFileStarred]
      split
      · exact .refl _
      · exact .moved rfl fun _ => ⟨rfl, rfl, rfl, rfl, rfl⟩

theorem uploadStep_rows {vault : Disk} {u : Upload} {sent : Sent} {o : Outcome} {f' : FileRow}
    (hf' : f' ∈ (uploadStep db vault u sent o now).1.files.rows) :
    (∃ f ∈ db.files.rows, f.Keeps f') ∨ ∃ result, u.point = .markCommitted result ∧
      ∃ f ∈ db.files.rows, f.idBerkas = u.fileID ∧ f' = f.commit result now := by
  cases hu : u.point with
  | vaultUpload =>
    simp only [uploadStep, hu] at hf'
    split at hf' <;> exact .inl (RowsKept.refl _ f' hf')
  | markCommitted result =>
    simp only [uploadStep, hu] at hf'
    split at hf'
    · next hcommit =>
      unfold markCommitted at hcommit
      split at hcommit
      · cases hcommit
      · cases hcommit
        rcases Table.mem_updateRows.1 hf' with ⟨r, hr, hsel, rfl⟩ | ⟨hr, -⟩
        · exact .inr ⟨result, rfl, r, hr, (selectsPending_iff.1 hsel).1, rfl⟩
        · exact .inl (RowsKept.refl _ f' hr)
    · exact .inl (RowsKept.refl _ f' hf')
  | requeue manifestID =>
    refine .inl (RowsKept.refl _ f' ?_)
    cases o with
    | ok =>
      simp only [uploadStep, hu, dbCall] at hf'
      exact hf'
    | failed _ => simpa only [uploadStep, hu, dbCall] using hf'
  | retain manifestID => exact .inl (RowsKept.refl _ f' (by simpa only [uploadStep, hu] using hf'))
  | markFailed =>
    refine .inl ?_
    cases o with
    | ok =>
      simp only [uploadStep, hu, dbCall] at hf'
      exact markFailed_rows db u.fileID u.userID f' hf'
    | failed _ => exact RowsKept.refl _ f' (by simpa only [uploadStep, hu, dbCall] using hf')

theorem uploadStart_row {userID : Uuid} {directoryID : Option Uuid} {fileName mimeType : String}
    {newID : Uuid} {f : FileRow}
    (h : uploadStart lower db userID directoryID fileName mimeType newID now = .ok (db', f)) :
    f = pendingRow userID directoryID (uploadName fileName) (uploadMimeType mimeType) newID now ∧
      db'.files.rows = db.files.rows ++ [f] := by
  unfold uploadStart at h
  split at h
  · cases h
  · split at h
    · cases h
    · split at h
      · cases h
      · next out hout =>
        cases h
        obtain ⟨files, hins, -, hdb⟩ := createPending_ok hout
        have hrow : f = pendingRow userID directoryID (uploadName fileName)
            (uploadMimeType mimeType) newID now := by
          unfold createPending at hout
          dsimp only at hout
          split at hout
          · cases hout
            rfl
          · split at hout <;> cases hout
        cases hdb
        exact ⟨hrow, hrow ▸ Table.insert_rows hins⟩

/-! ## What a step does to Vault -/

def UploadPoint.manifestID : UploadPoint → Option Hash
  | .vaultUpload => none
  | .markCommitted result => some result.manifestID
  | .requeue manifestID => some manifestID
  | .retain manifestID => some manifestID
  | .markFailed => none

inductive Marks (now : Time) : Vault.Call → Prop
  | retire (id : Hash) : Marks now (.retireManifest id now)
  | retain (id : Hash) : Marks now (.retainManifest id now)

section
variable {blake3 : Bytes → Hash} {vault : Disk} {id : Hash} {rest : List Hash} {o : Outcome}

/-- A call of Vault with its outcome is carried out, or changes nothing. -/
theorem vaultCall_run {f : Disk → Except Vault.Error Disk} (c : Vault.Call)
    (hf : ∀ d, f vault = .ok d → c.run blake3 vault = d) :
    (vaultCall f o vault).1 = vault ∨ (vaultCall f o vault).1 = c.run blake3 vault := by
  rcases vaultCall_cases f o vault with h | h
  · exact .inr (hf _ h).symm
  · exact .inl (by rw [h])

variable (blake3 vault id o now)

theorem retireCall_run :
    (vaultCall (fun d => Vault.retireManifest d id now) o vault).1 = vault ∨ ∃ c, Marks now c ∧
      (vaultCall (fun d => Vault.retireManifest d id now) o vault).1 = c.run blake3 vault :=
  (vaultCall_run (.retireManifest id now) fun d h => by rw [Vault.Call.run, h]).imp_right
    fun h => ⟨_, .retire id, h⟩

theorem retainCall_run :
    (vaultCall (fun d => Vault.retainManifest d id now) o vault).1 = vault ∨ ∃ c, Marks now c ∧
      (vaultCall (fun d => Vault.retainManifest d id now) o vault).1 = c.run blake3 vault :=
  (vaultCall_run (.retainManifest id now) fun d h => by rw [Vault.Call.run, h]).imp_right
    fun h => ⟨_, .retain id, h⟩

/-- **The worker only marks manifests.** -/
theorem processStep_vault (db : Db) (rest : List Hash) (point : WorkerPoint) :
    (processStep db vault id rest o now point).2.1 = vault ∨ ∃ c, Marks now c ∧
      (processStep db vault id rest o now point).2.1 = c.run blake3 vault := by
  cases point with
  | firstCheck | secondCheck => cases o <;> exact .inl rfl
  | retire =>
    have h := retireCall_run now blake3 vault id o
    simp only [processStep]
    split <;> rename_i heq <;> rwa [heq] at h
  | retain =>
    have h := retainCall_run now blake3 vault id o
    simp only [processStep]
    split <;> rename_i heq <;> rwa [heq] at h
  | complete | fail => cases o <;> exact .inl rfl

theorem uploadStep_vault (db : Db) {u : Upload} (hu : u.point ≠ .vaultUpload) (sent : Sent) :
    (uploadStep db vault u sent o now).2.1 = vault ∨ ∃ c, Marks now c ∧
      (uploadStep db vault u sent o now).2.1 = c.run blake3 vault := by
  cases hpoint : u.point with
  | vaultUpload => exact absurd hpoint hu
  | markCommitted result =>
    simp only [uploadStep, hpoint]
    split <;> exact .inl rfl
  | requeue manifestID => exact .inl (by simp only [uploadStep, hpoint])
  | retain manifestID =>
    simp only [uploadStep, hpoint]
    exact retainCall_run now blake3 vault manifestID o
  | markFailed => exact .inl (by simp only [uploadStep, hpoint])

end

theorem Marks.within {chunking : FastCdc.Config} {S : Set Bytes} {c : Vault.Call}
    (h : Marks now c) (hnow : now ≠ 0) : c.within {chunking} S := by
  cases h with
  | retire => exact hnow
  | retain => trivial

theorem Marks.expires {c : Vault.Call} (h : Marks now c) (d : Disk) : c.expires d = ∅ := by
  cases h <;> rfl

/-- An upload goes on with its file and the manifest it has committed. -/
theorem uploadStep_next {vault : Disk} {u u' : Upload} {sent : Sent} {o : Outcome}
    (hu : u.point ≠ .vaultUpload) (h : (uploadStep db vault u sent o now).2.2 = some u') :
    u'.fileID = u.fileID ∧ (∀ result, u'.point ≠ .markCommitted result) ∧
      ∀ id, u'.point.manifestID = some id → u.point.manifestID = some id := by
  cases hpoint : u.point with
  | vaultUpload => exact absurd hpoint hu
  | markCommitted result =>
    simp only [uploadStep, hpoint] at h
    split at h <;> cases h
    · exact ⟨rfl, by simp, fun _ h => h⟩
    · exact ⟨rfl, by simp, by simp [UploadPoint.manifestID]⟩
  | requeue manifestID =>
    simp only [uploadStep, hpoint] at h
    cases h
    exact ⟨rfl, by simp, fun _ h => h⟩
  | retain manifestID =>
    simp only [uploadStep, hpoint] at h
    cases h
  | markFailed =>
    simp only [uploadStep, hpoint] at h
    cases h

namespace Deployment

open Vault.Uds (Config)

section
variable (blake3 : Bytes → Hash) (cfg : FastCdc.Config) (env : Vault.UploadEnv)
  (fileName : String) (content : Bytes) (o : Outcome) (d : Disk)

/-- An upload's call is carried out whole or in part, or not at all. -/
theorem storeStream_cases :
    storeStream blake3 cfg env fileName content o d = (d, none) ∨
      (storeStream blake3 cfg env fileName content o d).1 =
          (Vault.Call.processUpload cfg env fileName content).run blake3 d ∧
        ∀ result, (storeStream blake3 cfg env fileName content o d).2 = some result →
          (Vault.processUpload blake3 env cfg fileName content d).1 = .ok result := by
  cases o with
  | ok =>
    refine .inr ⟨rfl, fun result h => ?_⟩
    exact Runs.toOption_eq_some.1 h
  | failed carriedOut =>
    cases carriedOut with
    | false => exact .inl rfl
    | true => exact .inr ⟨rfl, fun result h => by cases h⟩

end

/-! ## The invariant -/

def Wanted (s : Deployment) (id : Hash) : Prop :=
  hasManifestReferences s.db.toMetadata id = true ∨
    ∃ x ∈ s.uploads.toList, x.2.point.manifestID = some id

def Settled (s : Deployment) (id : Hash) : Prop :=
  s.db.retirementPending id = false ∧ ∀ x ∈ s.uploads.toList, x.2.point.manifestID ≠ some id

section
variable (blake3 : Bytes → Hash) (chunking : FastCdc.Config) (S : Set Bytes)

/-- Steps at a time past Go's zero time; file ids are new, missed retains are covered, streams are
of known data and cut by the one configuration, and a sweep comes to no manifest but settled
ones. -/
def Regular (s : Deployment) : Action × Time → Prop
  | (.outbox a, now) => Outbox.RetainCovered s.toOutbox (a, now) ∧ now ≠ 0
  | (.startUpload _ _ _ _ _ newID _, _) => s.streams.lookup newID = none
  | (.vaultUpload t env _, _) => ∀ u fileName content, s.uploads.lookup t = some u →
      s.streams.lookup u.fileID = some (fileName, content) →
      (Vault.Call.processUpload s.vaultConfig.chunking env fileName content).within {chunking} S
  | (.collectGarbage env grace, _) =>
    ∀ id ∈ (Vault.Call.collectGarbage env grace).expires s.vault, s.Settled id
  | _ => True

/-- A row has the name of its stream, and a committed one its object. -/
def RowOf (streams : Dict Uuid (String × Bytes)) (f : FileRow) : Prop :=
  ∃ content, streams.lookup f.idBerkas = some (f.nama, content) ∧ (f.committed = true →
    f.idManifest = some (blake3 content) ∧ f.ukuran = content.length ∧ content ∈ S)

/-- What an upload is about to commit is the object of its stream. -/
def UploadOf (streams : Dict Uuid (String × Bytes)) (u : Upload) : Prop :=
  ∃ name content, streams.lookup u.fileID = some (name, content) ∧
    ∀ result, u.point = .markCommitted result → result.manifestID = blake3 content ∧
      result.totalSizeBytes = content.length ∧ content ∈ S

structure Inv (s : Deployment) : Prop where
  outbox : s.toOutbox.Inv
  stored : Stored blake3 {chunking} S s.vault
  rows : ∀ f ∈ s.db.files.rows, RowOf blake3 S s.streams f
  uploads : ∀ t u, s.uploads.lookup t = some u → UploadOf blake3 S s.streams u
  wanted : ∀ id, s.Wanted id → s.vault.Backs id

end

section
variable {blake3 : Bytes → Hash} {chunking : FastCdc.Config} {S : Set Bytes} {s s' : Deployment}

theorem Inv.empty (cfg : Config) : Inv blake3 chunking S (.empty cfg) where
  outbox := .empty
  stored := .empty
  rows := fun f hf => by cases hf
  uploads := fun t u h => by cases h
  wanted := fun id h => by
    rcases h with h | ⟨x, hx, -⟩
    · cases h
    · cases hx

theorem RowOf.keeps {streams : Dict Uuid (String × Bytes)} {f f' : FileRow}
    (h : RowOf blake3 S streams f) (hk : f.Keeps f') : RowOf blake3 S streams f' := by
  obtain ⟨content, hstream, hobject⟩ := h
  obtain ⟨hkey, hnama, hkept⟩ := hk
  refine ⟨content, by rw [hkey, hnama, hstream], fun hc => ?_⟩
  obtain ⟨hc, hid, hukuran⟩ := hkept hc
  obtain ⟨hid', hukuran', hS⟩ := hobject hc
  exact ⟨hid.trans hid', hukuran.trans hukuran', hS⟩

theorem retired_of_expires {c : Vault.Call} {d : Disk} {id : Hash} (h : id ∈ c.expires d) :
    retired d id = true := by
  cases c with
  | collectGarbage env olderThan =>
    obtain ⟨m, hm, hr, -⟩ := h
    simp [retired, hm, hr]
  | _ => exact absurd h (Set.notMem_empty id)

/-- **What a sweep takes is not wanted**: a settled manifest that is retired has no reference. -/
theorem Inv.not_expires (hi : Inv blake3 chunking S s) {c : Vault.Call}
    (hsettled : ∀ id ∈ c.expires s.vault, s.Settled id) (id : Hash) (hw : s.Wanted id) :
    id ∉ c.expires s.vault := by
  intro he
  obtain ⟨hpending, huploads⟩ := hsettled id he
  rcases hw with href | ⟨x, hx, hid⟩
  · rcases hi.outbox.covered id href (retired_of_expires he) with ⟨x, hx, -, hp | hp⟩ | hd
    · exact huploads x hx (by rw [hp]; rfl)
    · exact huploads x hx (by rw [hp]; rfl)
    · rw [hd.1] at hpending
      cases hpending
  · exact huploads x hx hid

/-- A step keeps the invariant that leaves Vault as a call on known data does, which reaches no
wanted manifest, and wants what was wanted or is there. -/
theorem Inv.next (hi : Inv blake3 chunking S s) (hout : s'.toOutbox.Inv)
    (hvault : s.vault.SameData s'.vault ∨ ∃ c : Vault.Call, c.within {chunking} S ∧
      (∀ id, s.Wanted id → id ∉ c.expires s.vault) ∧ s'.vault = c.run blake3 s.vault)
    (hrows : ∀ f ∈ s'.db.files.rows, RowOf blake3 S s'.streams f)
    (huploads : ∀ t u, s'.uploads.lookup t = some u → UploadOf blake3 S s'.streams u)
    (hwanted : ∀ id, s'.Wanted id → s.Wanted id ∨ s'.vault.Backs id) :
    Inv blake3 chunking S s' := by
  have hkept : Stored blake3 {chunking} S s'.vault ∧ ∀ id, s.Wanted id → s'.vault.Backs id := by
    rcases hvault with hs | ⟨c, hc, hexp, hrun⟩
    · exact ⟨hi.stored.same hs, fun id hw => (hi.wanted id hw).same hs⟩
    · rw [hrun]
      exact ⟨hi.stored.run hc, fun id hw => (hi.wanted id hw).run blake3 (hexp id hw)⟩
  exact ⟨hout, hkept.1, hrows, huploads, fun id hw => (hwanted id hw).elim (hkept.2 id) fun h => h⟩

theorem UploadOf.streams {streams streams' : Dict Uuid (String × Bytes)} {u : Upload}
    (h : UploadOf blake3 S streams u)
    (hs : ∀ id x, streams.lookup id = some x → streams'.lookup id = some x) :
    UploadOf blake3 S streams' u := by
  obtain ⟨name, content, hstream, hresult⟩ := h
  exact ⟨name, content, hs _ _ hstream, hresult⟩

theorem RowOf.streams {streams streams' : Dict Uuid (String × Bytes)} {f : FileRow}
    (h : RowOf blake3 S streams f)
    (hs : ∀ id x, streams.lookup id = some x → streams'.lookup id = some x) :
    RowOf blake3 S streams' f := by
  obtain ⟨content, hstream, hobject⟩ := h
  exact ⟨content, hs _ _ hstream, hobject⟩

theorem RowOf.commit {streams : Dict Uuid (String × Bytes)} {f : FileRow} {u : Upload}
    {result : UploadCommitResult} (h : RowOf blake3 S streams f)
    (hu : UploadOf blake3 S streams u) (hkey : f.idBerkas = u.fileID)
    (hpoint : u.point = .markCommitted result) (now : Time) :
    RowOf blake3 S streams (f.commit result now) := by
  obtain ⟨content, hstream, -⟩ := h
  obtain ⟨name, content', hstream', hresult⟩ := hu
  rw [← hkey, hstream] at hstream'
  cases hstream'
  obtain ⟨hid, hsize, hS⟩ := hresult result hpoint
  exact ⟨content, hstream, fun _ => ⟨congrArg some hid, hsize, hS⟩⟩

theorem references_of_kept {db db' : Db} {id : Hash} (hk : RowsKept db.files db'.files)
    (h : hasManifestReferences db'.toMetadata id = true) :
    hasManifestReferences db.toMetadata id = true := by
  obtain ⟨f', hf', href⟩ := hasManifestReferences_iff.1 h
  obtain ⟨f, hf, -, -, hkept⟩ := hk f' hf'
  simp only [FileRow.refersTo, Bool.and_eq_true, decide_eq_true_eq] at href
  obtain ⟨hc, hid, -⟩ := hkept href.2
  exact hasManifestReferences_iff.2 ⟨f, hf, by simp [FileRow.refersTo, hc, ← hid, href.1]⟩

theorem Inv.outboxStep (hi : Inv blake3 chunking S s) {a : Api.Action} {now : Time} {y : Outbox}
    (hok : Outbox.RetainCovered s.toOutbox (a, now)) (hnow : now ≠ 0)
    (hrefines : s.refines a = false) (h : Outbox.step lower s.toOutbox (a, now) = some y) :
    Inv blake3 chunking S { s with toOutbox := y } := by
  have hout : y.Inv := hi.outbox.step hok h
  cases a with
  | claim locked =>
    simp only [Outbox.step] at h
    split at h
    · cases h
    · cases h
      exact hi.next hout (.inl (.refl _)) hi.rows hi.uploads fun id hw => .inl hw
  | worker o =>
    simp only [Outbox.step] at h
    split at h
    · cases h
    · next id point rest hw =>
      cases h
      have hmeta := processStep_metadata s.db s.vault id o now rest point
      refine hi.next hout ?_ ?_ hi.uploads fun k hw => .inl ?_
      · rcases processStep_vault now blake3 s.vault id o s.db rest point with hv | ⟨c, hc, hv⟩
        · rw [hv]
          exact .inl (.refl _)
        · exact .inr ⟨c, hc.within hnow, fun k _ => by simp [hc.expires], hv⟩
      · rw [show (processStep s.db s.vault id rest o now point).1.files = s.db.files from
          congrArg Metadata.files hmeta]
        exact hi.rows
      · unfold Wanted at hw ⊢
        rwa [hmeta] at hw
  | startUpload => cases hrefines
  | upload t sent o =>
    simp only [Outbox.step] at h
    split at h
    · cases h
    · next u ht =>
      cases h
      have hpoint : u.point ≠ .vaultUpload := by
        rw [refines, ht] at hrefines
        simpa using hrefines
      have hu := hi.uploads t u ht
      refine hi.next hout ?_ (fun f' hf' => ?_) (fun t' u' hu' => ?_) fun k hw => .inl ?_
      · rcases uploadStep_vault now blake3 s.vault o s.db hpoint sent with hv | ⟨c, hc, hv⟩
        · rw [hv]
          exact .inl (.refl _)
        · exact .inr ⟨c, hc.within hnow, fun k _ => by simp [hc.expires], hv⟩
      · rcases uploadStep_rows hf' with ⟨f, hf, hk⟩ | ⟨result, hp, f, hf, hkey, rfl⟩
        · exact (hi.rows f hf).keeps hk
        · exact (hi.rows f hf).commit hu hkey hp now
      · rw [Dict.lookup_put] at hu'
        split at hu'
        · obtain ⟨hfile, hno, -⟩ := uploadStep_next hpoint hu'
          obtain ⟨name, content, hstream, -⟩ := hu
          exact ⟨name, content, hfile ▸ hstream, fun result hp => absurd hp (hno result)⟩
        · exact hi.uploads t' u' hu'
      · have hself : u.point.manifestID = some k → s.Wanted k := fun hid =>
          .inr ⟨(t, u), Dict.mem_toList.2 ht, hid⟩
        rcases hw with href | ⟨⟨t', u'⟩, hx, hid⟩
        · rcases uploadStep_references href with href | hreq
          · exact .inl href
          · obtain ⟨u', hu', hp⟩ := Option.map_eq_some_iff.1 hreq
            exact hself ((uploadStep_next hpoint hu').2.2 k (by rw [hp]; rfl))
        · rw [Dict.mem_toList, Dict.lookup_put] at hx
          split at hx
          · exact hself ((uploadStep_next hpoint hx).2.2 k hid)
          · exact .inr ⟨(t', u'), Dict.mem_toList.2 hx, hid⟩
  | event e =>
    simp only [Outbox.step] at h
    split at h
    · cases h
    · next hfin =>
      obtain ⟨db', hdb, rfl⟩ := Option.map_eq_some_iff.1 h
      have hkept := step_rows hdb (by simpa using hfin) fun _ _ _ _ _ he => by
        subst he
        cases hrefines
      refine hi.next hout (.inl (.refl _)) (fun f' hf' => ?_) hi.uploads fun k hw => .inl ?_
      · obtain ⟨f, hf, hk⟩ := hkept f' hf'
        exact (hi.rows f hf).keeps hk
      · exact hw.imp_left (references_of_kept hkept)
  | vaultData d => cases hrefines

theorem Inv.startUpload (hi : Inv blake3 chunking S s) {t : Nat} {userID : Uuid}
    {directoryID : Option Uuid} {fileName mimeType : String} {newID : Uuid} {content : Bytes}
    {now : Time} {y : Outbox} (hnew : s.streams.lookup newID = none)
    (h : Outbox.step lower s.toOutbox
      (.startUpload t userID directoryID fileName mimeType newID, now) = some y) :
    Inv blake3 chunking S
      ⟨y, s.vaultConfig, s.streams.insert newID (uploadName fileName, content)⟩ := by
  have hcovered : Outbox.RetainCovered s.toOutbox
      (.startUpload t userID directoryID fileName mimeType newID, now) := trivial
  have hout : y.Inv := hi.outbox.step hcovered h
  simp only [Outbox.step] at h
  split at h
  · cases h
  · split at h
    · cases h
    · next db' f hup =>
      cases h
      have hmono : ∀ id x, s.streams.lookup id = some x →
          (s.streams.insert newID (uploadName fileName, content)).lookup id = some x := by
        intro id x hx
        rw [Dict.lookup_insert_if, if_neg, hx]
        rintro rfl
        cases hnew.symm.trans hx
      have hself : (s.streams.insert newID (uploadName fileName, content)).lookup newID =
          some (uploadName fileName, content) := by
        rw [Dict.lookup_insert_if, if_pos rfl]
      obtain ⟨rfl, hrows⟩ := uploadStart_row hup
      refine hi.next hout (.inl (.refl _)) (fun f' hf' => ?_) (fun t' u hu => ?_)
        fun id hw => .inl ?_
      · have hf' : f' ∈ db'.files.rows := hf'
        rw [hrows, List.mem_append, List.mem_singleton] at hf'
        rcases hf' with hf' | rfl
        · exact (hi.rows f' hf').streams hmono
        · exact ⟨content, hself, fun hc => by cases hc⟩
      · rcases Dict.lookup_insert_cases hu with ⟨-, rfl⟩ | ⟨-, hu⟩
        · exact ⟨_, _, hself, fun result hp => by cases hp⟩
        · exact (hi.uploads t' u hu).streams hmono
      · rcases hw with href | ⟨⟨t', u⟩, hx, hid⟩
        · exact .inl (((uploadStart_ok hup).effect.references href).resolve_right fun hf => hf)
        · rcases Dict.lookup_insert_cases (Dict.mem_toList.1 hx) with ⟨-, rfl⟩ | ⟨-, hx⟩
          · cases hid
          · exact .inr ⟨(t', u), Dict.mem_toList.2 hx, hid⟩

theorem retired_run {c : Vault.Call} {d : Disk} {id : Hash}
    (hc : ∀ now, c ≠ .retireManifest id now) (h : retired (c.run blake3 d) id = true) :
    retired d id = true := by
  have hstep := c.run_manifest blake3 d id
  unfold retired at h ⊢
  generalize (c.run blake3 d).manifests.lookup id = after at h hstep
  generalize d.manifests.lookup id = before at hstep ⊢
  cases hstep with
  | same => exact h
  | created => cases h
  | reactivated => cases h
  | retired hcall => exact absurd hcall (hc _)
  | retained => cases h

/-- What `storeStream` leaves, and the object of the result that it gives. -/
theorem storeStream_spec (hinj : Set.InjOn blake3 S) {cfg : FastCdc.Config}
    {env : Vault.UploadEnv} {fileName : String} {content : Bytes} {o : Outcome} {d d' : Disk}
    {result : Option UploadCommitResult} (hd : Stored blake3 {chunking} S d)
    (hwithin : (Vault.Call.processUpload cfg env fileName content).within {chunking} S)
    (h : storeStream blake3 cfg env fileName content o d = (d', result)) :
    (d' = d ∨ d' = (Vault.Call.processUpload cfg env fileName content).run blake3 d) ∧
      ∀ r, result = some r → r.manifestID = blake3 content ∧
        r.totalSizeBytes = content.length ∧ d'.Backs r.manifestID := by
  rcases storeStream_cases blake3 cfg env fileName content o d with hnone | ⟨hrun, hresult⟩
  · cases h.symm.trans hnone
    exact ⟨.inl rfl, fun r hr => by cases hr⟩
  · rw [h] at hrun hresult
    refine ⟨.inr hrun, fun r hr => ?_⟩
    have hup := hresult r hr
    obtain rfl : cfg = chunking := hwithin.1
    obtain ⟨hholds, hid⟩ := Vault.Disk.Holds.of_upload hinj hd hwithin hup
    obtain ⟨m, hm, -, hb⟩ := hholds.manifest
    obtain ⟨d1, -, hend⟩ := Vault.processUpload_end blake3 env cfg fileName content d
    rw [hup] at hend
    cases hend with | committed _ _ _ hr =>
    obtain rfl : d' = _ := hrun
    exact ⟨hid, (hr r rfl).2.1, m, hid ▸ hm, hb⟩

theorem Inv.vaultUpload (hinj : Set.InjOn blake3 S) (hi : Inv blake3 chunking S s) {t : Nat}
    {u : Upload} {fileName : String} {content : Bytes} {env : Vault.UploadEnv} {o : Outcome}
    (ht : s.uploads.lookup t = some u) (hpoint : u.point = .vaultUpload)
    (hstream : s.streams.lookup u.fileID = some (fileName, content))
    (hwithin : (Vault.Call.processUpload s.vaultConfig.chunking env fileName content).within
      {chunking} S) {d : Disk} {result : Option UploadCommitResult}
    (h : storeStream blake3 s.vaultConfig.chunking env fileName content o s.vault = (d, result))
    {point : UploadPoint} (hnext : point = result.elim .markFailed .markCommitted) :
    Inv blake3 chunking S
      { s with vault := d, uploads := s.uploads.insert t { u with point } } := by
  obtain ⟨hd, hresult⟩ := storeStream_spec hinj hi.stored hwithin h
  have hvault : s.vault.SameData d ∨ ∃ c : Vault.Call, c.within {chunking} S ∧
      (∀ id, s.Wanted id → id ∉ c.expires s.vault) ∧ d = c.run blake3 s.vault := by
    rcases hd with rfl | hd
    · exact .inl (.refl _)
    · exact .inr ⟨_, hwithin, fun _ _ => Set.notMem_empty _, hd⟩
  -- the upload has nothing to retain, before and after
  have hother : ∀ t' u', s.uploads.lookup t' = some u' → u'.point ≠ .vaultUpload →
      (s.uploads.insert t { u with point }).lookup t' = some u' := by
    intro t' u' hu' hne
    rw [Dict.lookup_insert_if, if_neg, hu']
    rintro rfl
    cases ht.symm.trans hu'
    exact hne hpoint
  refine hi.next ?_ hvault hi.rows (fun t' u' hu' => ?_) fun id hw => ?_
  · refine hi.outbox.frame rfl (fun _ h => h) (fun id hr => ?_)
      fun id href _ => .inr (.inr ⟨href, ?_⟩)
    · rcases hd with rfl | rfl
      · exact hr
      · exact retired_run (fun _ h => by cases h) hr
    · rintro ⟨⟨t', u'⟩, hx, hne, hp⟩
      have hx := hother t' u' (Dict.mem_toList.1 hx) fun hv => by
        rcases hp with hp | hp <;> cases hv.symm.trans hp
      exact ⟨(t', u'), Dict.mem_toList.2 hx, hne, hp⟩
  · rcases Dict.lookup_insert_cases hu' with ⟨-, rfl⟩ | ⟨-, hu'⟩
    · refine ⟨fileName, content, hstream, fun r hr => ?_⟩
      cases result with
      | none => cases hnext.symm.trans hr
      | some r' =>
        cases hnext.symm.trans hr
        obtain ⟨hid, hsize, -⟩ := hresult r rfl
        exact ⟨hid, hsize, hwithin.2.1⟩
    · exact hi.uploads t' u' hu'
  · rcases hw with href | ⟨⟨t', u'⟩, hx, hid⟩
    · exact .inl (.inl href)
    · rcases Dict.lookup_insert_cases (Dict.mem_toList.1 hx) with ⟨-, rfl⟩ | ⟨-, hx⟩
      · cases result with
        | none =>
          rw [hnext] at hid
          cases hid
        | some r =>
          rw [hnext] at hid
          cases hid
          exact .inr (hresult r rfl).2.2
      · exact .inl (.inr ⟨(t', u'), Dict.mem_toList.2 hx, hid⟩)

/-- **Every regular step keeps the invariant.** -/
theorem Inv.step (hinj : Set.InjOn blake3 S) (hi : Inv blake3 chunking S s) {a : Action × Time}
    (hok : Regular chunking S s a) (h : Deployment.step lower blake3 s a = some s') :
    Inv blake3 chunking S s' := by
  obtain ⟨a, now⟩ := a
  cases a with
  | outbox a =>
    simp only [Deployment.step] at h
    split at h
    · cases h
    · next hrefines =>
      obtain ⟨y, hy, rfl⟩ := Option.map_eq_some_iff.1 h
      exact hi.outboxStep hok.1 hok.2 (by simpa using hrefines) hy
  | startUpload t userID directoryID fileName mimeType newID content =>
    obtain ⟨y, hy, rfl⟩ := Option.map_eq_some_iff.1 h
    exact hi.startUpload hok hy
  | vaultUpload t env o =>
    simp only [Deployment.step] at h
    split at h
    · cases h
    · next u ht =>
      split at h
      · cases h
      · next fileName content hstream =>
        split at h
        · cases h
        · next hpoint =>
          obtain ⟨⟨d, result⟩, hstore⟩ : ∃ out, storeStream blake3 s.vaultConfig.chunking env
              fileName content o s.vault = out := ⟨_, rfl⟩
          rw [hstore] at h
          cases h
          refine hi.vaultUpload hinj ht (by simpa using hpoint) hstream (hok _ _ _ ht hstream)
            hstore ?_
          cases result <;> rfl
  | collectGarbage env grace =>
    cases h
    have hout : Outbox.Inv { s.toOutbox with
        vault := (Vault.collectGarbage env grace ∅ s.vault).2.2 } := by
      have hman := (Vault.collectGarbage_effect env grace ∅ s.vault).manifests
      refine hi.outbox.frame rfl (fun _ h => h) (fun id hr => ?_)
        fun id href _ => .inr (.inr ⟨href, fun h => h⟩)
      rwa [retired, hman] at hr
    exact hi.next hout (.inr ⟨.collectGarbage env grace, trivial, hi.not_expires hok, rfl⟩) hi.rows
      hi.uploads fun id hw => .inl hw
  | cleanupExpiredUploadSessions =>
    cases h
    have hs := Vault.cleanupExpiredUploadSessions_same s.vault now
    refine hi.next ?_ (.inl hs) hi.rows hi.uploads fun id hw => .inl hw
    refine hi.outbox.frame rfl (fun _ h => h) (fun id hr => ?_)
      fun id href _ => .inr (.inr ⟨href, fun h => h⟩)
    rwa [retired, hs.manifests] at hr
  | restart cfg =>
    cases h
    exact hi.next hi.outbox (.inl (.refl _)) hi.rows hi.uploads fun id hw => .inl hw

end

/-! ## Downloads -/

theorem findByIDForUser_row {f : FileRow} (hf : f ∈ db.files.rows) (hc : f.committed = true) :
    findByIDForUser db f.idBerkas f.idPengguna true = .ok f := by
  unfold findByIDForUser
  dsimp only
  split
  · next hnone => exact absurd (List.find?_eq_none.1 hnone f hf) (by simp [hc])
  · next g hg =>
    have hsel := List.find?_some hg
    simp only [Bool.and_eq_true, beq_iff_eq] at hsel
    rw [Table.eq_of_key (List.mem_of_find?_eq_some hg) hf hsel.1.1.1]

theorem findByIDForUser_none {fileID userID : Uuid} (includeDeleted : Bool)
    (hno : ∀ f ∈ db.files.rows, f.idBerkas = fileID → f.idPengguna = userID →
      f.committed = false) :
    findByIDForUser db fileID userID includeDeleted = .error .errNotFound := by
  unfold findByIDForUser
  dsimp only
  split
  · rfl
  · next g hg =>
    have hsel := List.find?_some hg
    simp only [Bool.and_eq_true, beq_iff_eq] at hsel
    have hc := hno g (List.mem_of_find?_eq_some hg) hsel.1.1.1 hsel.1.1.2
    rw [hsel.1.2] at hc
    cases hc

section
variable {blake3 : Bytes → Hash} {chunking : FastCdc.Config} {S : Set Bytes} {s : Deployment}

theorem Inv.openObject (hinj : Set.InjOn blake3 S) (hi : Inv blake3 chunking S s) {content : Bytes}
    (hS : content ∈ S) (hw : s.Wanted (blake3 content)) (strictVerify : Bool)
    (strictVerifyMaxBytes : Int) :
    Vault.openObject blake3 strictVerify strictVerifyMaxBytes s.vault (blake3 content) =
      .ok ⟨content.length, content, none⟩ := by
  obtain ⟨m, hm, hb⟩ := hi.wanted _ hw
  exact Vault.openObject_backed hinj hi.stored hm (hi.stored.describes hinj hS hm)
    (fun h hh => (hb h hh).2) strictVerify strictVerifyMaxBytes

theorem Inv.download (hinj : Set.InjOn blake3 S) (hi : Inv blake3 chunking S s)
    (errorText : VaultClient.ClientError → String) {ctx : VaultClient.Context}
    {server : Vault.Uds.Server} (hdisk : server.disk = s.vault)
    (hadmits : s.vaultConfig.admits ctx.uid = true) (hfault : ctx.fault = none) {f : FileRow}
    {userID fileID : Uuid} {includeDeleted : Bool}
    (hfind : findByIDForUser s.db fileID userID includeDeleted = .ok f)
    (hf : f ∈ s.db.files.rows) (hc : f.committed = true) : ∃ content,
      s.streams.lookup f.idBerkas = some (f.nama, content) ∧ f.ukuran = content.length ∧
      download errorText s.vaultConfig blake3 ctx server s.db userID fileID includeDeleted =
        .ok (f, ⟨content.length, content, none⟩) := by
  obtain ⟨content, hstream, hobject⟩ := hi.rows f hf
  obtain ⟨hid, hukuran, hS⟩ := hobject hc
  have hopen := hi.openObject hinj hS
    (.inl (hasManifestReferences_iff.2 ⟨f, hf, by simp [FileRow.refersTo, hid, hc]⟩))
    s.vaultConfig.strictDownloadVerify s.vaultConfig.strictVerifyMaxBytes
  have hclient := (VaultClient.downloadObject_eq blake3 hadmits
    (Vault.Paths.bytes (Vault.hex (blake3 content))) server).1
  rw [hfault, callStore_hex, hdisk, hopen] at hclient
  have hmanifest : f.manifestID = Vault.hex (blake3 content) := by rw [FileRow.manifestID, hid]; rfl
  refine ⟨content, hstream, hukuran, ?_⟩
  rw [Api.download, hfind]
  dsimp only
  rw [hmanifest, Runs.toOption_eq_some.1 hclient]
  dsimp only
  rw [if_neg fun h => h.2 hukuran.symm]

/-- **Every file comes back as it was sent.** In every state that regular steps reach, a download
of a committed file streams the bytes that were uploaded for it, whether it is in the trash or not
and whatever else has been uploaded, deleted or swept; of any other file it is 404. -/
theorem download_returns_upload (hinj : Set.InjOn blake3 S) {start : Config}
    (hreach : Runs.Reach (Deployment.step lower blake3) (Regular chunking S) (· = .empty start) s)
    (errorText : VaultClient.ClientError → String) (ctx : VaultClient.Context)
    (server : Vault.Uds.Server) (hdisk : server.disk = s.vault)
    (hadmits : s.vaultConfig.admits ctx.uid = true) (hfault : ctx.fault = none)
    (userID fileID : Uuid) :
    (∀ f ∈ s.db.files.rows, f.idBerkas = fileID → f.idPengguna = userID → f.committed = true →
      ∃ content, s.streams.lookup fileID = some (f.nama, content) ∧
        handleDownloadFile errorText s.vaultConfig blake3 ctx server s.db userID fileID =
          .stream f.mimeType content.length f.dihapusPada.isSome
            ⟨content.length, content, none⟩) ∧
    ((∀ f ∈ s.db.files.rows, f.idBerkas = fileID → f.idPengguna = userID → f.committed = false) →
      handleDownloadFile errorText s.vaultConfig blake3 ctx server s.db userID fileID =
        .failed 404 .errNotFound) := by
  have hi : Inv blake3 chunking S s :=
    hreach.inv (fun _ hs => hs ▸ .empty start) fun _ _ _ hi hok hs => hi.step hinj hok hs
  constructor
  · rintro f hf rfl rfl hc
    obtain ⟨content, hstream, hukuran, hdownload⟩ :=
      hi.download hinj errorText hdisk hadmits hfault (findByIDForUser_row hf hc) hf hc
    refine ⟨content, hstream, ?_⟩
    rw [handleDownloadFile, hdownload]
    dsimp only
    rw [hukuran]
  · intro hno
    rw [handleDownloadFile, Api.download, findByIDForUser_none true hno]
    rfl

end

/-! ### An example -/

def sampleRegular (s : Deployment) : Action × Time → Bool
  | (.outbox a, now) => decide (Outbox.RetainCovered s.toOutbox (a, now)) && now != 0
  | (.startUpload _ _ _ _ _ newID _, _) => (s.streams.lookup newID).isNone
  | (.vaultUpload _ _ _, _) =>
    s.vaultConfig.chunking == Vault.sampleConfig 1 && s.streams.toList.all (·.2.2 == [7, 8])
  | (.collectGarbage _ _, _) => s.vault.manifests.toList.all fun x => !x.2.retired
  | (.cleanupExpiredUploadSessions, _) => true
  | (.restart _, _) => true

theorem regular_of_sample {s : Deployment} {a : Action × Time} (h : sampleRegular s a = true) :
    Regular (Vault.sampleConfig 1) Vault.sampleData s a := by
  obtain ⟨a, now⟩ := a
  cases a with
  | outbox a => simpa [sampleRegular, Regular] using h
  | startUpload => simpa [sampleRegular, Regular] using h
  | vaultUpload t env o =>
    intro u fileName content ht hstream
    simp only [sampleRegular, Bool.and_eq_true, beq_iff_eq, List.all_eq_true] at h
    obtain rfl : content = [7, 8] := h.2 _ (Dict.mem_toList.2 hstream)
    rw [h.1]
    exact Vault.sampleData_within (.inl rfl) (Set.mem_singleton _) env
  | collectGarbage env grace =>
    rintro id ⟨m, hm, hr, -⟩
    simp only [sampleRegular, List.all_eq_true] at h
    have hactive := h _ (Dict.mem_toList.2 hm)
    rw [hr] at hactive
    cases hactive
  | cleanupExpiredUploadSessions => trivial
  | restart cfg => trivial

/-- The stream `[7, 8]` is uploaded as `a`, which is deleted for good. The worker retires its
manifest while it is uploaded as `b`; a sweep and a restart in streaming mode follow. -/
def sampleRun : List (Action × Time) :=
  [(.startUpload 0 1 none "a" "" 20 [7, 8], 1), (.vaultUpload 0 (.calm 1 5) .ok, 1)] ++
    List.replicate 3 (.outbox (.upload 0 Outbox.sampleSent .ok), 1) ++
    [(.outbox (Outbox.sampleTrash 20), 1), (.outbox (Outbox.sampleDelete 20), 1),
      (.startUpload 0 1 none "b" "" 21 [7, 8], 1), (.outbox (.claim []), 1),
      (.outbox (.worker .ok), 1), (.outbox (.worker .ok), 1),
      (.vaultUpload 0 (.calm 2 5) .ok, 1)] ++
    List.replicate 3 (.outbox (.upload 0 Outbox.sampleSent .ok), 1) ++
    [(.collectGarbage .calm 9, 9),
      (.restart { Vault.Uds.sampleServer with strictDownloadVerify := false }, 9)]

def sampleContext : VaultClient.Context := ⟨some 1000, "", .calm 3 9, none, 9⟩

theorem download_returns_upload_sample :
    ∃ s, Runs.Reach (Deployment.step id Vault.sampleHash)
        (Regular (Vault.sampleConfig 1) Vault.sampleData) (· = .empty Vault.Uds.sampleServer) s ∧
      ∃ mimeType, handleDownloadFile (fun _ => "") s.vaultConfig Vault.sampleHash sampleContext
        (Vault.Uds.Process.start s.vaultConfig s.vault).toServer s.db 1 21 =
          .stream mimeType 2 false ⟨2, [7, 8], none⟩ := by
  have hrun : (Runs.exec (Runs.guarded (Deployment.step id Vault.sampleHash)
      fun s a => sampleRegular s a = true) (.empty Vault.Uds.sampleServer) sampleRun).any
      (fun s => s.vaultConfig.admits (some 1000) && (s.streams.lookup 21 == some ("b", [7, 8]) &&
        s.db.files.rows.any fun f => f.idBerkas == 21 && (f.idPengguna == 1 &&
          (f.committed && f.dihapusPada.isNone)))) = true := by
    decide +kernel
  obtain ⟨s, hs, hf⟩ := (Option.any_eq_true _ _).1 hrun
  simp only [Bool.and_eq_true, beq_iff_eq, List.any_eq_true] at hf
  obtain ⟨hadmits, hstream, f, hmem, hkey, huser, hc, hlive⟩ := hf
  have hreach : Runs.Reach (Deployment.step id Vault.sampleHash)
      (Regular (Vault.sampleConfig 1) Vault.sampleData) (· = .empty Vault.Uds.sampleServer) s :=
    (Runs.Reach.exec_guarded (.init rfl) hs).mono (fun _ _ => regular_of_sample)
      fun _ h => h.symm
  obtain ⟨content, hcontent, hdownload⟩ := (download_returns_upload Vault.sampleData_injOn hreach
    (fun _ => "") sampleContext (Vault.Uds.Process.start s.vaultConfig s.vault).toServer rfl
      hadmits rfl 1 21).1 f hmem hkey huser hc
  have hsent := hstream.symm.trans hcontent
  rw [Option.some.injEq, Prod.mk.injEq] at hsent
  obtain ⟨-, rfl⟩ := hsent
  refine ⟨s, hreach, f.mimeType, ?_⟩
  rw [hdownload, Option.isNone_iff_eq_none.1 hlive]
  rfl

end Deployment

end HashBox.Api
