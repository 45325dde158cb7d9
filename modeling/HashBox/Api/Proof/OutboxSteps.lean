import HashBox.Api.Proof.References
import HashBox.Vault.Proof.StoreFacts

/-!
# What a step of the worker or of an upload changes

A call of Vault reaches one manifest: retiring and retaining set its tombstone, a commit clears it
(`vaultCall_success`, `vaultCall_commit`). A step of the worker changes no reference and ends a
pending request only at `complete` (`processStep_metadata`, `processStep_pending`); a step of an
upload keeps every pending request (`uploadStep_pending`).
-/

namespace HashBox.Api

open Vault (Disk ManifestRecord)

variable {lower : String → String} {db : Db} {vault d d' : Disk} {id k : Hash} {o : Outcome}
  {now : Time}

/-! ## Calls of Vault -/

theorem retired_updateManifestLifecycle {r : Bool}
    (h : Vault.updateManifestLifecycle d id r now = .ok d') (k : Hash) :
    retired d' k = if k = id then r else retired d k := by
  obtain ⟨m, hm, -, ⟨hr, rfl⟩ | ⟨-, rfl⟩⟩ := Vault.updateManifestLifecycle_ok h
  · split
    · rename_i hk
      subst hk
      simp [retired, hm, hr]
    · rfl
  · simp only [retired, Dict.lookup_insert_if]
    split <;> simp

theorem retired_commit {m : ManifestRecord} (hm : m.retired = false)
    (h : Vault.commitManifestAndChunkRefs d m = .ok d') (hr : retired d' k = true) :
    retired d k = true := by
  rcases Vault.commit_ok h with ⟨e, -, -, -, rfl⟩ | ⟨e, -, -, -, rfl⟩ | ⟨-, chunks, -, rfl⟩
  · exact hr
  all_goals
    simp only [retired, Dict.lookup_insert_if] at hr
    split at hr
    · simp [hm] at hr
    · exact hr

/-- A call that fails was carried out or changes nothing; one that succeeds was carried out. -/
theorem vaultCall_cases (f : Disk → Except Vault.Error Disk) (o : Outcome) (d : Disk) :
    f d = .ok (vaultCall f o d).1 ∨ vaultCall f o d = (d, false) := by
  unfold vaultCall
  cases hf : f d with
  | error e => exact .inr rfl
  | ok d' =>
    cases o with
    | ok => exact .inl rfl
    | failed carriedOut =>
      cases carriedOut
      · exact .inr rfl
      · exact .inl rfl

theorem vaultCall_other {f : Disk → Except Vault.Error Disk} {r : Bool}
    (hf : ∀ d', f d = .ok d' → ∀ k, retired d' k = if k = id then r else retired d k)
    (hk : k ≠ id) : retired (vaultCall f o d).1 k = retired d k := by
  rcases vaultCall_cases f o d with h | h
  · rw [hf _ h, if_neg hk]
  · rw [h]

theorem vaultCall_success {f : Disk → Except Vault.Error Disk} {r : Bool}
    (hf : ∀ d', f d = .ok d' → ∀ k, retired d' k = if k = id then r else retired d k)
    (hok : (vaultCall f o d).2 = true) : retired (vaultCall f o d).1 id = r := by
  rcases vaultCall_cases f o d with h | h
  · rw [hf _ h, if_pos rfl]
  · rw [h] at hok
    cases hok

theorem vaultCall_commit {m : ManifestRecord} (hm : m.retired = false)
    (hr : retired (vaultCall (fun d => Vault.commitManifestAndChunkRefs d m) o d).1 k = true) :
    retired d k = true := by
  rcases vaultCall_cases (fun d => Vault.commitManifestAndChunkRefs d m) o d with h | h
  · exact retired_commit hm h hr
  · rwa [h] at hr

/-! ## The worker -/

section
variable (db vault id) (rest : List Hash) (o now) (point : WorkerPoint)

theorem processStep_metadata :
    (processStep db vault id rest o now point).1.toMetadata = db.toMetadata := by
  cases point with
  | firstCheck | secondCheck => cases o <;> rfl
  | retire | retain => simp only [processStep]; split <;> rfl
  | complete | fail => cases o <;> rfl

theorem processStep_worker :
    (processStep db vault id rest o now point).2.2 = .next rest ∨
      (point ≠ .complete ∧
        ∃ point', (processStep db vault id rest o now point).2.2 = .processing id point' rest) := by
  cases point with
  | firstCheck | secondCheck => cases o <;> exact .inr ⟨by simp, _, rfl⟩
  | retire | retain => simp only [processStep]; split <;> exact .inr ⟨by simp, _, rfl⟩
  | complete | fail => exact .inl rfl

variable {db vault id rest o now point}

/-- Only `complete` ends a request, the one of the manifest in process. -/
theorem processStep_pending (hp : db.retirementPending k = true)
    (hk : k = id → point ≠ .complete) :
    (processStep db vault id rest o now point).1.retirementPending k = true := by
  cases point with
  | firstCheck | secondCheck => cases o <;> exact hp
  | retire | retain => simp only [processStep]; split <;> exact hp
  | complete =>
    cases o with
    | ok => exact (pending_markCompleted db id now k).2 ⟨hp, fun h => hk h rfl⟩
    | failed _ => exact hp
  | fail message =>
    cases o with
    | ok => exact pending_markFailed hp
    | failed _ => exact hp

/-- **The worker completes a request with a reference only after it has retained the manifest.** -/
theorem processStep_complete
    (h : (processStep db vault id rest o now point).2.2 = .processing id .complete rest) :
    hasManifestReferences db.toMetadata id = false ∨
      retired (processStep db vault id rest o now point).2.1 id = false := by
  cases point with
  | firstCheck =>
    cases o with
    | ok => simp only [processStep] at h; split at h <;> cases h
    | failed _ => cases h
  | retire =>
    simp only [processStep] at h
    split at h <;> cases h
  | secondCheck =>
    cases o with
    | ok =>
      simp only [processStep] at h
      split at h
      · cases h
      · rename_i href
        exact .inl (by simpa using href)
    | failed _ => cases h
  | retain =>
    have hret := vaultCall_success (o := o) (fun _ hf => retired_updateManifestLifecycle hf)
      (f := fun d => Vault.retainManifest d id now) (d := vault)
    simp only [processStep] at h ⊢
    split at h
    · rename_i heq
      rw [heq] at hret
      exact .inr (hret rfl)
    · cases h
  | complete | fail =>
    cases rest with
    | nil => cases h
    | cons k rest => simp [processStep, Worker.next] at h

/-- Only the tombstone of the manifest in process changes. -/
theorem processStep_retired (hk : k ≠ id) :
    retired (processStep db vault id rest o now point).2.1 k = retired vault k := by
  cases point with
  | firstCheck | secondCheck => cases o <;> rfl
  | retire =>
    have h := vaultCall_other (o := o) (fun _ hf => retired_updateManifestLifecycle hf) hk
      (f := fun d => Vault.retireManifest d id now) (d := vault)
    simp only [processStep]
    split <;> rename_i heq <;> rwa [heq] at h
  | retain =>
    have h := vaultCall_other (o := o) (fun _ hf => retired_updateManifestLifecycle hf) hk
      (f := fun d => Vault.retainManifest d id now) (d := vault)
    simp only [processStep]
    split <;> rename_i heq <;> rwa [heq] at h
  | complete | fail => cases o <;> rfl

end

/-! ## An upload -/

section
variable {u : Upload} {sent : Sent}

theorem uploadStep_pending (hp : db.retirementPending k = true) :
    (uploadStep db vault u sent o now).1.retirementPending k = true := by
  cases hu : u.point with
  | vaultUpload => simp only [uploadStep, hu]; split <;> exact hp
  | markCommitted result =>
    simp only [uploadStep, hu]
    split
    · rename_i hok
      exact (retirementPending_congr (markCommitted_requests hok) k).trans hp
    · exact hp
  | requeue manifestID =>
    cases o with
    | ok => simp only [uploadStep, hu, dbCall]; exact pending_requeue hp
    | failed _ => simpa only [uploadStep, hu, dbCall] using hp
  | retain manifestID => simpa only [uploadStep, hu] using hp
  | markFailed =>
    cases o with
    | ok => simp only [uploadStep, hu, dbCall]; exact hp
    | failed _ => simpa only [uploadStep, hu, dbCall] using hp

/-- Only `MarkCommitted` adds a reference. -/
theorem uploadStep_references
    (href : hasManifestReferences (uploadStep db vault u sent o now).1.toMetadata k = true) :
    hasManifestReferences db.toMetadata k = true ∨
      (uploadStep db vault u sent o now).2.2.map (·.point) = some (.requeue k) := by
  cases hu : u.point with
  | vaultUpload =>
    simp only [uploadStep, hu] at href
    split at href <;> exact .inl href
  | markCommitted result =>
    simp only [uploadStep, hu] at href ⊢
    split at href
    · rename_i db' record hok
      rcases markCommitted_references hok href with h | h
      · exact .inl h
      · exact .inr (by simp [h])
    · exact .inl href
  | requeue manifestID =>
    refine .inl ?_
    cases o with
    | ok => simp only [uploadStep, hu, dbCall] at href; exact href
    | failed _ => simpa only [uploadStep, hu, dbCall] using href
  | retain manifestID => exact .inl (by simpa only [uploadStep, hu] using href)
  | markFailed =>
    refine .inl ?_
    cases o with
    | ok =>
      simp only [uploadStep, hu, dbCall] at href
      rwa [markFailed_references] at href
    | failed _ => simpa only [uploadStep, hu, dbCall] using href

theorem uploadStep_retired (hr : retired (uploadStep db vault u sent o now).2.1 k = true) :
    retired vault k = true := by
  cases hu : u.point with
  | vaultUpload =>
    refine vaultCall_commit (o := o) (m := Vault.newManifest sent.fileHash sent.loop.chunkHashes
      sent.loop.totalSize now) rfl ?_
    simp only [uploadStep, hu] at hr
    split at hr <;> rename_i heq <;> rwa [heq]
  | markCommitted result =>
    simp only [uploadStep, hu] at hr
    split at hr <;> exact hr
  | requeue manifestID => simpa only [uploadStep, hu] using hr
  | retain manifestID =>
    simp only [uploadStep, hu] at hr
    rcases vaultCall_cases (fun d => Vault.retainManifest d manifestID now) o vault with h | h
    · rw [retired_updateManifestLifecycle h] at hr
      split at hr
      · cases hr
      · exact hr
    · rwa [h] at hr
  | markFailed => simpa only [uploadStep, hu] using hr

end

/-! ## One content in Vault

The runs on fixed inputs upload it under two names. -/

namespace Outbox

/-- Vault with the chunk of the content. -/
def sampleVault : Disk where
  manifests := ∅
  chunks := (∅ : Dict Hash Vault.ChunkRecord).insert 1 ⟨1, 1, 0, false, 1⟩
  uploads := ∅
  files := (∅ : Dict Hash Vault.ChunkFile).insert 1 ⟨[7], 1⟩

def sampleSent : Sent := ⟨2, ⟨[7], [1], 1, 1, 0⟩⟩

def sampleFile (name : String) (fileID : Uuid) : List Action :=
  .startUpload 0 1 none name "" fileID :: List.replicate 4 (.upload 0 sampleSent .ok)

def sampleTrash (fileID : Uuid) : Action := .event (.call 1 (.softDeleteFile fileID))

def sampleDelete (fileID : Uuid) : Action := .event (.call 1 (.permanentDeleteFile fileID))

def atOne (as : List Action) : List (Action × Time) := as.map fun a => (a, 1)

end Outbox

end HashBox.Api
