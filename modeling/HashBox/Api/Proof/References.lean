import HashBox.Api.Outbox
import HashBox.Api.Proof.Effects
import Mathlib.Data.List.Dedup

/-!
# References and pending requests

What the statements do to the two facts the outbox is about: whether a committed file refers to a
manifest, and whether the manifest's request is pending. Only `MarkCommitted` adds a reference, only
a permanent delete removes one, and the delete of the last one leaves the request pending
(`step_queues`). Only `MarkManifestRetirementCompleted` ends a pending request.
-/

namespace HashBox.Api

variable {lower : String → String} {x : Scope} {m m' : Metadata} {db db' : Db} {id : Hash}

/-! ## References -/

theorem hasManifestReferences_iff :
    hasManifestReferences m id = true ↔ ∃ f ∈ m.files.rows, f.refersTo id = true := by
  simp only [hasManifestReferences, List.any_eq_true]

theorem references_updateRows {p : FileRow → Bool} {f : FileRow → FileRow}
    (hrows : m'.files.rows = Table.updateRows p f m.files.rows)
    (hsame : ∀ r, p r = true → ∀ id, (f r).refersTo id = r.refersTo id) (id : Hash) :
    hasManifestReferences m' id = hasManifestReferences m id := by
  rw [Bool.eq_iff_iff, hasManifestReferences_iff, hasManifestReferences_iff, hrows]
  constructor
  · rintro ⟨g, hg, href⟩
    rcases Table.mem_updateRows.1 hg with ⟨r, hr, hp, rfl⟩ | ⟨hg, -⟩
    · exact ⟨r, hr, hsame r hp id ▸ href⟩
    · exact ⟨g, hg, href⟩
  · rintro ⟨r, hr, href⟩
    by_cases hp : p r = true
    · exact ⟨f r, Table.mem_updateRows.2 (.inl ⟨r, hr, hp, rfl⟩), (hsame r hp id).symm ▸ href⟩
    · exact ⟨r, Table.mem_updateRows.2 (.inr ⟨hr, by simpa using hp⟩), href⟩

theorem references_trashSubtree (ids : List Uuid) (u : Uuid) (now : Time) (id : Hash) :
    hasManifestReferences (m.trashSubtree ids u now) id = hasManifestReferences m id :=
  references_updateRows rfl (by intro _ _ _; rfl) id

theorem references_untrashSubtree (ids : List Uuid) (u : Uuid) (id : Hash) :
    hasManifestReferences (m.untrashSubtree ids u) id = hasManifestReferences m id :=
  references_updateRows rfl (by intro _ _ _; rfl) id

theorem references_deleteWhere {p : FileRow → Bool} (hrows : m'.files = m.files.deleteWhere p)
    (h : hasManifestReferences m' id = true) : hasManifestReferences m id = true := by
  obtain ⟨f, hf, href⟩ := hasManifestReferences_iff.1 h
  rw [hrows] at hf
  exact hasManifestReferences_iff.2 ⟨f, (Table.mem_deleteWhere.1 hf).1, href⟩

/-- A call adds no reference but the one it commits. -/
theorem Effect.references (he : Effect lower x m m') (h : hasManifestReferences m' id = true) :
    hasManifestReferences m id = true ∨ x.commits id := by
  cases he with
  | same => exact .inl h
  | addDirectory row parentID directories directoryClosure _ _ _ _ _ => exact .inl h
  | starDirectory p t _ => exact .inl h
  | trash directoryID userID now _ _ => exact .inl (references_trashSubtree _ _ _ id ▸ h)
  | untrash directoryID userID _ _ _ _ => exact .inl (references_untrashSubtree _ _ id ▸ h)
  | remove directoryID userID _ _ _ => exact .inl (references_deleteWhere rfl h)
  | addFile row files _ hrow _ hf _ =>
    obtain ⟨f, hmem, href⟩ := hasManifestReferences_iff.1 h
    have hmem : f ∈ files.rows := hmem
    rw [Table.insert_rows hf, List.mem_append, List.mem_singleton] at hmem
    rcases hmem with hmem | rfl
    · exact .inl (hasManifestReferences_iff.2 ⟨f, hmem, href⟩)
    · simp [FileRow.refersTo, hrow] at href
  | updateFile p f hf _ _ _ _ _ hadd =>
    obtain ⟨g, hg, href⟩ := hasManifestReferences_iff.1 h
    rcases Table.mem_updateRows.1 hg with ⟨r, hr, hp, rfl⟩ | ⟨hg, -⟩
    · exact (hadd r hp id href).imp_left fun h => hasManifestReferences_iff.2 ⟨r, hr, h⟩
    · exact .inl (hasManifestReferences_iff.2 ⟨g, hg, href⟩)
  | removeFile p _ _ => exact .inl (references_deleteWhere rfl h)

/-- A call that deletes nothing for good removes no reference. -/
theorem Effect.keeps_references (he : Effect lower x m m') (hx : ¬ x.deletes)
    (h : hasManifestReferences m id = true) : hasManifestReferences m' id = true := by
  cases he with
  | same => exact h
  | addDirectory row parentID directories directoryClosure _ _ _ _ _ => exact h
  | starDirectory p t _ => exact h
  | trash directoryID userID now _ _ => rwa [references_trashSubtree]
  | untrash directoryID userID _ _ _ _ => rwa [references_untrashSubtree]
  | remove directoryID userID _ hdel _ => exact absurd hdel hx
  | addFile row files _ _ _ hf _ =>
    obtain ⟨f, hmem, href⟩ := hasManifestReferences_iff.1 h
    refine hasManifestReferences_iff.2 ⟨f, ?_, href⟩
    show f ∈ files.rows
    rw [Table.insert_rows hf]
    exact List.mem_append_left _ hmem
  | updateFile p f hf _ _ _ _ hkeep _ =>
    obtain ⟨r, hr, href⟩ := hasManifestReferences_iff.1 h
    by_cases hp : p r = true
    · exact hasManifestReferences_iff.2
        ⟨f r, Table.mem_updateRows.2 (.inl ⟨r, hr, hp, rfl⟩), hkeep r hp id href⟩
    · exact hasManifestReferences_iff.2
        ⟨r, Table.mem_updateRows.2 (.inr ⟨hr, by simpa using hp⟩), href⟩
  | removeFile p _ hdel => exact absurd hdel hx

theorem mem_removedManifests {m m' : Metadata} {id : Hash} (h : id ∈ removedManifests m m') :
    hasManifestReferences m id = true := by
  obtain ⟨f, hf, hid⟩ := List.mem_filterMap.1 h
  simp only [List.mem_filter, Bool.and_eq_true] at hf
  exact hasManifestReferences_iff.2 ⟨f, hf.1, by simp [FileRow.refersTo, hid, hf.2.1]⟩

/-! ## Pending requests -/

theorem retirementPending_iff :
    db.retirementPending id = true ↔ ∃ r ∈ db.manifestRetirementRequests.rows,
      r.manifestId = id ∧ r.status = .pending := by
  simp only [Db.retirementPending, List.any_eq_true, Bool.and_eq_true, beq_iff_eq]

theorem retirementPending_congr
    (h : db'.manifestRetirementRequests = db.manifestRetirementRequests) (id : Hash) :
    db'.retirementPending id = db.retirementPending id := by
  simp only [Db.retirementPending, h]

theorem pending_updateRetirement {p : RetirementRow → Bool} {f : RetirementRow → RetirementRow}
    {h : ∀ r, (f r).manifestId = r.manifestId}
    (hf : ∀ r, r.status = .pending → (f r).status = .pending)
    (hp : db.retirementPending id = true) :
    (db.updateRetirement p f h).retirementPending id = true := by
  obtain ⟨r, hr, rfl, hs⟩ := retirementPending_iff.1 hp
  rw [retirementPending_iff]
  by_cases hpr : p r = true
  · exact ⟨f r, Table.mem_updateRows.2 (.inl ⟨r, hr, hpr, rfl⟩), h r, hf r hs⟩
  · exact ⟨r, Table.mem_updateRows.2 (.inr ⟨hr, by simpa using hpr⟩), rfl, hs⟩

theorem pending_requeue {manifestID : Hash} {now : Time} (h : db.retirementPending id = true) :
    (requeueManifestRetirement db manifestID now).retirementPending id = true :=
  pending_updateRetirement (fun _ _ => rfl) h

theorem pending_markFailed {manifestID : Hash} {message : String} {now : Time}
    (h : db.retirementPending id = true) :
    (markManifestRetirementFailed db manifestID message now).retirementPending id = true :=
  pending_updateRetirement (fun _ _ => rfl) h

/-- `MarkManifestRetirementCompleted` ends the request of its manifest, pending or not. -/
theorem pending_markCompleted (db : Db) (manifestID : Hash) (now : Time) (id : Hash) :
    (markManifestRetirementCompleted db manifestID now).retirementPending id = true ↔
      db.retirementPending id = true ∧ id ≠ manifestID := by
  simp only [retirementPending_iff]
  constructor
  · rintro ⟨r, hr, rfl, hs⟩
    rcases Table.mem_updateRows.1 hr with ⟨q, hq, -, rfl⟩ | ⟨hr, hn⟩
    · cases hs
    · exact ⟨⟨r, hr, rfl, hs⟩, by simpa using hn⟩
  · rintro ⟨⟨r, hr, rfl, hs⟩, hne⟩
    exact ⟨r, Table.mem_updateRows.2 (.inr ⟨hr, by simpa using hne⟩), rfl, hs⟩

theorem pending_upsert (db : Db) (manifestID : Hash) (now : Time) (id : Hash) :
    (upsertRetirement db manifestID now).retirementPending id = true ↔
      db.retirementPending id = true ∨ id = manifestID := by
  simp only [retirementPending_iff, upsertRetirement, Table.mem_upsert]
  constructor
  · rintro ⟨r, ⟨hr, -⟩ | ⟨rfl, -⟩ | ⟨o, -, ho, rfl⟩, rfl, hs⟩
    · exact .inl ⟨r, hr, rfl, hs⟩
    · exact .inr rfl
    · exact .inr ho
  · intro h
    by_cases hid : id = manifestID
    · subst hid
      by_cases hex : ∃ o ∈ db.manifestRetirementRequests.rows, o.manifestId = id
      · obtain ⟨o, ho, hk⟩ := hex
        exact ⟨_, .inr (.inr ⟨o, ho, hk, rfl⟩), hk, rfl⟩
      · exact ⟨_, .inr (.inl ⟨rfl, fun o ho hk => hex ⟨o, ho, hk⟩⟩), rfl, rfl⟩
    · obtain ⟨r, hr, rfl, hs⟩ := h.resolve_right hid
      exact ⟨r, .inl ⟨hr, hid⟩, rfl, hs⟩

/-- What is claimed is pending, and each manifest is claimed once. -/
theorem claimable_spec (db : Db) (limit : Int) (locked : List Hash) (now : Time) :
    (claimable db limit locked now).Nodup ∧
      ∀ id ∈ claimable db limit locked now, db.retirementPending id = true := by
  unfold claimable
  dsimp only
  generalize (if limit ≤ 0 then 16 else if limit > 100 then 100 else limit).toNat = n
  set due := db.manifestRetirementRequests.rows.filter fun r =>
    r.status == .pending && decide (r.availableAt ≤ now) && decide (r.manifestId ∉ locked) with hdue
  constructor
  · have hnd : (due.map (·.manifestId)).Nodup :=
      db.manifestRetirementRequests.primaryKey.sublist (List.filter_sublist.map _)
    refine List.Nodup.sublist ((List.take_sublist _ _).map _) ?_
    exact ((List.perm_insertionSort _ due).map _).nodup_iff.2 hnd
  · intro id hid
    obtain ⟨r, hr, rfl⟩ := List.mem_map.1 hid
    have hr : r ∈ due := (List.mem_insertionSort _).1 (List.mem_of_mem_take hr)
    simp only [hdue, List.mem_filter, Bool.and_eq_true, beq_iff_eq] at hr
    exact retirementPending_iff.2 ⟨r, hr.1, rfl, hr.2.1.1⟩

theorem pending_claim {limit : Int} {locked : List Hash} {now : Time}
    (h : db.retirementPending id = true) :
    (claimPendingManifestRetirements db limit locked now).2.retirementPending id = true :=
  pending_updateRetirement (fun _ hs => hs) h

/-! ## Permanent deletes queue -/

theorem mem_sortedManifestIDs {ids : List Hash} : id ∈ sortedManifestIDs ids ↔ id ∈ ids := by
  rw [sortedManifestIDs, List.mem_insertionSort, List.mem_dedup]

theorem pending_queue (db : Db) (ids : List Hash) (now : Time) (id : Hash) :
    (queueManifestRetirements db ids now).retirementPending id = true ↔
      db.retirementPending id = true ∨
        (id ∈ ids ∧ hasManifestReferences db.toMetadata id = false) := by
  rw [queueManifestRetirements, ← mem_sortedManifestIDs]
  generalize sortedManifestIDs ids = ids
  induction ids generalizing db with
  | nil => simp [queueOrdered]
  | cons k ids ih =>
    rw [queueOrdered]
    split
    · rename_i href
      refine (ih db).trans ?_
      rw [List.mem_cons]
      constructor
      · exact Or.imp_right fun h => ⟨.inr h.1, h.2⟩
      · rintro (h | ⟨rfl | h, hno⟩)
        · exact .inl h
        · rw [href] at hno
          cases hno
        · exact .inr ⟨h, hno⟩
    · rename_i href
      have hm : (upsertRetirement db k now).toMetadata = db.toMetadata := rfl
      refine (ih (upsertRetirement db k now)).trans ?_
      rw [hm, pending_upsert, List.mem_cons]
      constructor
      · rintro ((h | rfl) | h)
        · exact .inl h
        · exact .inr ⟨.inl rfl, by simpa using href⟩
        · exact .inr ⟨.inr h.1, h.2⟩
      · rintro (h | ⟨rfl | h, hno⟩)
        · exact .inl (.inl h)
        · exact .inl (.inr rfl)
        · exact .inr ⟨h, hno⟩

/-- The delete of a subtree keeps what is pending, and queues the manifests whose last reference
it removes. -/
theorem permanentDeleteSubtree_queues {directoryID userID : Uuid} {now : Time}
    (h : permanentDeleteSubtree db directoryID userID now = .ok db') (id : Hash) :
    (db.retirementPending id = true → db'.retirementPending id = true) ∧
      (hasManifestReferences db.toMetadata id = true →
        hasManifestReferences db'.toMetadata id = false → db'.retirementPending id = true) := by
  obtain ⟨-, hm⟩ := permanentDeleteSubtree_ok h
  unfold permanentDeleteSubtree at h
  split at h
  · cases h
  dsimp only at h
  split at h
  · cases h
  cases h
  have hpend : ∀ (db : Db) (m : Metadata),
      (db.withMetadata m).retirementPending id = db.retirementPending id := fun _ _ => rfl
  rw [hpend, pending_queue, hpend]
  refine ⟨.inl, fun href hno => .inr ?_⟩
  -- the references that are left are those of the files that are left
  have hleft : hasManifestReferences (db.removeFiles (db.subtree directoryID)) id = false := by
    rw [hm] at hno
    exact hno
  obtain ⟨f, hf, hfid⟩ := hasManifestReferences_iff.1 href
  refine ⟨List.mem_filterMap.2 ⟨f, List.mem_filter.2 ⟨hf, ?_⟩, ?_⟩, hleft⟩
  · simp only [FileRow.refersTo, Bool.and_eq_true] at hfid
    rw [Bool.and_eq_true]
    refine ⟨?_, hfid.2⟩
    by_contra hw
    have : hasManifestReferences (db.removeFiles (db.subtree directoryID)) id = true :=
      hasManifestReferences_iff.2 ⟨f, Table.mem_deleteWhere.2 ⟨hf, by simpa using hw⟩, by
        simp [FileRow.refersTo, hfid]⟩
    rw [hleft] at this
    cases this
  · simp only [FileRow.refersTo, Bool.and_eq_true, decide_eq_true_eq] at hfid
    exact hfid.1

theorem permanentDeleteFile_queues {fileID userID : Uuid} {now : Time}
    (h : permanentDeleteFile db fileID userID now = .ok db') (id : Hash) :
    (db.retirementPending id = true → db'.retirementPending id = true) ∧
      (hasManifestReferences db.toMetadata id = true →
        hasManifestReferences db'.toMetadata id = false → db'.retirementPending id = true) := by
  have hm := permanentDeleteFile_ok h
  unfold permanentDeleteFile at h
  dsimp only at h
  split at h
  · cases h
  cases h
  rw [pending_queue]
  refine ⟨.inl, fun href hno => .inr ?_⟩
  rw [hm] at hno
  obtain ⟨f, hf, hfid⟩ := hasManifestReferences_iff.1 href
  refine ⟨List.mem_filterMap.2 ⟨f, List.mem_filter.2 ⟨hf, ?_⟩, ?_⟩, hno⟩
  · by_contra hsel
    rw [Bool.eq_false_iff] at hno
    exact hno (hasManifestReferences_iff.2
      ⟨f, Table.mem_deleteWhere.2 ⟨hf, by simpa using hsel⟩, hfid⟩)
  · simp only [FileRow.refersTo, Bool.and_eq_true, decide_eq_true_eq] at hfid
    exact hfid.1

/-! ## Events -/

section
variable {e : Event} {now : Time} (h : step lower db (e, now) = some db')
  (hfin : e.finishesUpload = false)
include h hfin

theorem step_references (href : hasManifestReferences db'.toMetadata id = true) :
    hasManifestReferences db.toMetadata id = true := by
  refine ((step_effect h).references href).resolve_right ?_
  cases e with
  | call userID c =>
    rintro ⟨fileID, result, rfl, -⟩
    cases hfin
  | expireStalePending olderThan => exact fun hc => hc

/-- An event keeps what is pending, and the one that removes a manifest's last reference leaves its
request pending. -/
theorem step_queues (id : Hash) :
    (db.retirementPending id = true → db'.retirementPending id = true) ∧
      (hasManifestReferences db.toMetadata id = true →
        hasManifestReferences db'.toMetadata id = false → db'.retirementPending id = true) := by
  -- an event that deletes nothing for good removes no reference and leaves the requests alone
  have hkeep : ¬ e.scope.deletes →
      db'.manifestRetirementRequests = db.manifestRetirementRequests →
      (db.retirementPending id = true → db'.retirementPending id = true) ∧
        (hasManifestReferences db.toMetadata id = true →
          hasManifestReferences db'.toMetadata id = false → db'.retirementPending id = true) := by
    intro hdel hreq
    refine ⟨fun hp => (retirementPending_congr hreq id).trans hp, fun href hno => ?_⟩
    rw [(step_effect h).keeps_references hdel href] at hno
    cases hno
  cases e with
  | expireStalePending olderThan =>
    refine hkeep (fun hd => hd) ?_
    cases h
    rfl
  | call userID c =>
    have hdb : runCall lower db userID now c = db' := Option.some.inj h
    by_cases hdel : c.Deletes
    · cases c with
      | permanentDeleteDirectory directoryID =>
        simp only [runCall] at hdb
        split at hdb
        · rename_i hok
          exact hdb ▸ permanentDeleteSubtree_queues hok id
        · subst hdb
          exact ⟨fun hp => hp, fun href hno => by rw [href] at hno; cases hno⟩
      | permanentDeleteFile fileID =>
        simp only [runCall] at hdb
        split at hdb
        · rename_i hok
          exact hdb ▸ permanentDeleteFile_queues hok id
        · subst hdb
          exact ⟨fun hp => hp, fun href hno => by rw [href] at hno; cases hno⟩
      | _ => exact absurd hdel (by simp [Call.Deletes])
    · refine hkeep hdel ?_
      subst hdb
      refine (runCall_alters db userID now c hdel ?_).requests
      rintro fileID answer rfl
      cases hfin

end

/-! ## An upload -/

theorem markCommitted_references {fileID userID : Uuid} {result : UploadCommitResult} {now : Time}
    {out : Db × FileRow} (h : markCommitted db fileID userID result now = .ok out)
    (href : hasManifestReferences out.1.toMetadata id = true) :
    hasManifestReferences db.toMetadata id = true ∨ id = result.manifestID := by
  unfold markCommitted at h
  split at h
  · cases h
  cases h
  obtain ⟨g, hg, hgid⟩ := hasManifestReferences_iff.1 href
  rcases Table.mem_updateRows.1 hg with ⟨r, -, -, rfl⟩ | ⟨hg, -⟩
  · simp only [FileRow.refersTo, FileRow.commit, Bool.and_eq_true, decide_eq_true_eq,
      Option.some.injEq] at hgid
    exact .inr hgid.1.symm
  · exact .inl (hasManifestReferences_iff.2 ⟨g, hg, hgid⟩)

theorem markCommitted_requests {fileID userID : Uuid} {result : UploadCommitResult} {now : Time}
    {out : Db × FileRow} (h : markCommitted db fileID userID result now = .ok out) :
    out.1.manifestRetirementRequests = db.manifestRetirementRequests := by
  unfold markCommitted at h
  split at h
  · cases h
  cases h
  rfl

theorem markFailed_references {fileID userID : Uuid} :
    hasManifestReferences (markFailed db fileID userID).toMetadata id =
      hasManifestReferences db.toMetadata id := by
  refine references_updateRows rfl (fun r hp id => ?_) id
  rw [refersTo_of_pending (selectsPending_iff.1 hp).2.2]
  simp [FileRow.refersTo, FileRow.committed]

theorem uploadStart_ok {userID : Uuid} {directoryID : Option Uuid} {fileName mimeType : String}
    {newID : Uuid} {now : Time} {out : Db × FileRow}
    (h : uploadStart lower db userID directoryID fileName mimeType newID now = .ok out) :
    Alters lower ⟨some userID, fun _ => False, fun _ => False, False⟩ db out.1 := by
  have ha : Alters lower ⟨some userID, fun _ => False, fun _ => False, False⟩ db _ :=
    uploadStart_alters db userID directoryID fileName mimeType newID now rfl
  rwa [h] at ha

end HashBox.Api
