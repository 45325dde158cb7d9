import HashBox.Api.Proof.OutboxSteps

/-!
# No retirement intent is lost

The runs of the worker with the other API calls, uploads apart, in which no call fails; `Tracked`
remembers the manifests whose rows were deleted for good. A manifest that has lost its last
reference is retired or its request is pending, and the worker is not about to retain it or to
complete its request with the manifest active (`Tracked.Inv`). A permanent delete breaks this when
it removes the last reference just then: the worker's completion overwrites the request that the
delete has queued. The runs without such a delete are those of `LeavesReference`.
-/

namespace HashBox.Api

def Event.removes (m : Metadata) (e : Event) (f : FileRow) : Bool :=
  match e with
  | .call userID (.permanentDeleteDirectory directoryID) =>
    m.ownsDeleted userID directoryID && f.within (m.subtree directoryID)
  | .call userID (.permanentDeleteFile fileID) =>
    m.selectsFile fileID userID f && f.dihapusPada.isSome
  | _ => false

/-- The manifest that the worker has found a reference of, and that it retains or leaves active. -/
def Outbox.keeping (s : Outbox) : Option Hash :=
  match s.worker with
  | .processing manifestID .retain _ => some manifestID
  | .processing manifestID .complete _ =>
    if retired s.vault manifestID then none else some manifestID
  | _ => none

def Worker.failing (w : Worker) : Bool :=
  match w with
  | .processing _ (.fail _) _ => true
  | _ => false

structure Tracked where
  outbox : Outbox
  removed : List Hash

namespace Tracked

/-- A step of the worker whose calls succeed, or another API call. -/
def step (lower : String → String) (x : Tracked) : Action × Time → Option Tracked
  | (.claim locked, now) =>
    (Outbox.step lower x.outbox (.claim locked, now)).map fun s => { x with outbox := s }
  | (.worker .ok, now) =>
    ((Outbox.step lower x.outbox (.worker .ok, now)).filter fun s => !s.worker.failing).map
      fun s => { x with outbox := s }
  | (.event e, now) =>
    (Outbox.step lower x.outbox (.event e, now)).map fun s =>
      ⟨s, removedManifests x.outbox.db.toMetadata s.db.toMetadata ++ x.removed⟩
  | _ => none

/-- What the outbox owes to a manifest that was deleted for good. -/
def Settled (x : Tracked) (manifestID : Hash) : Prop :=
  hasManifestReferences x.outbox.db.toMetadata manifestID = false →
    retired x.outbox.vault manifestID = true ∨ x.outbox.db.retirementPending manifestID = true

def Start (x : Tracked) : Prop := x.outbox.Quiet ∧ ∀ manifestID ∈ x.removed, x.Settled manifestID

/-- A permanent delete leaves a reference to the manifest that the worker keeps. -/
def LeavesReference (x : Tracked) : Action × Time → Prop
  | (.event e, _) =>
    match x.outbox.keeping with
    | none => True
    | some manifestID =>
      hasManifestReferences x.outbox.db.toMetadata manifestID = true →
        ∃ f ∈ x.outbox.db.files.rows, f.refersTo manifestID = true ∧
          e.removes x.outbox.db.toMetadata f = false
  | _ => True

instance (x : Tracked) : ∀ a, Decidable (x.LeavesReference a)
  | (.event _, _) =>
    show Decidable (match x.outbox.keeping with
      | none => True
      | some _ => _) from
    match x.outbox.keeping with
    | none => .isTrue trivial
    | some _ => inferInstanceAs (Decidable (_ → ∃ f ∈ _, _))
  | (.claim _, _) | (.worker _, _) | (.startUpload .., _) | (.upload .., _) | (.vaultData _, _) =>
    .isTrue trivial

structure Inv (x : Tracked) : Prop where
  /-- The second check comes after the manifest is retired. -/
  checked : ∀ id rest, x.outbox.worker = .processing id .secondCheck rest →
    retired x.outbox.vault id = true
  settled : ∀ id ∈ x.removed, hasManifestReferences x.outbox.db.toMetadata id = false →
    (retired x.outbox.vault id = true ∨ x.outbox.db.retirementPending id = true) ∧
      x.outbox.keeping ≠ some id

end Tracked

variable {lower : String → String} {x x' : Tracked} {s : Outbox} {now : Time}

/-! ## Deletes -/

theorem step_leaves {db db' : Db} {e : Event} {id : Hash} {f : FileRow}
    (h : step lower db (e, now) = some db') (hf : f ∈ db.files.rows) (hid : f.refersTo id = true)
    (hrem : e.removes db.toMetadata f = false) :
    hasManifestReferences db'.toMetadata id = true := by
  have href : hasManifestReferences db.toMetadata id = true :=
    hasManifestReferences_iff.2 ⟨f, hf, hid⟩
  by_cases hdel : e.scope.deletes
  · cases e with
    | expireStalePending olderThan => exact absurd hdel fun h => h
    | call userID c =>
      have hdb : runCall lower db userID now c = db' := Option.some.inj h
      cases c with
      | permanentDeleteDirectory directoryID =>
        simp only [runCall] at hdb
        split at hdb
        · rename_i hok
          subst hdb
          obtain ⟨hown, hm⟩ := permanentDeleteSubtree_ok hok
          simp only [Event.removes, hown, Bool.true_and] at hrem
          rw [hm]
          exact hasManifestReferences_iff.2 ⟨f, Table.mem_deleteWhere.2 ⟨hf, hrem⟩, hid⟩
        · exact hdb ▸ href
      | permanentDeleteFile fileID =>
        simp only [runCall] at hdb
        split at hdb
        · rename_i hok
          subst hdb
          rw [permanentDeleteFile_ok hok]
          exact hasManifestReferences_iff.2 ⟨f, Table.mem_deleteWhere.2 ⟨hf, hrem⟩, hid⟩
        · exact hdb ▸ href
      | _ => exact absurd hdel (by simp [Event.scope, Call.Deletes])
  · exact (step_effect h).keeps_references hdel href

/-! ## The worker -/

theorem keeping_next {claimed : List Hash} (h : s.worker = .next claimed) : s.keeping = none := by
  cases claimed <;> simp [Outbox.keeping, h, Worker.next]

theorem keeping_other {id k : Hash} {point : WorkerPoint} {rest : List Hash}
    (h : s.worker = .processing id point rest) (hk : k ≠ id) : s.keeping ≠ some k := by
  unfold Outbox.keeping
  rw [h]
  cases point with
  | retain => simpa using hk.symm
  | complete =>
    dsimp only
    split
    · simp
    · simpa using hk.symm
  | _ => simp

namespace Tracked

theorem Inv.start (h : x.Start) : x.Inv where
  checked := fun id rest hw => by
    rw [h.1.1] at hw
    cases hw
  settled := fun id hid hno => by
    refine ⟨h.2 id hid hno, ?_⟩
    simp [Outbox.keeping, h.1.1]

theorem Inv.worker (hi : x.Inv) {id : Hash} {point : WorkerPoint} {rest : List Hash}
    (hw : x.outbox.worker = .processing id point rest)
    (hs : s = { x.outbox with
      db := (processStep x.outbox.db x.outbox.vault id rest .ok now point).1
      vault := (processStep x.outbox.db x.outbox.vault id rest .ok now point).2.1
      worker := (processStep x.outbox.db x.outbox.vault id rest .ok now point).2.2 })
    (hok : s.worker.failing = false) : Inv ⟨s, x.removed⟩ := by
  have hmeta : s.db.toMetadata = x.outbox.db.toMetadata := hs ▸ processStep_metadata ..
  have hret : ∀ d,
      (d, true) = vaultCall (fun d => Vault.retireManifest d id now) .ok x.outbox.vault →
        retired d id = true := fun d hd => by
    have h := vaultCall_success (o := .ok) (fun _ hf => retired_updateManifestLifecycle hf)
      (f := fun d => Vault.retireManifest d id now) (d := x.outbox.vault)
    rw [← hd] at h
    exact h rfl
  constructor
  · intro id' rest' hw'
    subst hs
    cases point with
    | retire =>
      simp only [processStep] at hw' ⊢
      split at hw'
      · rename_i d heq
        simp only [Worker.processing.injEq] at hw'
        obtain ⟨rfl, -, rfl⟩ := hw'
        exact hret d heq.symm
      · simp at hw'
    | firstCheck | secondCheck => simp only [processStep] at hw'; split at hw' <;> simp at hw'
    | retain => simp only [processStep] at hw'; split at hw' <;> simp at hw'
    | complete | fail => cases rest <;> simp [processStep, Worker.next] at hw'
  · intro k hk hno
    rw [hmeta] at hno
    obtain ⟨hset, hkeep⟩ := hi.settled k hk hno
    by_cases hkid : k = id
    · subst hkid
      subst hs
      cases point with
      | firstCheck =>
        refine ⟨hset, ?_⟩
        simp [Outbox.keeping, processStep, hno]
      | retire =>
        simp only [processStep] at hok ⊢
        split
        · rename_i d heq
          exact ⟨.inl (hret d heq.symm), by simp [Outbox.keeping]⟩
        · rename_i heq
          simp [heq, Worker.failing] at hok
      | secondCheck =>
        refine ⟨hset, ?_⟩
        simp [Outbox.keeping, processStep, hno, hi.checked k rest hw]
      | retain => exact absurd (by simp [Outbox.keeping, hw]) hkeep
      | complete =>
        -- the request is completed with the manifest retired
        have hr : retired x.outbox.vault k = true := by
          by_contra hr
          exact hkeep (by simp [Outbox.keeping, hw, hr])
        exact ⟨.inl hr, by rw [keeping_next rfl]; simp⟩
      | fail message =>
        refine ⟨hset.imp_right pending_markFailed, ?_⟩
        rw [keeping_next rfl]
        simp
    · refine ⟨?_, ?_⟩
      · subst hs
        rw [processStep_retired hkid]
        exact hset.imp_right fun hp => processStep_pending hp fun h => absurd h hkid
      · subst hs
        rcases processStep_worker x.outbox.db x.outbox.vault id .ok now rest point with
          hn | ⟨-, p, hp⟩
        · rw [keeping_next hn]
          simp
        · exact keeping_other hp hkid

theorem Inv.event (hi : x.Inv) {e : Event} {db' : Db} (hfin : e.finishesUpload = false)
    (hdb : Api.step lower x.outbox.db (e, now) = some db')
    (hok : x.LeavesReference (.event e, now)) :
    Inv ⟨{ x.outbox with db := db' },
      removedManifests x.outbox.db.toMetadata db'.toMetadata ++ x.removed⟩ where
  checked := fun id rest hw => hi.checked id rest hw
  settled := fun id hid hno => by
    obtain ⟨hkeep, hqueue⟩ := step_queues hdb hfin id
    have hk : Outbox.keeping { x.outbox with db := db' } = x.outbox.keeping := rfl
    rw [hk]
    by_cases href : hasManifestReferences x.outbox.db.toMetadata id = true
    · -- the event removes the last reference, so the worker does not keep the manifest
      refine ⟨.inr (hqueue href hno), fun hkeeping => ?_⟩
      simp only [LeavesReference, hkeeping] at hok
      obtain ⟨f, hf, hfid, hrem⟩ := hok href
      have hleft := step_leaves hdb hf hfid hrem
      rw [show hasManifestReferences db'.toMetadata id = false from hno] at hleft
      cases hleft
    · have hmem : id ∈ x.removed := by
        rcases List.mem_append.1 hid with h | h
        · exact absurd (mem_removedManifests h) href
        · exact h
      obtain ⟨hset, hkeeping⟩ := hi.settled id hmem (by simpa using href)
      exact ⟨hset.imp_right hkeep, hkeeping⟩

theorem Inv.step (hi : x.Inv) {a : Action × Time} (hok : x.LeavesReference a)
    (h : Tracked.step lower x a = some x') : x'.Inv := by
  obtain ⟨a, now⟩ := a
  cases a with
  | claim locked =>
    obtain ⟨s, hs, rfl⟩ := Option.map_eq_some_iff.1 h
    simp only [Outbox.step] at hs
    split at hs
    · cases hs
    · cases hs
      constructor
      · intro id rest hw
        cases hc : (claimPendingManifestRetirements x.outbox.db manifestRetirementBatchSize locked
          now).1 with
        | nil => simp [hc, Worker.next] at hw
        | cons k ks => simp [hc, Worker.next] at hw
      · intro id hid hno
        refine ⟨(hi.settled id hid hno).1.imp_right pending_claim, ?_⟩
        rw [keeping_next rfl]
        simp
  | worker o =>
    cases o with
    | failed carriedOut => cases h
    | ok =>
      obtain ⟨s, hs, rfl⟩ := Option.map_eq_some_iff.1 h
      obtain ⟨hs, hfail⟩ := Option.filter_eq_some_iff.1 hs
      simp only [Outbox.step] at hs
      split at hs
      · cases hs
      · rename_i id point rest hw
        exact hi.worker hw (Option.some.inj hs).symm (by simpa using hfail)
  | event e =>
    obtain ⟨s, hs, rfl⟩ := Option.map_eq_some_iff.1 h
    simp only [Outbox.step] at hs
    split at hs
    · cases hs
    · rename_i hfin
      obtain ⟨db', hdb, rfl⟩ := Option.map_eq_some_iff.1 hs
      exact hi.event (by simpa using hfin) hdb hok
  | startUpload t userID directoryID fileName mimeType newID => cases h
  | upload t sent o => cases h
  | vaultData d => cases h

end Tracked

/-- **A manifest deleted for good and without a reference is retired, or its request is pending**,
at every point of the runs whose deletes leave a reference to the manifest the worker keeps. -/
theorem intent_kept (h : Runs.Reach (Tracked.step lower) Tracked.LeavesReference Tracked.Start x) :
    ∀ manifestID ∈ x.removed, x.Settled manifestID := by
  have hi : x.Inv := h.inv (fun _ hs => .start hs) fun _ _ _ hi hok hs => hi.step hok hs
  exact fun id hid hno => (hi.settled id hid hno).1

/-! ## A delete between a check and the completion -/

namespace Outbox

/-- A file is deleted for good, and another one of the same content lies in trash. -/
def intentStart : List Action :=
  .vaultData sampleVault :: sampleFile "a" 20 ++ [sampleTrash 20, sampleDelete 20] ++
    sampleFile "b" 21 ++ [sampleTrash 21]

/-- The second file is deleted for good after `n` steps of the worker, and `n'` more follow. -/
def intentDelete (n n' : Nat) : List Action :=
  .claim [] :: List.replicate n (.worker .ok) ++ sampleDelete 21 :: List.replicate n' (.worker .ok)

end Outbox

theorem intent_kept_sample :
    ∃ x, Runs.Reach (Tracked.step id) Tracked.LeavesReference Tracked.Start x ∧
      x.outbox.Quiet ∧ ∃ manifestID ∈ x.removed,
        hasManifestReferences x.outbox.db.toMetadata manifestID = false ∧ x.Settled manifestID := by
  -- the delete comes before the worker's first check
  have h : ((Runs.exec (Outbox.step id) Outbox.empty (Outbox.atOne Outbox.intentStart)).any fun s =>
      decide s.Quiet && (Runs.exec (Runs.guarded (Tracked.step id) Tracked.LeavesReference) ⟨s, []⟩
        (Outbox.atOne (Outbox.intentDelete 0 4))).any fun x =>
          decide x.outbox.Quiet && (decide (2 ∈ x.removed) &&
            !hasManifestReferences x.outbox.db.toMetadata 2)) = true := by decide
  obtain ⟨s, -, hf⟩ := (Option.any_eq_true _ _).1 h
  rw [Bool.and_eq_true, decide_eq_true_eq] at hf
  obtain ⟨x, hx, hf'⟩ := (Option.any_eq_true _ _).1 hf.2
  simp only [Bool.and_eq_true, decide_eq_true_eq, Bool.not_eq_true'] at hf'
  have hr : Runs.Reach (Tracked.step id) Tracked.LeavesReference Tracked.Start x :=
    .exec_guarded (.init ⟨hf.1, fun k hk => absurd hk (by simp)⟩) hx
  exact ⟨x, hr, hf'.1, 2, hf'.2.1, hf'.2.2, intent_kept hr 2 hf'.2.1⟩

/-- The worker has found the reference of the second file; the delete of that file queues a request
that the worker then completes, with the manifest active. -/
theorem intent_lost :
    ∃ s x, Runs.Reach (Outbox.step id) (fun _ _ => True) (· = Outbox.empty) s ∧ s.Quiet ∧
      Runs.Reach (Tracked.step id) (fun _ _ => True) (· = ⟨s, []⟩) x ∧ x.outbox.Quiet ∧
      ∃ manifestID ∈ x.removed, hasManifestReferences x.outbox.db.toMetadata manifestID = false ∧
        retired x.outbox.vault manifestID = false ∧
        x.outbox.db.retirementPending manifestID = false := by
  have h : ((Runs.exec (Outbox.step id) Outbox.empty (Outbox.atOne Outbox.intentStart)).any fun s =>
      decide s.Quiet && (Runs.exec (Tracked.step id) ⟨s, []⟩
        (Outbox.atOne (Outbox.intentDelete 1 2))).any fun x =>
          decide x.outbox.Quiet && (decide (2 ∈ x.removed) &&
            (!hasManifestReferences x.outbox.db.toMetadata 2 &&
              (!retired x.outbox.vault 2 && !x.outbox.db.retirementPending 2)))) = true := by decide
  obtain ⟨s, hs, hf⟩ := (Option.any_eq_true _ _).1 h
  rw [Bool.and_eq_true, decide_eq_true_eq] at hf
  obtain ⟨x, hx, hf'⟩ := (Option.any_eq_true _ _).1 hf.2
  simp only [Bool.and_eq_true, decide_eq_true_eq, Bool.not_eq_true'] at hf'
  exact ⟨s, x, .exec (.init rfl) (fun _ _ _ => trivial) hs, hf.1,
    .exec (.init rfl) (fun _ _ _ => trivial) hx, hf'.1, 2, hf'.2⟩

end HashBox.Api
