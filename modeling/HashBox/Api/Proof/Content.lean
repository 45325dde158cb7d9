import HashBox.Api.Proof.OutboxSteps

/-!
# No content is lost

A manifest with a reference that is retired in Vault is either about to be retained by an upload or
its request is pending and the worker will look at it again (`Outbox.Inv`). Every step keeps this
but one: the `RetainManifest` of an upload that fails, when the worker is past its second check of
that manifest, or when the requeue failed too and the request is completed. The runs without that
step are those of `RetainCovered`.
-/

namespace HashBox.Api

open Vault (Disk)

/-- The worker is past its checks of the manifest and about to complete the request. -/
def Worker.completes (w : Worker) (manifestID : Hash) : Bool :=
  match w with
  | .processing id .complete _ => id == manifestID
  | _ => false

/-- The manifest whose `RetainManifest` is the upload's next call. -/
def Upload.retains (u : Upload) : Option Hash :=
  match u.point with
  | .retain manifestID => some manifestID
  | _ => none

namespace Outbox

/-- An upload other than `t` has still to call `RetainManifest` for the manifest. -/
def RetainComingBut (s : Outbox) (t : Option Nat) (manifestID : Hash) : Prop :=
  ∃ x ∈ s.uploads.toList, some x.1 ≠ t ∧
    (x.2.point = .requeue manifestID ∨ x.2.point = .retain manifestID)

/-- The request is pending, and the worker is not about to complete it. -/
def DrainComing (s : Outbox) (manifestID : Hash) : Prop :=
  s.db.retirementPending manifestID = true ∧ s.worker.completes manifestID = false

/-- A call of `RetainManifest` finds the manifest retired and is not carried out. -/
def Missed (vault : Disk) (manifestID : Hash) (o : Outcome) (now : Time) : Prop :=
  retired vault manifestID = true ∧
    ((Vault.retainManifest vault manifestID now).isOk = true → o = .failed false)

/-- An upload that misses its retain leaves the manifest to another upload or to the worker. -/
def RetainCovered (s : Outbox) : Action × Time → Prop
  | (.upload t _ o, now) =>
    match (s.uploads.lookup t).bind Upload.retains with
    | none => True
    | some manifestID =>
      hasManifestReferences s.db.toMetadata manifestID = true → Missed s.vault manifestID o now →
        s.RetainComingBut (some t) manifestID ∨ s.DrainComing manifestID
  | _ => True

section
variable (s : Outbox) (t : Option Nat) (id : Hash) (vault : Disk) (o : Outcome) (now : Time)

instance : Decidable (s.RetainComingBut t id) := inferInstanceAs (Decidable (∃ x ∈ _, _))
instance : Decidable (s.DrainComing id) := inferInstanceAs (Decidable (_ ∧ _))
instance : Decidable (Missed vault id o now) := inferInstanceAs (Decidable (_ ∧ (_ → _)))

instance : ∀ a, Decidable (s.RetainCovered a)
  | (.upload t _ _, _) =>
    show Decidable (match (s.uploads.lookup t).bind Upload.retains with
      | none => True
      | some _ => _) from
    match (s.uploads.lookup t).bind Upload.retains with
    | none => .isTrue trivial
    | some _ => inferInstanceAs (Decidable (_ → _ → _))
  | (.claim _, _) | (.worker _, _) | (.startUpload .., _) | (.event _, _) | (.vaultData _, _) =>
    .isTrue trivial

end

structure Inv (s : Outbox) : Prop where
  /-- What the worker has claimed is pending until it is done with it. -/
  claimed : ∀ id point rest, s.worker = .processing id point rest →
    (id :: rest).Nodup ∧ ∀ k ∈ id :: rest, s.db.retirementPending k = true
  covered : ∀ id, hasManifestReferences s.db.toMetadata id = true → retired s.vault id = true →
    s.RetainComingBut none id ∨ s.DrainComing id

variable {lower : String → String} {s s' : Outbox} {now : Time}

theorem completes_iff {w : Worker} {id : Hash} :
    w.completes id = true ↔ ∃ rest, w = .processing id .complete rest := by
  unfold Worker.completes
  constructor
  · intro h
    split at h
    · exact ⟨_, by rw [beq_iff_eq] at h; rw [h]⟩
    · cases h
  · rintro ⟨rest, rfl⟩
    simp

theorem completes_next (claimed : List Hash) (id : Hash) :
    (Worker.next claimed).completes id = false := by
  cases claimed <;> rfl

theorem next_eq {claimed rest : List Hash} {id : Hash} {point : WorkerPoint}
    (h : Worker.next claimed = .processing id point rest) :
    claimed = id :: rest ∧ point = .firstCheck := by
  cases claimed with
  | nil => cases h
  | cons k ks =>
    simp only [Worker.next, Worker.processing.injEq] at h
    obtain ⟨rfl, rfl, rfl⟩ := h
    exact ⟨rfl, rfl⟩

theorem Inv.empty : Inv Outbox.empty where
  claimed := fun id point rest h => by cases h
  covered := fun id h _ => by cases h

theorem Inv.frame (hi : Inv s) (hw : s'.worker = s.worker)
    (hp : ∀ id, s.db.retirementPending id = true → s'.db.retirementPending id = true)
    (hret : ∀ id, retired s'.vault id = true → retired s.vault id = true)
    (hcov : ∀ id, hasManifestReferences s'.db.toMetadata id = true → retired s'.vault id = true →
      s'.RetainComingBut none id ∨ s.DrainComing id ∨
        (hasManifestReferences s.db.toMetadata id = true ∧
          (s.RetainComingBut none id → s'.RetainComingBut none id))) : Inv s' where
  claimed := fun id point rest h => by
    obtain ⟨hnd, hpend⟩ := hi.claimed id point rest (hw ▸ h)
    exact ⟨hnd, fun k hk => hp k (hpend k hk)⟩
  covered := fun id href hr => by
    have hdrain : s.DrainComing id → s'.DrainComing id := fun h => ⟨hp id h.1, hw ▸ h.2⟩
    rcases hcov id href hr with h | h | ⟨href, hret'⟩
    · exact .inl h
    · exact .inr (hdrain h)
    · exact (hi.covered id href (hret id hr)).imp hret' hdrain

theorem Inv.worker (hi : Inv s) {id : Hash} {point : WorkerPoint} {rest : List Hash} {o : Outcome}
    (hw : s.worker = .processing id point rest)
    (hdb : s'.db = (processStep s.db s.vault id rest o now point).1)
    (hv : s'.vault = (processStep s.db s.vault id rest o now point).2.1)
    (hw' : s'.worker = (processStep s.db s.vault id rest o now point).2.2)
    (hu : s'.uploads = s.uploads) : Inv s' := by
  obtain ⟨hnd, hpend⟩ := hi.claimed id point rest hw
  have hnotin : id ∉ rest := (List.nodup_cons.1 hnd).1
  have hkeep : ∀ k, s.db.retirementPending k = true → (k = id → point ≠ .complete) →
      s'.db.retirementPending k = true := fun k hk hne => hdb ▸ processStep_pending hk hne
  have hmeta : s'.db.toMetadata = s.db.toMetadata := hdb ▸ processStep_metadata ..
  constructor
  · intro id' point' rest' h
    rw [hw'] at h
    rcases processStep_worker s.db s.vault id o now rest point with hn | ⟨hne, p, hp⟩
    · rw [hn] at h
      obtain ⟨rfl, -⟩ := next_eq h
      refine ⟨(List.nodup_cons.1 hnd).2, fun k hk => ?_⟩
      exact hkeep k (hpend k (List.mem_cons_of_mem _ hk)) fun h => absurd hk (h ▸ hnotin)
    · rw [hp, Worker.processing.injEq] at h
      obtain ⟨rfl, rfl, rfl⟩ := h
      exact ⟨hnd, fun k hk => hkeep k (hpend k hk) fun _ => hne⟩
  · intro k href hr
    have hcoming : s.RetainComingBut none k → s'.RetainComingBut none k := by
      simp only [RetainComingBut, hu, imp_self]
    -- after the step the worker is about to complete only a manifest that is retained or without
    -- a reference
    have hdone : s'.worker.completes k = false := by
      by_contra hc
      obtain ⟨r, h⟩ := completes_iff.1 (by simpa using hc)
      rw [hw'] at h
      rcases processStep_worker s.db s.vault id o now rest point with hn | ⟨-, p, hp⟩
      · rw [hn] at h
        exact absurd (next_eq h).2 (by simp)
      · have h' := h
        rw [hp, Worker.processing.injEq] at h'
        obtain ⟨rfl, -, rfl⟩ := h'
        rcases processStep_complete h with hno | hno
        · rw [hmeta, hno] at href
          cases href
        · rw [hv, hno] at hr
          cases hr
    rw [hmeta] at href
    by_cases hk : k = id ∧ point = .complete
    · -- a request is completed: an upload was at its retain already
      obtain ⟨rfl, rfl⟩ := hk
      have hr : retired s.vault k = true := by
        rw [hv] at hr
        cases o <;> exact hr
      rcases hi.covered k href hr with h | h
      · exact .inl (hcoming h)
      · have hc : s.worker.completes k = true := completes_iff.2 ⟨rest, hw⟩
        rw [h.2] at hc
        cases hc
    · have hkeep := hkeep k
      by_cases hkid : k = id
      · subst hkid
        exact .inr ⟨hkeep (hpend k List.mem_cons_self) fun _ hc => hk ⟨rfl, hc⟩, hdone⟩
      · rw [hv, processStep_retired hkid] at hr
        rcases hi.covered k href hr with h | h
        · exact .inl (hcoming h)
        · exact .inr ⟨hkeep h.1 fun e => absurd e hkid, hdone⟩

theorem missed_of_retired {vault : Disk} {id : Hash} {o : Outcome}
    (hr : retired (vaultCall (fun d => Vault.retainManifest d id now) o vault).1 id = true) :
    Missed vault id o now := by
  have hact : ∀ d, Vault.retainManifest vault id now = .ok d → retired d id = false := fun d h => by
    rw [retired_updateManifestLifecycle h, if_pos rfl]
  rcases vaultCall_cases (fun d => Vault.retainManifest d id now) o vault with h | h
  · rw [hact _ h] at hr
    cases hr
  · rw [h] at hr
    refine ⟨hr, fun hd => ?_⟩
    cases hret : Vault.retainManifest vault id now with
    | error e =>
      rw [hret] at hd
      cases hd
    | ok d =>
      rw [vaultCall, hret] at h
      cases o with
      | ok => simp at h
      | failed carriedOut =>
        cases carriedOut with
        | false => rfl
        | true =>
          have hdv : d = vault := by simpa using h
          rw [← hdv, hact d hret] at hr
          cases hr

theorem Inv.upload (hi : Inv s) {t : Nat} {u : Upload} {sent : Sent} {o : Outcome}
    (hok : RetainCovered s (.upload t sent o, now)) (ht : s.uploads.lookup t = some u)
    (hs : s' = { s with
      db := (uploadStep s.db s.vault u sent o now).1
      vault := (uploadStep s.db s.vault u sent o now).2.1
      uploads := s.uploads.put t (uploadStep s.db s.vault u sent o now).2.2 }) :
    Inv s' := by
  subst hs
  refine hi.frame rfl (fun id => uploadStep_pending) (fun id => uploadStep_retired)
    fun id href hr => ?_
  -- another upload's retain is still to come
  have hother : s.RetainComingBut (some t) id → RetainComingBut { s with
      db := (uploadStep s.db s.vault u sent o now).1
      vault := (uploadStep s.db s.vault u sent o now).2.1
      uploads := s.uploads.put t (uploadStep s.db s.vault u sent o now).2.2 } none id := by
    rintro ⟨⟨t', u'⟩, hu', hne, hpt⟩
    have hne : t' ≠ t := fun h => hne (congrArg some h)
    rw [Dict.mem_toList] at hu'
    exact ⟨(t', u'), Dict.mem_toList.2 (by simpa [hne] using hu'), by simp, hpt⟩
  rcases uploadStep_references href with href | hreq
  · by_cases hat : u.point = .retain id
    · have hret : (s.uploads.lookup t).bind Upload.retains = some id := by
        simp [ht, Upload.retains, hat]
      simp only [RetainCovered, hret] at hok
      refine (hok href ?_).imp hother .inl
      simp only [uploadStep, hat] at hr
      exact missed_of_retired hr
    · refine .inr (.inr ⟨href, fun h => ?_⟩)
      obtain ⟨⟨t', u'⟩, hmem, -, hpt⟩ := h
      have hu' := Dict.mem_toList.1 hmem
      by_cases hne : t' = t
      · subst hne
        obtain rfl : u = u' := Option.some.inj (ht.symm.trans hu')
        have hreq : u.point = .requeue id := hpt.resolve_right hat
        refine ⟨(t', { u with point := .retain id }), Dict.mem_toList.2 ?_, by simp, .inr rfl⟩
        simp [uploadStep, hreq]
      · exact hother ⟨(t', u'), hmem, by simpa using hne, hpt⟩
  · -- the upload has just added a reference, and will requeue and retain
    obtain ⟨u', hu', hpt⟩ := Option.map_eq_some_iff.1 hreq
    exact .inl ⟨(t, u'), Dict.mem_toList.2 (by simpa using hu'), by simp, .inl hpt⟩

theorem Inv.step (hi : Inv s) {a : Action × Time} (hok : RetainCovered s a)
    (h : Outbox.step lower s a = some s') : Inv s' := by
  obtain ⟨a, now⟩ := a
  cases a with
  | claim locked =>
    simp only [Outbox.step] at h
    split at h
    · cases h
    · rename_i hidle
      cases h
      obtain ⟨hnd, hpend⟩ := claimable_spec s.db manifestRetirementBatchSize locked now
      constructor
      · intro id point rest hw
        obtain ⟨hc, -⟩ := next_eq hw
        rw [← hc]
        exact ⟨hnd, fun k hk => pending_claim (hpend k hk)⟩
      · intro id href hr
        exact (hi.covered id href hr).imp_right fun hd => ⟨pending_claim hd.1, completes_next _ id⟩
  | worker o =>
    simp only [Outbox.step] at h
    split at h
    · cases h
    · rename_i id point rest hw
      cases h
      exact hi.worker hw rfl rfl rfl rfl
  | startUpload t userID directoryID fileName mimeType newID =>
    simp only [Outbox.step] at h
    split at h
    · cases h
    · rename_i ht
      split at h
      · cases h
      · rename_i db' f hup
        cases h
        have halt := uploadStart_ok hup
        refine hi.frame rfl (fun id hp => ?_) (fun id hr => hr) fun id href hr => ?_
        · exact (retirementPending_congr halt.requests id).trans hp
        · have href := (halt.effect.references href).resolve_right fun hf => hf
          refine .inr (.inr ⟨href, ?_⟩)
          rintro ⟨⟨t', u⟩, hmem, hne, hpt⟩
          have hu := Dict.mem_toList.1 hmem
          have htt : t' ≠ t := by
            rintro rfl
            simp [hu] at ht
          exact ⟨(t', u), Dict.mem_toList.2 (by simpa [Dict.lookup_insert_if, htt] using hu),
            hne, hpt⟩
  | upload t sent o =>
    simp only [Outbox.step] at h
    split at h
    · cases h
    · rename_i u ht
      cases h
      exact hi.upload hok ht rfl
  | event e =>
    simp only [Outbox.step] at h
    split at h
    · cases h
    · rename_i hfin
      obtain ⟨db', hdb, rfl⟩ := Option.map_eq_some_iff.1 h
      have hfin : e.finishesUpload = false := by simpa using hfin
      refine hi.frame rfl (fun id => (step_queues hdb hfin id).1) (fun id hr => hr)
        fun id href hr => .inr (.inr ⟨step_references hdb hfin href, fun hc => hc⟩)
  | vaultData d =>
    simp only [Outbox.step, Option.some.injEq] at h
    subst h
    exact hi.frame rfl (fun id hp => hp) (fun id hr => hr)
      fun id href hr => .inr (.inr ⟨href, fun hc => hc⟩)

end Outbox

/-- **Every retired manifest with a reference has a pending request** when nothing is in flight, in
the runs whose missed retains are covered. -/
theorem content_kept {lower : String → String} {s : Outbox}
    (h : Runs.Reach (Outbox.step lower) Outbox.RetainCovered (· = Outbox.empty) s) (hq : s.Quiet)
    (manifestID : Hash) (href : hasManifestReferences s.db.toMetadata manifestID = true) :
    retired s.vault manifestID = false ∨ s.db.retirementPending manifestID = true := by
  have hi : s.Inv := h.inv (fun _ hs => hs ▸ .empty) fun _ _ _ hi hok hs => hi.step hok hs
  by_cases hr : retired s.vault manifestID = true
  · rcases hi.covered manifestID href hr with ⟨x, hx, -, -⟩ | hd
    · rw [hq.2] at hx
      cases hx
    · exact .inr hd.1
  · exact .inl (by simpa using hr)

/-! ## One retain that fails -/

namespace Outbox

/-- A file is uploaded and deleted for good. The worker claims the request of its manifest and finds
no reference; before it retires the manifest, an upload of the same content commits to Vault. -/
def missStart : List Action :=
  .vaultData sampleVault :: sampleFile "a" 20 ++ [sampleTrash 20, sampleDelete 20,
    .claim [], .worker .ok,
    .startUpload 0 1 none "b" "" 21, .upload 0 sampleSent .ok,
    .worker .ok]

def missRetain : List Action :=
  [.upload 0 sampleSent .ok, .upload 0 sampleSent .ok, .upload 0 sampleSent (.failed false)]

end Outbox

theorem content_kept_sample :
    ∃ s, Runs.Reach (Outbox.step id) Outbox.RetainCovered (· = Outbox.empty) s ∧ s.Quiet ∧
      hasManifestReferences s.db.toMetadata 2 = true ∧
      (retired s.vault 2 = false ∨ s.db.retirementPending 2 = true) := by
  -- the worker has still to check again, but its own retain fails as well
  have h : (Runs.exec (Runs.guarded (Outbox.step id) Outbox.RetainCovered) Outbox.empty
      (Outbox.atOne (Outbox.missStart ++ Outbox.missRetain ++
        [.worker .ok, .worker (.failed false), .worker .ok]))).any
      (fun s => decide s.Quiet && hasManifestReferences s.db.toMetadata 2) = true := by decide
  obtain ⟨s, hs, hf⟩ := (Option.any_eq_true _ _).1 h
  simp only [Bool.and_eq_true, decide_eq_true_eq] at hf
  have hr : Runs.Reach (Outbox.step id) Outbox.RetainCovered (· = Outbox.empty) s :=
    .exec_guarded (.init rfl) hs
  exact ⟨s, hr, hf.1, hf.2, content_kept hr hf.1 2 hf.2⟩

/-- The worker's second check comes before the upload's `MarkCommitted`, and its completion after
the requeue: the retain that fails was the last one. -/
theorem content_lost :
    ∃ s, Runs.Reach (Outbox.step id) (fun _ _ => True) (· = Outbox.empty) s ∧ s.Quiet ∧
      ∃ manifestID, hasManifestReferences s.db.toMetadata manifestID = true ∧
        retired s.vault manifestID = true ∧ s.db.retirementPending manifestID = false := by
  have h : (Runs.exec (Outbox.step id) Outbox.empty
      (Outbox.atOne (Outbox.missStart ++ .worker .ok :: Outbox.missRetain ++ [.worker .ok]))).any
      (fun s => decide s.Quiet && (hasManifestReferences s.db.toMetadata 2 &&
        (retired s.vault 2 && !s.db.retirementPending 2))) = true := by decide
  obtain ⟨s, hs, hf⟩ := (Option.any_eq_true _ _).1 h
  simp only [Bool.and_eq_true, decide_eq_true_eq, Bool.not_eq_true'] at hf
  exact ⟨s, .exec (.init rfl) (fun _ _ _ => trivial) hs, hf.1, 2, hf.2⟩

end HashBox.Api
