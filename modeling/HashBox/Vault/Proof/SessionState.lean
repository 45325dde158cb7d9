import HashBox.Vault.Proof.Failure

/-!
# The state an upload leaves its session in

The handler that `ProcessUpload` defers writes the state `failed` with the context of the request,
and `putUploadSession` looks at the context first. Whatever made the upload fail, the session is
left `failed` if the handler's write goes through and `in_progress` if it does not; it is left
`committed` just by the uploads that succeed (`processUpload_session`). So a session tells the truth
unless the upload fails and the handler finds its context cancelled (`session_truthful_iff`), which
is what a client brings about that goes away during the upload.
-/

namespace HashBox.Vault

variable {blake3 : Bytes → Hash} {env : UploadEnv} {cfg : FastCdc.Config} {d d' : Disk}

/-! ## What leaves the sessions as they are -/

theorem writeChunkIfMissing_uploads (d : Disk) (h : Hash) (c : Bytes) (now : Time) :
    (writeChunkIfMissing d h c now).uploads = d.uploads := by
  unfold writeChunkIfMissing
  split <;> rfl

theorem putNewChunk_uploads (d : Disk) (h : Hash) (n : Nat) (now : Time) :
    (putNewChunk d h n now).2.uploads = d.uploads := by
  unfold putNewChunk
  split <;> rfl

theorem touchChunk_uploads (blake3 : Bytes → Hash) (env : UploadEnv) (index : Nat) (d : Disk)
    (c : Bytes) : (touchChunk blake3 env index d c).2.uploads = d.uploads := by
  unfold touchChunk
  split
  · rfl
  · split
    · split
      · rfl
      · split
        · rfl
        · exact writeChunkIfMissing_uploads ..
    · split
      · rfl
      · dsimp only
        split
        · exact writeChunkIfMissing_uploads ..
        · exact (putNewChunk_uploads ..).trans (writeChunkIfMissing_uploads ..)

theorem uploadChunks_uploads (blake3 : Bytes → Hash) (env : UploadEnv) (cs : List Bytes) :
    ∀ (u : UploadLoop) (d : Disk), (uploadChunks blake3 env cs u d).2.uploads = d.uploads := by
  induction cs with
  | nil =>
    intro u d
    unfold uploadChunks
    split <;> rfl
  | cons c rest ih =>
    intro u d
    have htouch := touchChunk_uploads blake3 env u.chunkHashes.length d c
    unfold uploadChunks
    dsimp only
    split
    · rfl
    · split
      · next e d1 he => rw [he] at htouch; exact htouch
      · next created d1 he => rw [he] at htouch; exact (ih _ d1).trans htouch

theorem commit_uploads {m : ManifestRecord} (h : commitManifestAndChunkRefs d m = .ok d') :
    d'.uploads = d.uploads := by
  rcases commit_ok h with ⟨_, -, -, -, rfl⟩ | ⟨_, -, -, -, rfl⟩ | ⟨-, _, -, rfl⟩ <;> rfl

/-! ## The ways out of an upload -/

/-- What the upload leaves of the sessions before the deferred handler runs: with a result its own
is stored as committed, with an error all are as they were. -/
inductive SessionEnd (session : UploadSessionRecord) (d d' : Disk) :
    Except Error UploadCommitResult → UploadSessionRecord → Prop
  | committed {r : UploadCommitResult} {s : UploadSessionRecord} :
    s.sessionID = session.sessionID → s.state = .committed →
    d'.uploads = d.uploads.insert s.sessionID s → SessionEnd session d d' (.ok r) s
  | failed {e : Error} {s : UploadSessionRecord} :
    s.sessionID = session.sessionID → d'.uploads = d.uploads → SessionEnd session d d' (.error e) s

theorem commitUpload_sessionEnd (blake3 : Bytes → Hash) (env : UploadEnv)
    (session : UploadSessionRecord) (u : UploadLoop) (d : Disk) :
    SessionEnd session d (commitUpload blake3 env session u d).2.2
      (commitUpload blake3 env session u d).1 (commitUpload blake3 env session u d).2.1 := by
  unfold commitUpload
  dsimp only
  split
  · exact .failed rfl rfl
  · split
    · exact .failed rfl rfl
    · split
      · exact .failed rfl rfl
      · next d2 hc =>
        have hcommit := commit_uploads hc
        split
        · exact .failed rfl hcommit
        · refine .committed rfl rfl ?_
          rw [putUploadSession, hcommit]

theorem uploadBody_sessionEnd (blake3 : Bytes → Hash) (env : UploadEnv) (cfg : FastCdc.Config)
    (session : UploadSessionRecord) (bytes : Bytes) (d : Disk) :
    SessionEnd session d (uploadBody blake3 env cfg session bytes d).2.2
      (uploadBody blake3 env cfg session bytes d).1
      (uploadBody blake3 env cfg session bytes d).2.1 := by
  unfold uploadBody
  split
  · exact .failed rfl rfl
  · next cs hcs =>
    have hchunks := uploadChunks_uploads blake3 env cs .init d
    split
    · next e d1 he => rw [he] at hchunks; exact .failed rfl hchunks
    · next u d1 he =>
      rw [he] at hchunks
      have hend := commitUpload_sessionEnd blake3 env session u d1
      generalize (commitUpload blake3 env session u d1).1 = r at hend ⊢
      cases hend with
      | committed hid hstate hput => exact .committed hid hstate (by rw [hput, hchunks])
      | failed hid hput => exact .failed hid (hput.trans hchunks)

/-- **The session of an upload that has returned.** It is committed with a result; with an error it
is failed if the handler's write goes through, and in progress else. -/
theorem processUpload_session (blake3 : Bytes → Hash) (cfg : FastCdc.Config) (fileName : String)
    (bytes : Bytes) (d : Disk) (hstart : env.fault .start = none)
    (hcreate : env.fault .createSession = none) :
    ∃ s, (processUpload blake3 env cfg fileName bytes d).2.uploads.lookup env.sessionID = some s ∧
      s.state = match (processUpload blake3 env cfg fileName bytes d).1 with
        | .ok _ => .committed
        | .error _ => if env.fault .markFailed = none then .failed else .inProgress := by
  let session := newUploadSession env.sessionID fileName (env.clock .createSession)
  have hid : session.sessionID = env.sessionID := rfl
  have hend := uploadBody_sessionEnd blake3 env cfg session bytes (putUploadSession d session)
  unfold processUpload
  simp only [hstart, hcreate]
  rw [show newUploadSession env.sessionID fileName (env.clock .createSession) = session from rfl]
  generalize uploadBody blake3 env cfg session bytes (putUploadSession d session) = out at hend ⊢
  obtain ⟨result, s, d1⟩ := out
  cases hend with
  | committed hs hstate hput =>
    refine ⟨s, ?_, hstate⟩
    dsimp only at hput ⊢
    rw [hput, ← hid, ← hs]
    exact (Dict.lookup_insert_if ..).trans (if_pos rfl)
  | failed hs hput =>
    dsimp only at hput ⊢
    cases hmark : env.fault .markFailed with
    | none =>
      refine ⟨{ s with state := .failed }, ?_, rfl⟩
      rw [← hid, ← hs]
      exact (Dict.lookup_insert_if ..).trans (if_pos rfl)
    | some e' =>
      refine ⟨session, ?_, rfl⟩
      dsimp only
      rw [hput, ← hid]
      exact (Dict.lookup_insert_if ..).trans (if_pos rfl)

/-! ## The uploads that succeed -/

/-- The upload gets to its commit, the manifest stored under its hash, if there is one, is valid,
and the session's last update does not fail. -/
structure UploadEnv.Succeeds (blake3 : Bytes → Hash) (env : UploadEnv) (cfg : FastCdc.Config)
    (bytes : Bytes) (d : Disk) : Prop extends env.Commits blake3 cfg bytes d where
  manifest : ∀ m, d.manifests.lookup (blake3 bytes) = some m → validateManifest m = .ok ()
  finish : env.fault .finish = none

theorem processUpload_ok_commits {fileName : String} {bytes : Bytes} {r : UploadCommitResult}
    (h : (processUpload blake3 env cfg fileName bytes d).1 = .ok r) :
    uploadCommits blake3 env cfg fileName bytes d := by
  have body : ∀ session d', (uploadBody blake3 env cfg session bytes d').1 = .ok r →
      env.fault .commit = none ∧ ∃ cs u, FastCdc.split cfg bytes = .ok cs ∧
        (uploadChunks blake3 env cs .init d').1 = .ok u ∧ u.totalSize ≠ 0 := by
    intro session d' hr
    unfold uploadBody at hr
    split at hr
    · cases hr
    · next cs hcs =>
      split at hr
      · cases hr
      · next u d1 he =>
        unfold commitUpload at hr
        dsimp only at hr
        split at hr
        · cases hr
        · next hne =>
          split at hr
          · cases hr
          · next hcommit => exact ⟨hcommit, cs, u, hcs, by rw [he], hne⟩
  unfold processUpload at h
  split at h
  · cases h
  · cases h
  · next hstart hcreate =>
    dsimp only at h
    split at h
    · next r' s d1 he =>
      cases h
      obtain ⟨hcommit, hrest⟩ := body _ _ (congrArg Prod.fst he)
      exact ⟨hstart, hcreate, hcommit, hrest⟩
    · split at h <;> cases h

/-- The commit of an upload is refused only for the manifest stored before. -/
theorem uploadManifest_commit (env : UploadEnv) {bytes : Bytes}
    (hp : ∀ c ∈ FastCdc.chunks cfg bytes, d.present (blake3 c))
    (hm : ∀ m, d.manifests.lookup (blake3 bytes) = some m → validateManifest m = .ok ()) :
    ∃ d', commitManifestAndChunkRefs d (uploadManifest blake3 env cfg bytes) = .ok d' := by
  refine commit_total (uploadManifest_valid ..) hm fun h hh => ?_
  obtain ⟨c, hc, rfl⟩ := List.mem_map.1 hh
  exact (hp c hc).1

theorem processUpload_ok_manifest {fileName : String} {bytes : Bytes} {r : UploadCommitResult}
    (h : (processUpload blake3 env cfg fileName bytes d).1 = .ok r) (m : ManifestRecord)
    (hm : d.manifests.lookup (blake3 bytes) = some m) : validateManifest m = .ok () := by
  obtain ⟨d1, htouch, hend⟩ := processUpload_touched blake3 env cfg fileName bytes d
  rw [h] at hend
  rw [← htouch.addsChunks.manifests] at hm
  cases hend with
  | committed _ hc _ _ =>
    rcases commit_ok hc with ⟨e, he, hv, -⟩ | ⟨e, he, hv, -⟩ | ⟨hn, -⟩
    · cases hm.symm.trans he
      exact hv
    · cases hm.symm.trans he
      exact hv
    · cases hm.symm.trans hn

/-- **Which uploads succeed.** -/
theorem processUpload_ok_iff (blake3 : Bytes → Hash) (env : UploadEnv) (cfg : FastCdc.Config)
    (fileName : String) (bytes : Bytes) (d : Disk) :
    (∃ r, (processUpload blake3 env cfg fileName bytes d).1 = .ok r) ↔
      env.Succeeds blake3 cfg bytes d := by
  have isOk : ∀ x : Except Error UploadCommitResult, (∃ r, x = .ok r) ↔ ¬ ∃ e, x = .error e := by
    rintro (e | r) <;> simp
  -- an upload that gets to its commit with a valid manifest stored fails at its last update only
  have accepted : env.Commits blake3 cfg bytes d →
      (∀ m, d.manifests.lookup (blake3 bytes) = some m → validateManifest m = .ok ()) →
      ((∃ r, (processUpload blake3 env cfg fileName bytes d).1 = .ok r) ↔
        env.fault .finish = none) := by
    intro hcom hm
    obtain ⟨d1, htouch, hp, hend⟩ := processUpload_commits fileName hcom
    rw [← htouch.addsChunks.manifests] at hm
    obtain ⟨d2, hc⟩ := uploadManifest_commit env hp hm
    rcases hend with ⟨hno, -⟩ | ⟨-, -, -, herr⟩
    · exact absurd hc (hno d2)
    · rw [isOk, herr, not_not]
  constructor
  · rintro ⟨r, hr⟩
    have hcom := (env.commits_iff blake3 cfg fileName bytes d).1 (processUpload_ok_commits hr)
    have hm := processUpload_ok_manifest hr
    exact ⟨hcom, hm, (accepted hcom hm).1 ⟨r, hr⟩⟩
  · exact fun h => (accepted h.toCommits h.manifest).2 h.finish

/-! ## Truthful sessions -/

/-- Once the upload has created its session and returned, the stored session is committed just if
the upload returned a result, and failed just if it returned an error. -/
def SessionTruthful (blake3 : Bytes → Hash) (env : UploadEnv) (cfg : FastCdc.Config)
    (fileName : String) (bytes : Bytes) (d : Disk) : Prop :=
  env.fault .start = none → env.fault .createSession = none →
    ∃ s, (processUpload blake3 env cfg fileName bytes d).2.uploads.lookup env.sessionID = some s ∧
      (s.state = .committed ↔
        ∃ r, (processUpload blake3 env cfg fileName bytes d).1 = .ok r) ∧
      (s.state = .failed ↔ ∃ e, (processUpload blake3 env cfg fileName bytes d).1 = .error e)

/-- **When the session an upload leaves tells the truth.** Unless the handler's own write fails, as
it does with a cancelled context, in an upload that does not succeed. -/
theorem session_truthful_iff (blake3 : Bytes → Hash) (env : UploadEnv) (cfg : FastCdc.Config)
    (fileName : String) (bytes : Bytes) (d : Disk) :
    SessionTruthful blake3 env cfg fileName bytes d ↔
      (env.fault .start = none → env.fault .createSession = none →
        env.fault .markFailed = none ∨ env.Succeeds blake3 cfg bytes d) := by
  refine imp_congr_right fun hstart => imp_congr_right fun hcreate => ?_
  rw [← processUpload_ok_iff blake3 env cfg fileName bytes d]
  obtain ⟨s, hs, hstate⟩ := processUpload_session blake3 cfg fileName bytes d hstart hcreate
  rw [hs]
  simp only [Option.some.injEq, exists_eq_left']
  rw [hstate]
  cases (processUpload blake3 env cfg fileName bytes d).1 with
  | ok r => simp
  | error e => cases env.fault .markFailed <;> simp

/-- The client goes away once its session is stored, and its context is cancelled from then on. -/
def UploadEnv.disconnected (sessionID : SessionID) (now : Time) : UploadEnv :=
  { UploadEnv.calm sessionID now with
    fault := fun op => if op = .start ∨ op = .createSession then none
      else some (.other "context canceled") }

/-- The upload returns the context's error, and its session stays in progress. -/
theorem session_truthful_fails :
    ¬ SessionTruthful sampleHash (.disconnected 1 5) (sampleConfig 1) "a.bin" [7, 8] .empty := by
  intro h
  obtain ⟨s, hs, -, hfailed⟩ := h rfl rfl
  have returned : (processUpload sampleHash (.disconnected 1 5) (sampleConfig 1) "a.bin" [7, 8]
      .empty).1.toOption.isNone = true := by decide
  have stored : ((processUpload sampleHash (.disconnected 1 5) (sampleConfig 1) "a.bin" [7, 8]
      .empty).2.uploads.lookup 1).map UploadSessionRecord.state = some .inProgress := by decide
  rw [show (UploadEnv.disconnected 1 5).sessionID = 1 from rfl] at hs
  rw [hs] at stored
  cases hr : (processUpload sampleHash (.disconnected 1 5) (sampleConfig 1) "a.bin" [7, 8]
      .empty).1 with
  | ok x => rw [hr] at returned; cases returned
  | error e =>
    have hstate := hfailed.2 ⟨e, hr⟩
    cases (Option.some.inj stored).symm.trans hstate

end HashBox.Vault
