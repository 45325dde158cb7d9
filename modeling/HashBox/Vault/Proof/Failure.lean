import HashBox.Vault.Proof.RefCounts

/-!
# Uploads that return an error

What an upload does before its commit transaction changes no manifest and no count, and the
transaction is all-or-nothing. The session's last update comes after it, and its error is returned
as the upload's. `processUpload_atomic_iff` says which uploads return an error after they changed
the manifests: those that clear every operation up to that update, which fails, and whose manifest
was not stored or was retired.
-/

namespace HashBox.Vault

variable {blake3 : Bytes → Hash} {env : UploadEnv} {cfg : FastCdc.Config} {d d' : Disk}

/-! ## Manifests and counts -/

def Disk.refCount (d : Disk) (h : Hash) : Int :=
  (d.chunks.lookup h).elim 0 ChunkRecord.manifestRefCount

/-- The manifest records, with their retired flags, and the counts of all chunks are the same. -/
structure Disk.SameReferences (d d' : Disk) : Prop where
  manifests : d'.manifests = d.manifests
  refCount : ∀ h, d'.refCount h = d.refCount h

theorem Disk.SameData.refCount (hs : d.SameData d') (h : Hash) : d'.refCount h = d.refCount h := by
  unfold Disk.refCount
  rw [hs.chunks]

theorem putNewChunk_refCount (d : Disk) (h : Hash) (n : Nat) (now : Time) (k : Hash) :
    (putNewChunk d h n now).2.refCount k = d.refCount k := by
  unfold putNewChunk
  split
  · rfl
  · next hn =>
    simp only [Disk.refCount, Dict.lookup_insert_if]
    split
    · next hk => rw [hk, hn]; rfl
    · rfl

theorem Disk.Touched.refCount {cs : List Bytes} (h : d.Touched blake3 env cs d') (k : Hash) :
    d'.refCount k = d.refCount k := by
  induction h with
  | refl => rfl
  | @write d1 c index _ _ ih =>
    refine Eq.trans ?_ ih
    unfold Disk.refCount writeChunkIfMissing
    split <;> rfl
  | putRecord index _ _ _ ih => exact (putNewChunk_refCount ..).trans ih
  | session r _ ih => exact ih

/-! ## The operations on the chunks -/

/-- **When a chunk is processed without error**: a file is written if the chunk is not present, and
a record stored if it has none. -/
theorem touchChunk_ok_iff (blake3 : Bytes → Hash) (env : UploadEnv) (index : Nat) (d : Disk)
    (c : Bytes) :
    (∃ created, (touchChunk blake3 env index d c).1 = .ok created) ↔
      env.fault (.getChunk index) = none ∧
      (¬ d.present (blake3 c) → env.fault (.persist index) = none) ∧
      (¬ d.hasRecord (blake3 c) → env.fault (.putRecord index) = none) := by
  unfold touchChunk
  cases env.fault (.getChunk index) with
  | some e => simp
  | none =>
    cases hr : getChunk d (blake3 c) with
    | some r =>
      have hrec : d.hasRecord (blake3 c) := by rw [Disk.hasRecord, ← getChunk, hr]; rfl
      by_cases hf : (d.files.lookup (blake3 c)).isSome
      · simp [hf, hrec, Disk.present, Disk.hasFile]
      · cases hp : env.fault (.persist index) <;>
          simp [hf, hrec, Disk.present, Disk.hasFile]
    | none =>
      have hrec : ¬ d.hasRecord (blake3 c) := by rw [Disk.hasRecord, ← getChunk, hr]; simp
      cases hp : env.fault (.persist index) with
      | some e => simp [hrec, Disk.present]
      | none => cases hq : env.fault (.putRecord index) <;> simp [hrec, Disk.present]

/-- What a processed chunk adds to the disk. -/
theorem touchChunk_ok {index : Nat} {c : Bytes} {created : Bool}
    (h : touchChunk blake3 env index d c = (.ok created, d')) (k : Hash) :
    (d'.hasRecord k ↔ d.hasRecord k ∨ k = blake3 c) ∧
      (d'.hasFile k ↔ d.hasFile k ∨ k = blake3 c) := by
  unfold touchChunk at h
  split at h
  · cases h
  · split at h
    · next r hr =>
      have hrec : k = blake3 c → d.hasRecord k := by
        rintro rfl
        rw [Disk.hasRecord, ← getChunk, hr]
        rfl
      split at h
      · next hf =>
        cases h
        exact ⟨(or_iff_left_of_imp hrec).symm, (or_iff_left_of_imp fun he => he ▸ hf).symm⟩
      · split at h
        · cases h
        · cases h
          rw [writeChunkIfMissing_hasRecord, writeChunkIfMissing_hasFile_iff]
          exact ⟨(or_iff_left_of_imp hrec).symm, .rfl⟩
    · split at h
      · cases h
      · dsimp only at h
        split at h
        · cases h
        · cases h
          rw [putNewChunk_hasRecord_iff, writeChunkIfMissing_hasRecord, putNewChunk_hasFile,
            writeChunkIfMissing_hasFile_iff]
          exact ⟨.rfl, .rfl⟩

/-- None of the operations on the chunk at `i` of the stream fails: the chunk is received and its
record looked for, and unless the stream brought it before, what the disk lacks of it is written.
At the end of the stream there is only the error of the splitter to receive. -/
def UploadEnv.ClearsAt (blake3 : Bytes → Hash) (env : UploadEnv) (d : Disk) (cs : List Bytes)
    (i : Nat) : Prop :=
  env.fault (.receive i) = none ∧ ∀ c, cs[i]? = some c →
    env.fault (.getChunk i) = none ∧ (blake3 c ∉ (cs.take i).map blake3 →
      (¬ d.present (blake3 c) → env.fault (.persist i) = none) ∧
      (¬ d.hasRecord (blake3 c) → env.fault (.putRecord i) = none))

/-- **When the loop over the chunks ends without error**, from the point where it has processed
`pre` of the stream `pre ++ rest`. -/
theorem uploadChunks_ok_iff (blake3 : Bytes → Hash) (env : UploadEnv) (d : Disk)
    (rest : List Bytes) : ∀ (pre : List Bytes) (u : UploadLoop) (d1 : Disk),
    u.chunkHashes = pre.map blake3 →
    (∀ k, d1.hasRecord k ↔ d.hasRecord k ∨ k ∈ pre.map blake3) →
    (∀ k, d1.hasFile k ↔ d.hasFile k ∨ k ∈ pre.map blake3) →
    ((∃ u', (uploadChunks blake3 env rest u d1).1 = .ok u') ↔
      ∀ i, pre.length ≤ i → i ≤ (pre ++ rest).length →
        env.ClearsAt blake3 d (pre ++ rest) i) := by
  induction rest with
  | nil =>
    intro pre u d1 hu _ _
    have hlen : u.chunkHashes.length = pre.length := by rw [hu, List.length_map]
    have hend : (∃ u', (uploadChunks blake3 env [] u d1).1 = .ok u') ↔
        env.fault (.receive pre.length) = none := by
      unfold uploadChunks
      rw [hlen]
      cases env.fault (.receive pre.length) <;> simp
    rw [hend, List.append_nil]
    constructor
    · intro h i h1 h2
      obtain rfl : i = pre.length := Nat.le_antisymm h2 h1
      exact ⟨h, fun c hc => by simp at hc⟩
    · exact fun h => (h pre.length (Nat.le_refl _) (Nat.le_refl _)).1
  | cons c rest ih =>
    intro pre u d1 hu hrec hfile
    have hlen : u.chunkHashes.length = pre.length := by rw [hu, List.length_map]
    have hassoc : pre ++ c :: rest = (pre ++ [c]) ++ rest := by simp
    -- the chunk at hand: what the disk lacks of it now it lacked before the stream
    have hhead : env.ClearsAt blake3 d (pre ++ c :: rest) pre.length ↔
        env.fault (.receive pre.length) = none ∧
          ∃ created, (touchChunk blake3 env pre.length d1 c).1 = .ok created := by
      have hpres : d1.present (blake3 c) ↔ d.present (blake3 c) ∨ blake3 c ∈ pre.map blake3 := by
        rw [Disk.present, hrec, hfile, Disk.present, ← and_or_right]
      rw [touchChunk_ok_iff, hpres, hrec]
      simp only [UploadEnv.ClearsAt, List.getElem?_append_right (Nat.le_refl _), Nat.sub_self,
        List.getElem?_cons_zero, Option.some.injEq, forall_eq', List.take_left', not_or]
      tauto
    have hsplit : (∀ i, pre.length ≤ i → i ≤ (pre ++ c :: rest).length →
          env.ClearsAt blake3 d (pre ++ c :: rest) i) ↔
        env.ClearsAt blake3 d (pre ++ c :: rest) pre.length ∧
          ∀ i, (pre ++ [c]).length ≤ i → i ≤ ((pre ++ [c]) ++ rest).length →
            env.ClearsAt blake3 d ((pre ++ [c]) ++ rest) i := by
      rw [← hassoc, @List.length_append _ pre [c], List.length_singleton]
      constructor
      · exact fun h => ⟨h _ (Nat.le_refl _) (by simp), fun i h1 => h i (by omega)⟩
      · rintro ⟨h0, h⟩ i h1 h2
        rcases Nat.eq_or_lt_of_le h1 with rfl | h1
        · exact h0
        · exact h i h1 h2
    rw [hsplit, hhead]
    unfold uploadChunks
    dsimp only
    rw [hlen]
    cases env.fault (.receive pre.length) with
    | some e => simp
    | none =>
      dsimp only
      cases ht : touchChunk blake3 env pre.length d1 c with
      | mk r d2 =>
        cases r with
        | error e => simp
        | ok created =>
          have hadd := touchChunk_ok ht
          simp only [Except.ok.injEq, exists_eq', and_self, true_and]
          refine ih (pre ++ [c]) _ d2 ?_ (fun k => ?_) (fun k => ?_)
          · simp only [hu, List.map_append, List.map_cons, List.map_nil]
          · simp only [(hadd k).1, hrec, List.map_append, List.mem_append, List.map_cons,
              List.map_nil, List.mem_singleton, or_assoc]
          · simp only [(hadd k).2, hfile, List.map_append, List.mem_append, List.map_cons,
              List.map_nil, List.mem_singleton, or_assoc]

/-! ## The commit, and what comes after it -/

/-- No operation fails that the upload comes to before its commit is done, and the commit has an
object to store. -/
structure UploadEnv.Commits (blake3 : Bytes → Hash) (env : UploadEnv) (cfg : FastCdc.Config)
    (bytes : Bytes) (d : Disk) : Prop where
  start : env.fault .start = none
  createSession : env.fault .createSession = none
  config : cfg.validate = .ok ()
  chunk : ∀ i ≤ (FastCdc.chunks cfg bytes).length,
    env.ClearsAt blake3 d (FastCdc.chunks cfg bytes) i
  nonempty : bytes ≠ []
  commit : env.fault .commit = none

theorem UploadEnv.commits_iff (blake3 : Bytes → Hash) (env : UploadEnv) (cfg : FastCdc.Config)
    (fileName : String) (bytes : Bytes) (d : Disk) :
    uploadCommits blake3 env cfg fileName bytes d ↔ env.Commits blake3 cfg bytes d := by
  let d0 := putUploadSession d (newUploadSession env.sessionID fileName (env.clock .createSession))
  have hloop : (∃ u, (uploadChunks blake3 env (FastCdc.chunks cfg bytes) .init d0).1 = .ok u) ↔
      ∀ i ≤ (FastCdc.chunks cfg bytes).length,
        env.ClearsAt blake3 d (FastCdc.chunks cfg bytes) i := by
    have h := uploadChunks_ok_iff blake3 env d (FastCdc.chunks cfg bytes) [] .init d0 rfl
      (fun k => by simp [d0, putUploadSession, Disk.hasRecord])
      (fun k => by simp [d0, putUploadSession, Disk.hasFile])
    simpa using h
  have hsize : ∀ u, (uploadChunks blake3 env (FastCdc.chunks cfg bytes) .init d0).1 = .ok u →
      (u.totalSize ≠ 0 ↔ bytes ≠ []) := by
    intro u hu
    obtain ⟨-, -, h, -⟩ := (uploadChunks_spec blake3 env _ .init d0).2 u hu
    rw [h, UploadLoop.init, FastCdc.chunks_flatten, Int.zero_add, ne_eq, ne_eq,
      Int.natCast_eq_zero, List.length_eq_zero_iff]
  constructor
  · rintro ⟨h1, h2, h3, cs, u, hcs, hu, hne⟩
    obtain ⟨rfl, hv⟩ := FastCdc.split_ok hcs
    exact ⟨h1, h2, hv, hloop.1 ⟨u, hu⟩, (hsize u hu).1 hne, h3⟩
  · intro h
    obtain ⟨u, hu⟩ := hloop.2 h.chunk
    refine ⟨h.start, h.createSession, h.commit, _, u, ?_, hu, (hsize u hu).2 h.nonempty⟩
    rw [FastCdc.split, h.config]
    rfl

def uploadManifest (blake3 : Bytes → Hash) (env : UploadEnv) (cfg : FastCdc.Config)
    (bytes : Bytes) : ManifestRecord :=
  newManifest (blake3 bytes) ((FastCdc.chunks cfg bytes).map blake3) bytes.length
    (env.clock .newManifest)

theorem uploadManifest_valid (blake3 : Bytes → Hash) (env : UploadEnv) (cfg : FastCdc.Config)
    (bytes : Bytes) : validateManifest { uploadManifest blake3 env cfg bytes with
      fileHash := (uploadManifest blake3 env cfg bytes).manifestID } = .ok () :=
  validateManifest_ok.2 ⟨rfl, rfl, Int.natCast_nonneg _, rfl, fun hr => by cases hr⟩

/-- **An upload that gets to its commit.** It returns an error just if the commit or the session's
update fails, and the commit's changes are stored in the second case too. -/
theorem processUpload_commits {bytes : Bytes} (fileName : String)
    (h : env.Commits blake3 cfg bytes d) :
    ∃ d1, d.Touched blake3 env (FastCdc.chunks cfg bytes) d1 ∧
      (∀ c ∈ FastCdc.chunks cfg bytes, d1.present (blake3 c)) ∧
      ((∀ d2, commitManifestAndChunkRefs d1 (uploadManifest blake3 env cfg bytes) ≠ .ok d2) ∧
        d1.SameData (processUpload blake3 env cfg fileName bytes d).2 ∨
      ∃ d2, commitManifestAndChunkRefs d1 (uploadManifest blake3 env cfg bytes) = .ok d2 ∧
        d2.SameData (processUpload blake3 env cfg fileName bytes d).2 ∧
        ((∃ e, (processUpload blake3 env cfg fileName bytes d).1 = .error e) ↔
          env.fault .finish ≠ none)) := by
  obtain ⟨h1, h2, h3, cs, u, hcs, hu, hne⟩ :=
    (env.commits_iff blake3 cfg fileName bytes d).2 h
  obtain ⟨rfl, -⟩ := FastCdc.split_ok hcs
  let session := newUploadSession env.sessionID fileName (env.clock .createSession)
  obtain ⟨htouch, hspec⟩ := uploadChunks_spec blake3 env (FastCdc.chunks cfg bytes) .init
    (putUploadSession d session)
  obtain ⟨hw, hh, ht, hp⟩ := hspec u hu
  rw [UploadLoop.init, List.nil_append, FastCdc.chunks_flatten] at hw
  rw [UploadLoop.init, List.nil_append] at hh
  rw [UploadLoop.init, Int.zero_add, FastCdc.chunks_flatten] at ht
  refine ⟨_, (Disk.Touched.session session .refl).trans htouch, hp, ?_⟩
  have hman : newManifest (blake3 u.written) u.chunkHashes u.totalSize (env.clock .newManifest) =
      uploadManifest blake3 env cfg bytes := by
    rw [hw, hh, ht, uploadManifest]
  generalize hres : uploadChunks blake3 env (FastCdc.chunks cfg bytes) .init
    (putUploadSession d session) = res at *
  obtain ⟨_, d1⟩ := res
  cases hu
  have hbody : uploadBody blake3 env cfg session bytes (putUploadSession d session) =
      commitUpload blake3 env session u d1 := by
    simp only [uploadBody, hcs, hres]
  unfold processUpload
  simp only [h1, h2]
  rw [show newUploadSession env.sessionID fileName (env.clock .createSession) = session from rfl,
    hbody]
  unfold commitUpload
  rw [if_neg hne]
  simp only [h3, hman]
  cases hc : commitManifestAndChunkRefs d1 (uploadManifest blake3 env cfg bytes) with
  | error e =>
    refine .inl ⟨fun d2 h => (by cases h), ?_⟩
    cases env.fault .markFailed with
    | none => exact putUploadSession_same ..
    | some e' => exact .refl d1
  | ok d2 =>
    refine .inr ⟨d2, rfl, ?_⟩
    cases env.fault .finish with
    | none => exact ⟨putUploadSession_same .., by simp⟩
    | some e =>
      dsimp only
      cases env.fault .markFailed with
      | none => exact ⟨putUploadSession_same .., by simp⟩
      | some e' => exact ⟨.refl d2, by simp⟩

/-- The commit of the manifest would change the manifests: it is not stored, or it is stored,
valid and retired. -/
def Disk.changedBy (d : Disk) (manifestID : Hash) : Prop :=
  ∀ m, d.manifests.lookup manifestID = some m → validateManifest m = .ok () ∧ m.retired = true

/-- The upload's commit changes the manifests, and its session's last update fails. -/
structure UploadEnv.FailsCommitted (blake3 : Bytes → Hash) (env : UploadEnv)
    (cfg : FastCdc.Config) (bytes : Bytes) (d : Disk) : Prop extends
    env.Commits blake3 cfg bytes d where
  manifest : d.changedBy (blake3 bytes)
  finish : env.fault .finish ≠ none

/-- **When a commit changes the manifests.** Its manifest is valid and its chunks are present. -/
theorem commit_changes_iff {bytes : Bytes}
    (hp : ∀ c ∈ FastCdc.chunks cfg bytes, d.present (blake3 c)) :
    (∃ d', commitManifestAndChunkRefs d (uploadManifest blake3 env cfg bytes) = .ok d' ∧
      d'.manifests ≠ d.manifests) ↔ d.changedBy (blake3 bytes) := by
  constructor
  · rintro ⟨d', hc, hne⟩ m hm
    rcases commit_ok hc with ⟨e, -, -, -, rfl⟩ | ⟨e, he, hv, hr, -⟩ | ⟨hn, -⟩
    · exact absurd rfl hne
    · cases hm.symm.trans he
      exact ⟨hv, hr⟩
    · cases hm.symm.trans hn
  · intro h
    unfold commitManifestAndChunkRefs
    simp only [uploadManifest_valid]
    rw [show (uploadManifest blake3 env cfg bytes).manifestID = blake3 bytes from rfl]
    cases hm : d.manifests.lookup (blake3 bytes) with
    | some m =>
      obtain ⟨hv, hr⟩ := h m hm
      simp only [hv, hr, if_true]
      refine ⟨_, rfl, fun heq => ?_⟩
      have hactive := congrArg ManifestRecord.retired
        (Option.some.inj (hm.symm.trans (Dict.lookup_of_insert_eq heq)))
      rw [hr] at hactive
      cases hactive
    | none =>
      obtain ⟨chunks, hcs⟩ := addChunkRefs_total (uploadManifest blake3 env cfg bytes).chunkHashes
        (uploadManifest blake3 env cfg bytes).chunkHashes.dedup d.chunks (by
          intro k hk
          obtain ⟨c, hc, rfl⟩ := List.mem_map.1 (List.mem_dedup.1 hk)
          exact (hp c hc).1)
      simp only [hcs]
      exact ⟨_, rfl, fun heq => by cases hm.symm.trans (Dict.lookup_of_insert_eq heq)⟩

/-- **An upload changes the counts only with the manifests.** -/
theorem processUpload_sameReferences (blake3 : Bytes → Hash) (env : UploadEnv)
    (cfg : FastCdc.Config) (fileName : String) (bytes : Bytes) (d : Disk) :
    d.SameReferences (processUpload blake3 env cfg fileName bytes d).2 ↔
      (processUpload blake3 env cfg fileName bytes d).2.manifests = d.manifests := by
  refine ⟨fun h => h.manifests, fun hm => ⟨hm, fun h => ?_⟩⟩
  obtain ⟨d1, htouch, hend⟩ := processUpload_touched blake3 env cfg fileName bytes d
  rw [← htouch.refCount h]
  rw [← htouch.addsChunks.manifests] at hm
  generalize (processUpload blake3 env cfg fileName bytes d).1 = r at hend
  cases hend with
  | failed hs => exact hs.refCount h
  | committed _ hc hs _ =>
    rw [hs.refCount h]
    rcases commit_ok hc with ⟨-, -, -, -, rfl⟩ | ⟨-, -, -, -, rfl⟩ | ⟨hn, _, _, rfl⟩
    · rfl
    · rfl
    · -- a new manifest is stored, so the manifests are not the same
      cases hn.symm.trans (Dict.lookup_of_insert_eq (hs.manifests.symm.trans hm))

/-- **Which failed uploads change something.** An upload that returns an error leaves the manifests,
their retired flags and all counts as they were, unless nothing before its session's last update
fails, that update does, and its commit changed the manifests. -/
theorem processUpload_atomic_iff (blake3 : Bytes → Hash) (env : UploadEnv) (cfg : FastCdc.Config)
    (fileName : String) (bytes : Bytes) (d : Disk) :
    (∀ e, (processUpload blake3 env cfg fileName bytes d).1 = .error e →
      d.SameReferences (processUpload blake3 env cfg fileName bytes d).2) ↔
      ¬ env.FailsCommitted blake3 cfg bytes d := by
  simp only [processUpload_sameReferences]
  constructor
  · intro hatomic hfc
    obtain ⟨d1, htouch, hp, hend⟩ := processUpload_commits fileName hfc.toCommits
    have hchanged : d1.changedBy (blake3 bytes) := by
      unfold Disk.changedBy
      rw [htouch.addsChunks.manifests]
      exact hfc.manifest
    obtain ⟨d2, hc, hne⟩ := (@commit_changes_iff _ env _ _ _ hp).2 hchanged
    rcases hend with ⟨hno, -⟩ | ⟨d2', hc', hs, herr⟩
    · exact hno d2 hc
    · cases hc.symm.trans hc'
      obtain ⟨e, he⟩ := herr.2 hfc.finish
      exact hne ((hs.manifests.symm.trans (hatomic e he)).trans htouch.addsChunks.manifests.symm)
  · intro hfc e he
    by_contra hne
    have hcom : env.Commits blake3 cfg bytes d :=
      (env.commits_iff blake3 cfg fileName bytes d).1
        (by_contra fun h => hne (processUpload_uncommitted h))
    obtain ⟨d1, htouch, hp, hend⟩ := processUpload_commits fileName hcom
    have hman := htouch.addsChunks.manifests
    rcases hend with ⟨-, hs⟩ | ⟨d2, hc, hs, herr⟩
    · exact hne (hs.manifests.trans hman)
    · have hchanged : d1.changedBy (blake3 bytes) := (commit_changes_iff hp).1
        ⟨d2, hc, fun h => hne ((hs.manifests.trans h).trans hman)⟩
      unfold Disk.changedBy at hchanged
      rw [hman] at hchanged
      exact hfc ⟨hcom, hchanged, herr.1 ⟨e, he⟩⟩

def UploadEnv.cancelled (sessionID : SessionID) (now : Time) : UploadEnv :=
  { UploadEnv.calm sessionID now with
    fault := fun op => if op = .finish ∨ op = .markFailed then some (.other "context canceled")
      else none }

/-- The upload returns the context's error, and its manifest is stored. -/
theorem cancelled_commits : ¬ ∀ e,
    (processUpload sampleHash (.cancelled 1 5) (sampleConfig 1) "a.bin" [7, 8] .empty).1 =
        .error e →
      Disk.SameReferences .empty
        (processUpload sampleHash (.cancelled 1 5) (sampleConfig 1) "a.bin" [7, 8] .empty).2 := by
  intro h
  have failed : (processUpload sampleHash (.cancelled 1 5) (sampleConfig 1) "a.bin" [7, 8]
      .empty).1.toOption.isNone = true := by decide
  have stored : ((processUpload sampleHash (.cancelled 1 5) (sampleConfig 1) "a.bin" [7, 8]
      .empty).2.manifests.lookup (sampleHash [7, 8])).isSome = true := by decide
  cases hr : (processUpload sampleHash (.cancelled 1 5) (sampleConfig 1) "a.bin" [7, 8] .empty).1
    with
  | ok x => rw [hr] at failed; cases failed
  | error e => rw [(h e hr).manifests] at stored; cases stored

end HashBox.Vault
