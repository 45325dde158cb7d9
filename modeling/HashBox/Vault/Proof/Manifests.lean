import Mathlib.Data.List.Dedup
import Mathlib.Data.List.Induction
import HashBox.Vault.Names
import HashBox.Vault.Proof.Objects
import HashBox.Vault.Proof.SingleStore

/-!
# What the Store keeps true of its records

* `manifest_immutable`: in every interleaving of calls a stored manifest stays, and changes in its
  tombstone only.
* `writer_validator_agree`: the records that sequences of calls leave (`Disk.Consistent`) pass every
  check of the collector's scan, and a tombstone carries the time of the first `RetireManifest`
  since the manifest was last active (`FirstRetired`).
-/

namespace HashBox.Vault

variable {blake3 : Bytes → Hash} {cfg : FastCdc.Config} {d d' : Disk}

/-! ## Immutability -/

theorem cleanupExpiredUploadSessions_same (d : Disk) (now : Time) :
    d.SameData (cleanupExpiredUploadSessions d now).2 := by
  unfold cleanupExpiredUploadSessions
  suffices ∀ (es : List (SessionID × UploadSessionRecord)) (x : Nat × Disk), d.SameData x.2 →
      d.SameData (es.foldl (fun x e => if now < e.2.expiresAt then x
        else (x.1 + 1, { x.2 with uploads := x.2.uploads.erase e.1 })) x).2 from
    this _ (0, d) (.refl d)
  intro es
  induction es with
  | nil => exact fun _ h => h
  | cons e es ih =>
    intro x hx
    refine ih _ ?_
    dsimp only
    split
    · exact hx
    · exact ⟨hx.manifests, hx.chunks, hx.files⟩

section
variable {ι : Type} [DecidableEq ι] {y y' z : System ι} {manifestID : Hash} {m : ManifestRecord}

theorem System.storeStep_manifest {a : StoreAction ι} (h : y.storeStep cfg blake3 a = some y')
    (hm : y.disk.manifests.lookup manifestID = some m) :
    ∃ m', y'.disk.manifests.lookup manifestID = some m' ∧ m.SameObject m' := by
  cases a with
  | call a => exact System.step_manifest h hm
  | cleanupExpiredUploadSessions now =>
    cases h
    refine ⟨m, ?_, .refl m⟩
    rw [← hm]
    exact congrArg (AList.lookup manifestID)
      (cleanupExpiredUploadSessions_same y.disk now).manifests

/-- **A stored manifest is immutable.** In every run from a state that has it, the record is still
there, the same but for its tombstone. -/
theorem manifest_immutable (hm : y.disk.manifests.lookup manifestID = some m)
    (hrun : Runs.Reach (System.storeStep cfg blake3) (fun _ _ => True) (· = y) z) :
    ∃ m', z.disk.manifests.lookup manifestID = some m' ∧ m'.manifestID = m.manifestID ∧
      m'.fileHash = m.fileHash ∧ m'.chunkHashes = m.chunkHashes ∧
      m'.totalSizeBytes = m.totalSizeBytes ∧ m'.chunkCount = m.chunkCount ∧
      m'.createdAt = m.createdAt ∧ m'.immutable = m.immutable := by
  have hsame : ∃ m', z.disk.manifests.lookup manifestID = some m' ∧ m.SameObject m' := by
    refine hrun.inv (P := fun z => ∃ m', z.disk.manifests.lookup manifestID = some m' ∧
      m.SameObject m') (fun s hs => ?_) fun s a s' hs _ hstep => ?_
    · subst hs
      exact ⟨m, hm, .refl m⟩
    · obtain ⟨m', hm', hsame⟩ := hs
      obtain ⟨m'', hm'', hsame'⟩ := System.storeStep_manifest hstep hm'
      exact ⟨m'', hm'', hsame.trans hsame'⟩
  obtain ⟨m', hm', hsame⟩ := hsame
  refine ⟨m', hm', ?_⟩
  rw [hsame]
  exact ⟨rfl, rfl, rfl, rfl, rfl, rfl, rfl⟩

end

/-- An upload of one chunk, on its own, in `n` steps. -/
def uploadAlone (t : SessionID) (n : Nat) (now : Time) : List (StoreAction Unit) :=
  .call (.processUpload t () "a.bin" [7] now) :: (runs t n now).map .call

/-- The same bytes again, a retirement, a session cleanup. -/
def uploadedAgain : List (StoreAction Unit) :=
  uploadAlone 2 12 6 ++ [.call (.updateManifestLifecycle 3 () (sampleHash [7]) true)] ++
    (runs 3 2 7).map .call ++ [.cleanupExpiredUploadSessions 1000000000000000000]

theorem manifest_immutable_sample : ∃ y z m m',
    Runs.exec (System.storeStep (sampleConfig 1) sampleHash) (.idle .empty) (uploadAlone 1 13 5) =
      some y ∧
    Runs.exec (System.storeStep (sampleConfig 1) sampleHash) y uploadedAgain = some z ∧
    y.disk.manifests.lookup (sampleHash [7]) = some m ∧
    z.disk.manifests.lookup (sampleHash [7]) = some m' ∧ m'.retiredAt = some 7 ∧
    m'.createdAt = m.createdAt := by
  have first : (Runs.exec (System.storeStep (sampleConfig 1) sampleHash) (.idle .empty)
      (uploadAlone 1 13 5)).any (fun y =>
        (y.disk.manifests.lookup (sampleHash [7])).any fun m => m.createdAt == 5) = true := by
    decide
  have again : (Runs.exec (System.storeStep (sampleConfig 1) sampleHash) (.idle .empty)
      (uploadAlone 1 13 5 ++ uploadedAgain)).any (fun z =>
        (z.disk.manifests.lookup (sampleHash [7])).any fun m => m.retiredAt == some 7) = true := by
    decide
  obtain ⟨y, hy, hm⟩ := (Option.any_eq_true _ _).1 first
  obtain ⟨m, hm, -⟩ := (Option.any_eq_true _ _).1 hm
  rw [Runs.exec_append, hy, Option.bind_some] at again
  obtain ⟨z, hz, hm1⟩ := (Option.any_eq_true _ _).1 again
  obtain ⟨m1, hm1, hr⟩ := (Option.any_eq_true _ _).1 hm1
  obtain ⟨m', hm', -, -, -, -, -, hc, -⟩ :=
    manifest_immutable hm (Runs.Reach.exec (.init rfl) (fun _ _ _ => trivial) hz)
  rw [hm1] at hm'
  cases hm'
  exact ⟨y, z, m, m1, hy, hz, hm, hm1, by simpa using hr, hc⟩

/-! ## Records that pass the scan -/

/-- The clock readings of the call are past Go's zero time, as those of `time.Now` are. -/
def Call.timed : Call → Prop
  | .processUpload _ env _ _ => ∀ op, env.clock op ≠ 0
  | .retireManifest _ now => now ≠ 0
  | .retainManifest _ now => now ≠ 0
  | .collectGarbage _ _ => True

structure ManifestRecord.Sound (m : ManifestRecord) (id : Hash) : Prop where
  valid : validateManifest m = .ok ()
  key : m.manifestID = id
  tombstone : m.retired = true ↔ m.retiredAt.isSome = true

/-- A stored chunk record and its key: its references are counted for a stored manifest. -/
structure ChunkRecord.Sound (r : ChunkRecord) (d : Disk) (h : Hash) : Prop where
  key : r.chunkHash = h
  count : 0 ≤ r.manifestRefCount
  created : r.createdAt ≠ 0
  listed : r.manifestRefCount ≠ 0 → ∃ id m, d.manifests.lookup id = some m ∧ h ∈ m.chunkHashes

/-- What every sequence of calls keeps true of the records. -/
structure Disk.Consistent (d : Disk) : Prop where
  manifest : ∀ id m, d.manifests.lookup id = some m → m.Sound id
  record : ∀ h r, d.chunks.lookup h = some r → r.Sound d h

theorem Disk.Consistent.empty : Disk.empty.Consistent :=
  ⟨fun _ _ h => (by cases h), fun _ _ h => (by cases h)⟩

theorem ChunkRecord.Sound.congr {r : ChunkRecord} {h : Hash} (hr : r.Sound d h)
    (hm : d'.manifests = d.manifests) : r.Sound d' h :=
  ⟨hr.key, hr.count, hr.created, by rw [hm]; exact hr.listed⟩

theorem Disk.Consistent.shrink (hd : d.Consistent) (hm : d'.manifests = d.manifests)
    (hr : ∀ h r, d'.chunks.lookup h = some r → d.chunks.lookup h = some r) : d'.Consistent :=
  ⟨fun id m h => hd.manifest id m (hm ▸ h), fun h r hh => (hd.record h r (hr h r hh)).congr hm⟩

theorem Disk.Consistent.same (hd : d.Consistent) (hs : d.SameData d') : d'.Consistent :=
  hd.shrink hs.manifests fun _ _ h => hs.chunks ▸ h

theorem Disk.Consistent.touched {env : UploadEnv} {cs : List Bytes} (hd : d.Consistent)
    (hclock : ∀ op, env.clock op ≠ 0) (h : d.Touched blake3 env cs d') : d'.Consistent := by
  induction h with
  | refl => exact hd
  | @write d1 c index _ _ ih =>
    refine ih.shrink (writeChunkIfMissing_manifests ..) fun h r hr => ?_
    unfold writeChunkIfMissing at hr
    split at hr <;> exact hr
  | @putRecord d1 c index _ _ _ ih =>
    have hm := putNewChunk_manifests d1 (blake3 c) c.length (env.clock (.putRecord index))
    refine ⟨fun id m h => ih.manifest id m (hm ▸ h), fun h r hr => ?_⟩
    unfold putNewChunk at hr
    split at hr
    · exact (ih.record h r hr).congr hm
    · rcases Dict.lookup_insert_cases hr with ⟨he, rfl⟩ | ⟨-, hr⟩
      · exact ⟨he.symm, Int.le_refl 0, hclock _, fun h => absurd rfl h⟩
      · exact (ih.record h r hr).congr hm
  | session r _ ih => exact ih.same (putUploadSession_same ..)

theorem Disk.Consistent.tombstone {id : Hash} {m : ManifestRecord} {retired : Bool}
    {retiredAt : Option Time} (hd : d.Consistent) (hm : d.manifests.lookup id = some m)
    (hr : retired = true ↔ retiredAt.isSome = true) (ht : ∀ t, retiredAt = some t → t ≠ 0)
    (he : d'.manifests = d.manifests.insert id { m with retired, retiredAt })
    (hc : d'.chunks = d.chunks) : d'.Consistent := by
  obtain ⟨hv, hk, -⟩ := hd.manifest _ m hm
  obtain ⟨h1, h2, h3, h4, -⟩ := validateManifest_ok.1 hv
  have sound : ManifestRecord.Sound { m with retired, retiredAt } id := by
    refine ⟨validateManifest_ok.2 ⟨h1, h2, h3, h4, fun h => ?_⟩, hk, hr⟩
    obtain ⟨t, h⟩ := Option.isSome_iff_exists.1 (hr.1 h)
    simp only [h, Option.getD_some]
    exact ht t h
  refine ⟨fun i e hi => ?_, fun h r hh => ?_⟩
  · rw [he] at hi
    rcases Dict.lookup_insert_cases hi with ⟨heq, rfl⟩ | ⟨-, hi⟩
    · exact heq ▸ sound
    · exact hd.manifest i e hi
  · obtain ⟨hk, hcount, hcr, hl⟩ := hd.record h r (hc ▸ hh)
    refine ⟨hk, hcount, hcr, fun hne => ?_⟩
    obtain ⟨i, e, hi, hh⟩ := hl hne
    rw [he]
    by_cases heq : i = id
    · subst heq
      cases hm.symm.trans hi
      exact ⟨i, _, (Dict.lookup_insert_if ..).trans (if_pos rfl), hh⟩
    · exact ⟨i, e, by rw [Dict.lookup_insert_if, if_neg heq, hi], hh⟩

theorem Disk.Consistent.lifecycle {manifestID : Hash} {retired : Bool} {now : Time}
    (hd : d.Consistent) (hnow : now ≠ 0)
    (h : updateManifestLifecycle d manifestID retired now = .ok d') : d'.Consistent := by
  obtain ⟨m, hm, -, ⟨-, rfl⟩ | ⟨-, rfl⟩⟩ := updateManifestLifecycle_ok h
  · exact hd
  · refine hd.tombstone hm ?_ ?_ rfl rfl <;> cases retired
    · simp
    · simp
    · exact fun t h => by cases h
    · exact fun t h => by cases h; exact hnow

theorem Disk.Consistent.commit {bytes : Bytes} {hs : List Hash} {now : Time} (hd : d.Consistent)
    (h : commitManifestAndChunkRefs d (newManifest (blake3 bytes) hs bytes.length now) = .ok d') :
    d'.Consistent := by
  rcases commit_ok h with ⟨e, -, -, -, rfl⟩ | ⟨e, he, -, -, rfl⟩ | ⟨hn, chunks, hc, rfl⟩
  · exact hd
  · exact hd.tombstone he (by decide) (fun t h => by cases h) rfl rfl
  · refine ⟨fun id m hm => ?_, fun k r hr => ?_⟩
    · rcases Dict.lookup_insert_cases hm with ⟨hid, rfl⟩ | ⟨-, hm⟩
      · refine ⟨validateManifest_ok.2 ⟨rfl, rfl, Int.natCast_nonneg _, rfl, fun hr => ?_⟩,
          hid.symm, ?_⟩
        · cases hr
        · exact ⟨fun h => (by cases h), fun h => (by cases h)⟩
      · exact hd.manifest id m hm
    · -- the records counted are those of the new manifest's chunks
      rw [addChunkRefs_lookup (List.nodup_dedup _) hc k] at hr
      split at hr
      · next hk =>
        obtain ⟨r0, hr0, rfl⟩ := Option.map_eq_some_iff.1 hr
        obtain ⟨h1, h2, h3, -⟩ := hd.record k r0 hr0
        exact ⟨h1, Int.add_nonneg h2 (Int.natCast_nonneg _), h3, fun _ => ⟨blake3 bytes, _,
          (Dict.lookup_insert_if ..).trans (if_pos rfl), List.mem_dedup.1 hk⟩⟩
      · obtain ⟨h1, h2, h3, h4⟩ := hd.record k r hr
        refine ⟨h1, h2, h3, fun hne => ?_⟩
        obtain ⟨id, m, hm, hk⟩ := h4 hne
        refine ⟨id, m, ?_, hk⟩
        rw [Dict.lookup_insert_if, if_neg, hm]
        rintro rfl
        rw [hn] at hm
        cases hm

/-- **Every call keeps the records consistent.** -/
theorem Disk.Consistent.run {c : Call} (hd : d.Consistent) (hc : c.timed) :
    (c.run blake3 d).Consistent := by
  cases c with
  | processUpload cfg env fileName bytes =>
    obtain ⟨d1, htouch, hend⟩ := processUpload_touched blake3 env cfg fileName bytes d
    have h1 := hd.touched hc htouch
    simp only [Call.run]
    cases hr : (processUpload blake3 env cfg fileName bytes d).1 <;> rw [hr] at hend <;>
      cases hend
    · next hs => exact h1.same hs
    · next hcom hs _ => exact (h1.commit hcom).same hs
    · next hcom hs _ => exact (h1.commit hcom).same hs
  | retireManifest manifestID now =>
    simp only [Call.run, retireManifest]
    split
    · next h => exact hd.lifecycle hc h
    · exact hd
  | retainManifest manifestID now =>
    simp only [Call.run, retainManifest]
    split
    · next h => exact hd.lifecycle hc h
    · exact hd
  | collectGarbage env olderThan =>
    have h := collectGarbage_effect env olderThan ∅ d
    exact hd.shrink h.manifests h.records

theorem Disk.Consistent.valid (hd : d.Consistent) : d.Valid :=
  ⟨fun id m hm => ⟨(hd.manifest id m hm).valid, (hd.manifest id m hm).key.symm⟩,
    fun h r hr => ⟨(hd.record h r hr).key, (hd.record h r hr).count⟩⟩

/-! ## The retirement clock -/

inductive ManifestStep (blake3 : Bytes → Hash) (c : Call) (id : Hash) :
    Option ManifestRecord → Option ManifestRecord → Prop
  | same (o : Option ManifestRecord) : ManifestStep blake3 c id o o
  | created {cfg : FastCdc.Config} {env : UploadEnv} {fileName : String} {bytes : Bytes}
    (now : Time) : c = .processUpload cfg env fileName bytes → id = blake3 bytes →
    ManifestStep blake3 c id none
      (some (newManifest id ((FastCdc.chunks cfg bytes).map blake3) bytes.length now))
  | reactivated {cfg : FastCdc.Config} {env : UploadEnv} {fileName : String} {bytes : Bytes}
    {m : ManifestRecord} : c = .processUpload cfg env fileName bytes → id = blake3 bytes →
    m.retired = true →
    ManifestStep blake3 c id (some m) (some { m with retired := false, retiredAt := none })
  | retired {now : Time} {m : ManifestRecord} : c = .retireManifest id now → m.retired = false →
    ManifestStep blake3 c id (some m) (some { m with retired := true, retiredAt := some now })
  | retained {now : Time} {m : ManifestRecord} : c = .retainManifest id now → m.retired = true →
    ManifestStep blake3 c id (some m) (some { m with retired := false, retiredAt := none })

/-- A commit leaves, makes active again or creates the record of its stream. -/
theorem UploadEnd.manifest {bytes : Bytes} {r : Except Error UploadCommitResult} {c : Call}
    {env : UploadEnv} {fileName : String} (h : UploadEnd blake3 cfg bytes d d' r)
    (hc : c = .processUpload cfg env fileName bytes) (id : Hash) :
    ManifestStep blake3 c id (d.manifests.lookup id) (d'.manifests.lookup id) := by
  cases h with
  | failed hs => rw [hs.manifests]; exact .same _
  | @committed now d2 _ _ hcom hs _ =>
    rw [hs.manifests]
    rcases commit_ok hcom with ⟨e, -, -, -, rfl⟩ | ⟨e, he, -, hr, rfl⟩ | ⟨hn, chunks, -, rfl⟩
    · exact .same _
    · rw [Dict.lookup_insert_if]
      split
      · next hid =>
        subst hid
        rw [he]
        exact .reactivated hc rfl hr
      · exact .same _
    · rw [Dict.lookup_insert_if]
      split
      · next hid =>
        subst hid
        rw [hn]
        exact .created now hc rfl
      · exact .same _

theorem lifecycle_manifest {c : Call} {manifestID : Hash} {retired : Bool} {now : Time}
    (h : updateManifestLifecycle d manifestID retired now = .ok d')
    (hc : c = if retired then .retireManifest manifestID now else .retainManifest manifestID now)
    (id : Hash) : ManifestStep blake3 c id (d.manifests.lookup id) (d'.manifests.lookup id) := by
  obtain ⟨m, hm, -, ⟨-, rfl⟩ | ⟨hr, rfl⟩⟩ := updateManifestLifecycle_ok h
  · exact .same _
  · rw [Dict.lookup_insert_if]
    split
    · next hid =>
      subst hid
      rw [hm]
      cases retired
      · exact .retained hc hr
      · exact .retired hc hr
    · exact .same _

/-- **What a call does to a manifest record.** -/
theorem Call.run_manifest (blake3 : Bytes → Hash) (d : Disk) (c : Call) (id : Hash) :
    ManifestStep blake3 c id (d.manifests.lookup id) ((c.run blake3 d).manifests.lookup id) := by
  cases c with
  | processUpload cfg env fileName bytes =>
    obtain ⟨d1, htouch, hend⟩ := processUpload_touched blake3 env cfg fileName bytes d
    rw [← htouch.addsChunks.manifests]
    exact hend.manifest rfl id
  | retireManifest manifestID now =>
    simp only [Call.run, Vault.retireManifest]
    split
    · next h => exact lifecycle_manifest h rfl id
    · exact .same _
  | retainManifest manifestID now =>
    simp only [Call.run, Vault.retainManifest]
    split
    · next h => exact lifecycle_manifest h rfl id
    · exact .same _
  | collectGarbage env olderThan =>
    simp only [Call.run, (collectGarbage_effect env olderThan ∅ d).manifests]
    exact .same _

def Call.runAll (blake3 : Bytes → Hash) (cs : List Call) : Disk := cs.foldl (Call.run blake3) .empty

theorem Call.runAll_concat (blake3 : Bytes → Hash) (cs : List Call) (c : Call) :
    Call.runAll blake3 (cs ++ [c]) = c.run blake3 (Call.runAll blake3 cs) :=
  List.foldl_concat ..

/-- `t` is the time of the first `RetireManifest` since the manifest was last active. -/
def FirstRetired (blake3 : Bytes → Hash) (cs : List Call) (id : Hash) (t : Time) : Prop :=
  ∃ pre post, cs = pre ++ .retireManifest id t :: post ∧ (Call.runAll blake3 pre).active id ∧
    ∀ mid, mid <+: post → ¬ (Call.runAll blake3 (pre ++ .retireManifest id t :: mid)).active id

/-- A tombstone's time comes from the call that retired the manifest, and stays. -/
theorem retiredAt_step {c : Call} {id : Hash} {m : ManifestRecord} {t : Time}
    (hm : (c.run blake3 d).manifests.lookup id = some m) (ht : m.retiredAt = some t) :
    d.manifests.lookup id = some m ∨ (c = .retireManifest id t ∧ d.active id) := by
  have hstep := c.run_manifest blake3 d id
  rw [hm] at hstep
  generalize ho : d.manifests.lookup id = o at hstep
  cases hstep with
  | same => exact .inl rfl
  | created now hc hid => cases ht
  | reactivated hc hid hr => cases ht
  | @retired now m0 hc hr =>
    cases ht
    exact .inr ⟨hc, m0, ho, hr⟩
  | retained hc hr => cases ht

theorem Disk.Consistent.runAll {cs : List Call} (hcs : ∀ c ∈ cs, c.timed) :
    (Call.runAll blake3 cs).Consistent := by
  induction cs using List.reverseRecOn with
  | nil => exact .empty
  | append_singleton cs c ih =>
    rw [Call.runAll_concat]
    exact (ih fun c' hc' => hcs c' (List.mem_append_left _ hc')).run
      (hcs c (List.mem_append_right _ (List.mem_singleton_self c)))

theorem firstRetired {cs : List Call} (hcs : ∀ c ∈ cs, c.timed) {id : Hash} {m : ManifestRecord}
    {t : Time} (hm : (Call.runAll blake3 cs).manifests.lookup id = some m)
    (ht : m.retiredAt = some t) : FirstRetired blake3 cs id t := by
  induction cs using List.reverseRecOn with
  | nil => cases hm
  | append_singleton cs c ih =>
    have hinactive : ¬ (Call.runAll blake3 (cs ++ [c])).active id := by
      rintro ⟨m', hm', hr⟩
      cases hm.symm.trans hm'
      have hret := ((Disk.Consistent.runAll hcs).manifest id m hm).tombstone.2 (by rw [ht]; rfl)
      rw [hr] at hret
      cases hret
    rw [Call.runAll_concat] at hm
    rcases retiredAt_step hm ht with hm0 | ⟨rfl, hact⟩
    · obtain ⟨pre, post, rfl, hact, hpost⟩ :=
        ih (fun c' hc' => hcs c' (List.mem_append_left _ hc')) hm0
      refine ⟨pre, post ++ [c], ?_, hact, fun mid hmid => ?_⟩
      · rw [List.append_assoc, List.cons_append]
      · rcases List.prefix_concat_iff.1 hmid with rfl | hmid
        · rwa [List.append_assoc, List.cons_append] at hinactive
        · exact hpost mid hmid
    · refine ⟨cs, [], rfl, hact, fun mid hmid => ?_⟩
      rw [List.prefix_nil.1 hmid]
      exact hinactive

/-- **What the program writes passes the collector's checks.** In every state that calls reach, each
manifest is valid under its key and is retired exactly when it has a retirement time, which is that
of the first retirement since it was last active; each chunk record is under its normalized hash
with a count that is not negative. So the scan of a sweep fails only where it is made to fail. -/
theorem writer_validator_agree {cs : List Call} (hcs : ∀ c ∈ cs, c.timed) :
    (∀ id m, (Call.runAll blake3 cs).manifests.lookup id = some m →
      validateManifest m = .ok () ∧ m.manifestID = id ∧
      (m.retired = true ↔ m.retiredAt.isSome = true) ∧
      ∀ t, m.retiredAt = some t → FirstRetired blake3 cs id t) ∧
    (∀ h r, (Call.runAll blake3 cs).chunks.lookup h = some r →
      normalizeHash (hex r.chunkHash) = .ok (hex h) ∧ 0 ≤ r.manifestRefCount) ∧
    ∀ env olderThan active e,
      scanGarbageCollection env olderThan (Call.runAll blake3 cs) active = .error e →
        (env.fault .scan).isSome ∨ (env.fault .walk).isSome := by
  have hd : (Call.runAll blake3 cs).Consistent := .runAll hcs
  refine ⟨fun id m hm => ?_, fun h r hr => ?_, fun env olderThan active e he => ?_⟩
  · obtain ⟨hv, hk, ht⟩ := hd.manifest id m hm
    exact ⟨hv, hk, ht, fun t => firstRetired hcs hm⟩
  · have h0 := hd.record h r hr
    exact ⟨h0.key ▸ normalizeHash_hex r.chunkHash, h0.count⟩
  · obtain ⟨scan, hscan⟩ := (Disk.valid_iff_scan olderThan active).1 hd.valid
    unfold scanGarbageCollection at he
    split at he
    · next hf => exact .inl (by rw [hf]; rfl)
    · rw [hscan] at he
      dsimp only at he
      split at he
      · next hf => exact .inr (by rw [hf]; rfl)
      · cases he

def retiredTwice : List Call :=
  [.processUpload (sampleConfig 1) (.calm 1 5) "a.bin" [7, 8],
    .retireManifest (sampleHash [7, 8]) 6, .retireManifest (sampleHash [7, 8]) 7]

theorem writer_validator_agree_sample : ∃ m,
    (Call.runAll sampleHash retiredTwice).manifests.lookup (sampleHash [7, 8]) = some m ∧
      m.retiredAt = some 6 ∧ validateManifest m = .ok () ∧
      FirstRetired sampleHash retiredTwice (sampleHash [7, 8]) 6 := by
  have run : ((Call.runAll sampleHash retiredTwice).manifests.lookup (sampleHash [7, 8])).any
      (fun m => m.retiredAt == some 6) = true := by decide
  obtain ⟨m, hm, ht⟩ := (Option.any_eq_true _ _).1 run
  have timed : ∀ c ∈ retiredTwice, c.timed := by
    intro c hc
    simp only [retiredTwice, List.mem_cons, List.not_mem_nil, or_false] at hc
    rcases hc with rfl | rfl | rfl
    · exact fun _ => (by decide : (5 : Nat) ≠ 0)
    · exact (by decide : (6 : Nat) ≠ 0)
    · exact (by decide : (7 : Nat) ≠ 0)
  obtain ⟨hv, -, -, hf⟩ := (writer_validator_agree timed).1 _ m hm
  exact ⟨m, hm, by simpa using ht, hv, hf 6 (by simpa using ht)⟩

end HashBox.Vault
