import HashBox.Vault.Overlap
import HashBox.Vault.Proof.StoreFacts

/-!
# What one step of a thread does to the disk, and to its own assertion

`UploadMove` and `SweepMove` say once what a step can do; every fact about a step is read off them.
Here these are its effect on the shared disk (`uploadStep_disk`, `lifecycleStep_disk`,
`sweepStep_disk`) and two assertions: `Upload.Ok` is what an upload knows of the chunks it has
touched, `Sweep.pending` what a sweep has yet to remove. Each thread's own steps keep its assertion,
and the `frame` lemmas say what another thread's step has to respect.
-/

namespace HashBox.Vault

variable {blake3 : Bytes → Hash} {d d' : Disk} {s s' : Mem} {t : SessionID} {k : Choice}

theorem Thread.commits_upload {u : Upload} {m : ManifestRecord}
    (h : (Thread.upload u).commits k = some m) : u.pc = .commit m ∧ ∃ now, k = .go now := by
  cases k with
  | go now =>
    simp only [Thread.commits] at h
    split at h
    · next hpc => cases h; exact ⟨hpc, now, rfl⟩
    · cases h
  | fail err => cases h
  | pick c => cases h

/-! ## What a step can do -/

/-- **What a step of an upload can do**, and at which point of the call. -/
inductive UploadMove (blake3 : Bytes → Hash) (d : Disk) (s : Mem) (t : SessionID) (u : Upload) :
    Choice → Disk → Mem → Upload → Prop
  /-- The call gives up; its lock is free again if it had one. -/
  | fail (k : Choice) (session : UploadSessionRecord) (pc : UploadPc) (s' : Mem) :
    session.sessionID = u.session.sessionID →
    ((∃ e, pc = .failed e) ∨ ∃ r, pc = .unregisterLock r) →
    (s' = s ∨ s' = { s with lifecycleMu := s.lifecycleMu.runlock t }) →
    UploadMove blake3 d s t u k d s' { u with session, pc }
  | register (now : Time) : u.pc = .register →
    UploadMove blake3 d s t u (.go now) d
      { s with activeUploads := registerActiveUpload s.activeUploads u.session.sessionID }
      { u with pc := .next }
  | read (now : Time) (c : Bytes) (rest : List Bytes) : u.pc = .next → u.rest = c :: rest →
    UploadMove blake3 d s t u (.go now) d s
      { u with rest, written := u.written ++ c, pc := .touchLock c }
  | build (now : Time) : u.pc = .next → u.rest = [] → u.splitErr = none →
    UploadMove blake3 d s t u (.go now) d s
      { u with pc := .commitLock (newManifest (blake3 u.written) u.chunkHashes u.totalSize now) }
  | touchLock (now : Time) (c : Bytes) (lifecycleMu : RwLock SessionID) : u.pc = .touchLock c →
    s.lifecycleMu.rlock t = some lifecycleMu →
    UploadMove blake3 d s t u (.go now) d { s with lifecycleMu } { u with pc := .getChunk c }
  | found (now : Time) (c : Bytes) : u.pc = .getChunk c → d.hasRecord (blake3 c) →
    UploadMove blake3 d s t u (.go now) d s { u with pc := .stat c }
  | missing (now : Time) (c : Bytes) : u.pc = .getChunk c →
    UploadMove blake3 d s t u (.go now) d s { u with pc := .persist c false }
  | inPlace (now : Time) (c : Bytes) : u.pc = .stat c → d.hasFile (blake3 c) →
    UploadMove blake3 d s t u (.go now) d s { u with pc := .mark c false }
  | lost (now : Time) (c : Bytes) : u.pc = .stat c →
    UploadMove blake3 d s t u (.go now) d s { u with pc := .persist c true }
  | persist (now : Time) (c : Bytes) (found : Bool) : u.pc = .persist c found →
    UploadMove blake3 d s t u (.go now) (writeChunkIfMissing d (blake3 c) c now) s
      { u with pc := if found then .mark c false else .putRecord c }
  | putRecord (now : Time) (c : Bytes) : u.pc = .putRecord c →
    UploadMove blake3 d s t u (.go now) (putNewChunk d (blake3 c) c.length now).2 s
      { u with pc := .mark c (putNewChunk d (blake3 c) c.length now).1 }
  | mark (now : Time) (c : Bytes) (created : Bool) : u.pc = .mark c created →
    UploadMove blake3 d s t u (.go now) d
      { lifecycleMu := s.lifecycleMu.runlock t
        activeUploads :=
          markActiveUploadChunk s.activeUploads u.session.sessionID (blake3 c) }
      { u with
        chunkHashes := u.chunkHashes ++ [blake3 c]
        totalSize := u.totalSize + c.length
        newChunkCount := if created then u.newChunkCount + 1 else u.newChunkCount
        reuseChunkCount := if created then u.reuseChunkCount else u.reuseChunkCount + 1
        pc := .next }
  | commitLock (now : Time) (m : ManifestRecord) (lifecycleMu : RwLock SessionID) :
    u.pc = .commitLock m → s.lifecycleMu.rlock t = some lifecycleMu →
    UploadMove blake3 d s t u (.go now) d { s with lifecycleMu } { u with pc := .commit m }
  | commit (now : Time) (m : ManifestRecord) (d' : Disk) : u.pc = .commit m →
    commitManifestAndChunkRefs d m = .ok d' →
    UploadMove blake3 d s t u (.go now) d' { s with lifecycleMu := s.lifecycleMu.runlock t }
      { u with pc := .finish m }
  /-- The session's record is put, as committed or as failed. -/
  | finish (now : Time) (session : UploadSessionRecord) (r : Except Error UploadCommitResult) :
    session.sessionID = u.session.sessionID →
    UploadMove blake3 d s t u (.go now) (putUploadSession d session) s
      { u with session, pc := .unregisterLock r }
  | unregisterLock (now : Time) (r : Except Error UploadCommitResult)
    (lifecycleMu : RwLock SessionID) : u.pc = .unregisterLock r →
    s.lifecycleMu.rlock t = some lifecycleMu →
    UploadMove blake3 d s t u (.go now) d { s with lifecycleMu } { u with pc := .unregister r }
  | unregister (now : Time) (r : Except Error UploadCommitResult) : u.pc = .unregister r →
    UploadMove blake3 d s t u (.go now) d
      { lifecycleMu := s.lifecycleMu.runlock t
        activeUploads := unregisterActiveUpload s.activeUploads u.session.sessionID }
      { u with pc := .done r }

theorem uploadStep_move {u u' : Upload} (h : uploadStep blake3 d s t u k = some (d', s', u')) :
    UploadMove blake3 d s t u k d' s' u' := by
  unfold uploadStep at h
  cases k with
  | pick h' => cases h
  | fail err =>
    dsimp only at h
    split at h
    case h_10 => cases h; exact .fail _ _ _ _ rfl (.inr ⟨_, rfl⟩) (.inl rfl)
    case h_1 | h_2 | h_7 | h_9 =>
      cases h
      exact .fail _ _ _ _ rfl (.inl ⟨_, rfl⟩) (.inl rfl)
    case h_3 | h_4 | h_5 | h_6 | h_8 =>
      cases h
      exact .fail _ _ _ _ rfl (.inl ⟨_, rfl⟩) (.inr rfl)
    case h_11 => cases h
  | go now =>
    dsimp only at h
    split at h
    case h_1 hpc => cases h; exact .register now hpc
    case h_2 hpc =>
      split at h
      · next hrest => cases h; exact .read now _ _ hpc hrest
      · cases h; exact .fail _ _ _ _ rfl (.inl ⟨_, rfl⟩) (.inl rfl)
      · next hrest hsplit =>
        split at h <;> cases h
        · exact .fail _ _ _ _ rfl (.inl ⟨_, rfl⟩) (.inl rfl)
        · exact .build now hpc hrest hsplit
    case h_3 c hpc =>
      obtain ⟨l, hl, he⟩ := Option.map_eq_some_iff.1 h
      cases he
      exact .touchLock now c l hpc hl
    case h_4 c hpc =>
      split at h
      · next hr =>
        cases h
        exact .found now c hpc (by rw [Disk.hasRecord]; exact Option.isSome_of_eq_some hr)
      · cases h; exact .missing now c hpc
    case h_5 c hpc =>
      split at h
      · next hf => cases h; exact .inPlace now c hpc hf
      · cases h; exact .lost now c hpc
    case h_6 c found hpc => cases h; exact .persist now c found hpc
    case h_7 c hpc => cases h; exact .putRecord now c hpc
    case h_8 c created hpc => cases h; exact .mark now c created hpc
    case h_9 m hpc =>
      obtain ⟨l, hl, he⟩ := Option.map_eq_some_iff.1 h
      cases he
      exact .commitLock now m l hpc hl
    case h_10 m hpc =>
      split at h
      · next hc => cases h; exact .commit now m _ hpc hc
      · cases h; exact .fail _ _ _ _ rfl (.inl ⟨_, rfl⟩) (.inr rfl)
    case h_11 => cases h; exact .finish now _ _ rfl
    case h_12 => cases h; exact .finish now _ _ rfl
    case h_13 r hpc =>
      obtain ⟨l, hl, he⟩ := Option.map_eq_some_iff.1 h
      cases he
      exact .unregisterLock now r l hpc hl
    case h_14 r hpc => cases h; exact .unregister now r hpc
    case h_15 => cases h

/-- **What a step of a sweep can do**, and at which point. -/
inductive SweepMove (d : Disk) (s : Mem) (t : SessionID) (w : Sweep) :
    Choice → Disk → Mem → Sweep → Prop
  | refused (err : Error) : w.pc = .lock →
    SweepMove d s t w (.fail err) d s (w.deletionError err .done)
  /-- A cancelled context or a failed scan. -/
  | stop (k : Choice) (err : Error) (report : GarbageCollectionReport) : w.pc ≠ .lock →
    w.pc ≠ .done →
    SweepMove d s t w k d { s with lifecycleMu := s.lifecycleMu.unlock }
      ({ w with report }.deletionError err .done)
  | lock (now : Time) (lifecycleMu : RwLock SessionID) : w.pc = .lock →
    s.lifecycleMu.lock t = some lifecycleMu →
    SweepMove d s t w (.go now) d { s with lifecycleMu } { w with pc := .snapshot }
  | snapshot (now : Time) : w.pc = .snapshot →
    SweepMove d s t w (.go now) d s
      { w with pc := .scan (snapshotActiveChunkHashes s.activeUploads) }
  | scan (now : Time) (active : List Hash) (scan : GarbageCollectionScan) : w.pc = .scan active →
    scanMetadata d w.olderThan active = .ok scan →
    SweepMove d s t w (.go now) d s { w with pc := .walk active scan [] }
  | visit (h : Hash) (active : List Hash) (scan : GarbageCollectionScan) (visited : List Hash)
    (f : ChunkFile) : w.pc = .walk active scan visited → d.files.lookup h = some f →
    SweepMove d s t w (.pick h) d s
      { w with pc := .walk active (visitFile active w.olderThan scan h f) (h :: visited) }
  | walked (now : Time) (active : List Hash) (scan : GarbageCollectionScan)
    (visited : List Hash) : w.pc = .walk active scan visited →
    SweepMove d s t w (.go now) d s
      { w with report := scan.report, pc := .records active scan (Dict.toList scan.chunkRecords) }
  | keep (h : Hash) (active : List Hash) (scan : GarbageCollectionScan)
    (todo : List (Hash × ChunkRecord)) (report : GarbageCollectionReport) :
    w.pc = .records active scan todo →
    SweepMove d s t w (.pick h) d s
      { w with report, pc := .records active scan (todo.filter fun e => e.1 ≠ h) }
  | candidate (h : Hash) (active : List Hash) (scan : GarbageCollectionScan)
    (todo : List (Hash × ChunkRecord)) (r : ChunkRecord) (retired : Bool)
    (report : GarbageCollectionReport) : w.pc = .records active scan todo → (h, r) ∈ todo →
    sweepDecision scan active w.olderThan h r = .candidate retired →
    SweepMove d s t w (.pick h) d s
      { w with report, pc := .removeFile active scan (todo.filter fun e => e.1 ≠ h) h retired }
  | recordsDone (now : Time) (active : List Hash) (scan : GarbageCollectionScan) :
    w.pc = .records active scan [] →
    SweepMove d s t w (.go now) d s { w with pc := .orphans scan.physicalOrphans }
  | removeFile (now : Time) (active : List Hash) (scan : GarbageCollectionScan)
    (todo : List (Hash × ChunkRecord)) (h : Hash) (retired : Bool) :
    w.pc = .removeFile active scan todo h retired →
    SweepMove d s t w (.go now) (removeChunkFile d h) s
      { w with pc := .deleteMetadata active scan todo h retired }
  | deleteMetadata (now : Time) (active : List Hash) (scan : GarbageCollectionScan)
    (todo : List (Hash × ChunkRecord)) (h : Hash) (retired deleted : Bool) (d' : Disk)
    (report : GarbageCollectionReport) : w.pc = .deleteMetadata active scan todo h retired →
    deleteChunkMetadata d h w.olderThan retired = .ok (deleted, d') →
    SweepMove d s t w (.go now) d' s { w with report, pc := .records active scan todo }
  /-- A failed deletion, of the file or of the metadata. -/
  | skip (k : Choice) (err : Error) (active : List Hash) (scan : GarbageCollectionScan)
    (todo : List (Hash × ChunkRecord)) (h : Hash) (retired : Bool) :
    w.pc = .removeFile active scan todo h retired ∨
      w.pc = .deleteMetadata active scan todo h retired →
    SweepMove d s t w k d s (w.deletionError err (.records active scan todo))
  | removeOrphan (now : Time) (h : Hash) (todo : List Hash) (report : GarbageCollectionReport) :
    w.pc = .orphans (h :: todo) →
    SweepMove d s t w (.go now) (removeChunkFile d h) s { w with report, pc := .orphans todo }
  | skipOrphan (k : Choice) (err : Error) (h : Hash) (todo : List Hash) :
    w.pc = .orphans (h :: todo) →
    SweepMove d s t w k d s (w.deletionError err (.orphans todo))
  | finish (now : Time) : w.pc = .orphans [] →
    SweepMove d s t w (.go now) d { s with lifecycleMu := s.lifecycleMu.unlock }
      { w with pc := .done }

theorem sweepStep_move {w w' : Sweep} (h : sweepStep d s t w k = some (d', s', w')) :
    SweepMove d s t w k d' s' w' := by
  unfold sweepStep at h
  cases k with
  | fail err =>
    dsimp only at h
    split at h
    case h_1 hpc => cases h; exact .refused err hpc
    case h_2 hpc | h_3 hpc | h_4 hpc =>
      cases h
      exact .stop _ _ _ (by rw [hpc]; nofun) (by rw [hpc]; nofun)
    case h_5 hpc => cases h; exact .skip _ _ _ _ _ _ _ (.inl hpc)
    case h_6 hpc => cases h; exact .skip _ _ _ _ _ _ _ (.inr hpc)
    case h_8 hpc => cases h; exact .skipOrphan _ _ _ _ hpc
    all_goals cases h
  | pick h' =>
    dsimp only at h
    split at h
    · next active scan visited hpc =>
      split at h
      · cases h
      · obtain ⟨f, hf, he⟩ := Option.map_eq_some_iff.1 h
        cases he
        exact .visit h' active scan visited f hpc hf
    · next active scan todo hpc =>
      obtain ⟨r, hr, he⟩ := Option.map_eq_some_iff.1 h
      have hmem : (h', r) ∈ todo := by
        obtain ⟨l1, l2, rfl, -⟩ := List.lookup_eq_some_iff.1 hr
        exact List.mem_append_right _ List.mem_cons_self
      split at he
      · cases he; exact .keep h' active scan todo w.report hpc
      · cases he; exact .keep h' active scan todo _ hpc
      · next hd => cases he; exact .candidate h' active scan todo r _ _ hpc hmem hd
    · cases h
  | go now =>
    dsimp only at h
    split at h
    case h_1 hpc =>
      obtain ⟨l, hl, he⟩ := Option.map_eq_some_iff.1 h
      cases he
      exact .lock now l hpc hl
    case h_2 hpc => cases h; exact .snapshot now hpc
    case h_3 active hpc =>
      split at h
      · next hs => cases h; exact .scan now active _ hpc hs
      · cases h; exact .stop _ _ _ (by rw [hpc]; nofun) (by rw [hpc]; nofun)
    case h_4 hpc => cases h; exact .walked now _ _ _ hpc
    case h_5 hpc => cases h; exact .recordsDone now _ _ hpc
    case h_6 hpc => cases h; exact .removeFile now _ _ _ _ _ hpc
    case h_7 hpc =>
      split at h
      · cases h; exact .skip _ _ _ _ _ _ _ (.inr hpc)
      · next hd => cases h; exact .deleteMetadata now _ _ _ _ _ _ _ _ hpc hd
    case h_8 hpc => cases h; exact .finish now hpc
    case h_9 hpc => cases h; exact .removeOrphan now _ _ _ hpc
    case h_10 => cases h

/-! ## The effect on the disk -/

theorem putUploadSession_grows (d : Disk) (r : UploadSessionRecord) :
    d.Grows (putUploadSession d r) :=
  ⟨fun _ => id, fun _ => id⟩

def Disk.NoNewFile (d d' : Disk) : Prop :=
  ∀ c f, d'.files.lookup c = some f → d.files.lookup c = some f

theorem Disk.NoNewFile.of_eq {d d' : Disk} (h : d'.files = d.files) : d.NoNewFile d' :=
  fun _ _ hf => h ▸ hf

theorem Disk.NoNewFile.refl (d : Disk) : d.NoNewFile d := .of_eq rfl

/-- An upload removes nothing, and stores manifests in its commit transaction only. -/
theorem uploadStep_disk {u u' : Upload} (h : uploadStep blake3 d s t u k = some (d', s', u')) :
    d.Grows d' ∧ (d'.manifests = d.manifests ∨
      ∃ m, (Thread.upload u).commits k = some m ∧ commitManifestAndChunkRefs d m = .ok d') := by
  cases uploadStep_move h with
  | persist now c => exact ⟨writeChunkIfMissing_grows .., .inl (writeChunkIfMissing_manifests ..)⟩
  | putRecord now c => exact ⟨putNewChunk_grows .., .inl (putNewChunk_manifests ..)⟩
  | commit now m d' hpc hc => exact ⟨commit_grows hc, .inr ⟨m, by simp [Thread.commits, hpc], hc⟩⟩
  | finish => exact ⟨putUploadSession_grows .., .inl rfl⟩
  | fail | register | read | build | touchLock | found | missing | inPlace | lost | mark
  | commitLock | unregisterLock | unregister => exact ⟨.refl d, .inl rfl⟩

theorem uploadStep_files {u u' : Upload} (h : uploadStep blake3 d s t u k = some (d', s', u')) :
    d.NoNewFile d' ∨ (∃ c found, u.pc = .persist c found) ∧
      ∀ c f, d'.files.lookup c = some f → d.hasFile c → d.files.lookup c = some f := by
  cases uploadStep_move h with
  | persist now c found hpc => exact .inr ⟨⟨c, found, hpc⟩, fun _ _ => writeChunkIfMissing_file⟩
  | putRecord now c => exact .inl (Disk.NoNewFile.of_eq (putNewChunk_files ..))
  | commit now m d' hpc hc => exact .inl (Disk.NoNewFile.of_eq (commit_files hc))
  | finish | fail | register | read | build | touchLock | found | missing | inPlace | lost | mark
  | commitLock | unregisterLock | unregister => exact .inl (.refl d)

/-- Retire and retain touch no file, remove nothing, and rewrite the tombstone of their manifest
only. -/
theorem lifecycleStep_disk {l l' : Lifecycle} (h : lifecycleStep d s t l k = some (d', s', l')) :
    d.Grows d' ∧ d'.files = d.files ∧ (d'.manifests = d.manifests ∨
      ∃ now, l.pc = .update ∧ updateManifestLifecycle d l.manifestID l.retired now = .ok d') := by
  unfold lifecycleStep at h
  cases k with
  | pick h' => cases h
  | fail err =>
    dsimp only at h
    split at h <;> cases h <;> exact ⟨.refl d, rfl, .inl rfl⟩
  | go now =>
    dsimp only at h
    split at h
    · obtain ⟨m, -, hl⟩ := Option.map_eq_some_iff.1 h
      cases hl
      exact ⟨.refl d, rfl, .inl rfl⟩
    · next hpc =>
      split at h
      · next hu =>
        cases h
        exact ⟨updateManifestLifecycle_grows hu, updateManifestLifecycle_files hu,
          .inr ⟨now, hpc, hu⟩⟩
      · cases h; exact ⟨.refl d, rfl, .inl rfl⟩
    · cases h

/-- A sweep stores no manifest and writes no file, and what it removes belongs to one chunk. -/
theorem sweepStep_disk {w w' : Sweep} (h : sweepStep d s t w k = some (d', s', w')) :
    d'.manifests = d.manifests ∧ d.NoNewFile d' ∧ ∀ c, w.removes d k ≠ some c →
      (d.hasRecord c → d'.hasRecord c) ∧ (d.hasFile c → d'.hasFile c) := by
  have stay : d.manifests = d.manifests ∧ d.NoNewFile d ∧ ∀ c, w.removes d k ≠ some c →
      (d.hasRecord c → d.hasRecord c) ∧ (d.hasFile c → d.hasFile c) :=
    ⟨rfl, .refl d, fun _ _ => ⟨id, id⟩⟩
  have file : ∀ b, (∀ c, w.removes d k ≠ some c → d.hasFile b → c ≠ b) →
      (removeChunkFile d b).manifests = d.manifests ∧ d.NoNewFile (removeChunkFile d b) ∧
      ∀ c, w.removes d k ≠ some c → (d.hasRecord c → (removeChunkFile d b).hasRecord c) ∧
        (d.hasFile c → (removeChunkFile d b).hasFile c) := by
    refine fun b hb => ⟨rfl, fun c f hf => ?_, fun c hc => ⟨id, fun hfile => ?_⟩⟩
    · rw [removeChunkFile, Dict.lookup_erase_if] at hf
      split at hf
      · cases hf
      · exact hf
    · by_cases he : c = b
      · exact absurd he (hb c hc (he ▸ hfile))
      · exact (removeChunkFile_hasFile he).2 hfile
  cases sweepStep_move h with
  | removeFile now active scan todo b retired hpc =>
    refine file b fun c hc hfile he => hc ?_
    simp only [Sweep.removes, hpc, hfile, if_true, he]
  | deleteMetadata now active scan todo b retired deleted d' report hpc hd =>
    rcases deleteChunkMetadata_ok hd with rfl | ⟨hdrop, rfl⟩
    · exact stay
    · refine ⟨rfl, fun _ _ => id, fun c' hc => ⟨fun hr => ?_, id⟩⟩
      have hne : c' ≠ b := fun he => hc (by simp only [Sweep.removes, hpc, hdrop, if_true, he])
      simpa only [Disk.hasRecord, Dict.lookup_erase_if, hne, if_false] using hr
  | removeOrphan now b todo report hpc =>
    refine file b fun c hc hfile he => hc ?_
    simp only [Sweep.removes, hpc, hfile, if_true, he]
  | refused | stop | lock | snapshot | scan | visit | walked | keep | candidate | recordsDone | skip
  | skipOrphan | finish => exact stay

/-- Two records of one object: they differ in the tombstone only. -/
def ManifestRecord.SameObject (m m' : ManifestRecord) : Prop :=
  m' = { m with retired := m'.retired, retiredAt := m'.retiredAt }

theorem ManifestRecord.SameObject.refl (m : ManifestRecord) : m.SameObject m := rfl

theorem ManifestRecord.SameObject.trans {m m' m'' : ManifestRecord} (h : m.SameObject m')
    (h' : m'.SameObject m'') : m.SameObject m'' := by
  unfold SameObject at h h' ⊢
  rw [h', h]

theorem ManifestRecord.SameObject.chunkHashes {m m' : ManifestRecord} (h : m.SameObject m') :
    m'.chunkHashes = m.chunkHashes := by
  rw [h]

/-- **A step changes a stored manifest at most in its tombstone.** -/
theorem Thread.step_manifest {th th' : Thread} {manifestID : Hash} {m : ManifestRecord}
    (h : th.step blake3 d s t k = some (d', s', th'))
    (hm : d.manifests.lookup manifestID = some m) :
    ∃ m', d'.manifests.lookup manifestID = some m' ∧ m.SameObject m' := by
  have same : d'.manifests = d.manifests →
      ∃ m', d'.manifests.lookup manifestID = some m' ∧ m.SameObject m' :=
    fun he => ⟨m, by rw [he, hm], .refl m⟩
  have insert : ∀ key e, d.manifests.lookup key = some e → ∀ e', e.SameObject e' →
      ∃ m', (d.manifests.insert key e').lookup manifestID = some m' ∧ m.SameObject m' := by
    intro key e he e' hs
    rw [Dict.lookup_insert_if]
    split
    · next heq =>
      subst heq
      rw [hm] at he
      cases he
      exact ⟨e', rfl, hs⟩
    · exact ⟨m, hm, .refl m⟩
  unfold Thread.step at h
  cases th with
  | upload u =>
    obtain ⟨⟨d1, s1, u'⟩, hr, he⟩ := Option.map_eq_some_iff.1 h
    cases he
    rcases (uploadStep_disk hr).2 with hman | ⟨mm, -, hc⟩
    · exact same hman
    · rcases commit_ok hc with ⟨e, -, -, -, rfl⟩ | ⟨e, he, -, -, rfl⟩ | ⟨hn, chunks, -, rfl⟩
      · exact same rfl
      · exact insert _ e he _ rfl
      · have hne : manifestID ≠ mm.manifestID := fun heq => by rw [heq, hn] at hm; cases hm
        exact ⟨m, by rw [Dict.lookup_insert_if, if_neg hne, hm], .refl m⟩
  | lifecycle l =>
    obtain ⟨⟨d1, s1, l'⟩, hr, he⟩ := Option.map_eq_some_iff.1 h
    cases he
    rcases (lifecycleStep_disk hr).2.2 with hman | ⟨now, -, hu⟩
    · exact same hman
    · obtain ⟨e, he, -, ⟨-, rfl⟩ | ⟨-, rfl⟩⟩ := updateManifestLifecycle_ok hu
      · exact same rfl
      · exact insert _ e he _ rfl
  | sweep w =>
    obtain ⟨⟨d1, s1, w'⟩, hr, he⟩ := Option.map_eq_some_iff.1 h
    cases he
    exact same (sweepStep_disk hr).1

/-- A manifest appears only in the commit of an upload of it. -/
theorem Thread.step_created {th th' : Thread} {manifestID : Hash} {m : ManifestRecord}
    (h : th.step blake3 d s t k = some (d', s', th'))
    (hn : d.manifests.lookup manifestID = none)
    (hm : d'.manifests.lookup manifestID = some m) :
    ∃ u mm, th = .upload u ∧ u.pc = .commit mm ∧ manifestID = mm.manifestID ∧
      m = { mm with fileHash := mm.manifestID } ∧ d.Grows d' := by
  have same : d'.manifests ≠ d.manifests := fun he => by rw [he, hn] at hm; cases hm
  have insert : ∀ {key : Hash} {e e' : ManifestRecord},
      (d.manifests.insert key e').lookup manifestID = some m →
        manifestID = key ∧ m = e' := by
    intro key e e' hl
    rcases Dict.lookup_insert_cases hl with ⟨heq, rfl⟩ | ⟨-, hl⟩
    · exact ⟨heq, rfl⟩
    · rw [hn] at hl; cases hl
  unfold Thread.step at h
  cases th with
  | upload u =>
    obtain ⟨⟨d1, s1, u'⟩, hr, he⟩ := Option.map_eq_some_iff.1 h
    cases he
    obtain ⟨hg, hman | ⟨mm, hcm, hc⟩⟩ := uploadStep_disk hr
    · exact absurd hman same
    · refine ⟨u, mm, rfl, (Thread.commits_upload hcm).1, ?_⟩
      rcases commit_ok hc with ⟨e, -, -, -, rfl⟩ | ⟨e, he, -, -, rfl⟩ | ⟨-, chunks, -, rfl⟩
      · exact absurd rfl same
      · obtain ⟨rfl, -⟩ := insert (e := e) hm
        rw [hn] at he
        cases he
      · obtain ⟨h1, h2⟩ := insert (e := mm) hm
        exact ⟨h1, h2, hg⟩
  | lifecycle l =>
    obtain ⟨⟨d1, s1, l'⟩, hr, he⟩ := Option.map_eq_some_iff.1 h
    cases he
    rcases (lifecycleStep_disk hr).2.2 with hman | ⟨now, -, hu⟩
    · exact absurd hman same
    · obtain ⟨e, he, -, ⟨-, rfl⟩ | ⟨-, rfl⟩⟩ := updateManifestLifecycle_ok hu
      · exact absurd rfl same
      · obtain ⟨rfl, -⟩ := insert (e := e) hm
        rw [hn] at he
        cases he
  | sweep w =>
    obtain ⟨⟨d1, s1, w'⟩, hr, he⟩ := Option.map_eq_some_iff.1 h
    cases he
    exact absurd (sweepStep_disk hr).1 same

/-! ## What an upload knows -/

/-- The chunks of an uncommitted upload are present, as far as it has seen to that. -/
def Upload.Ok (blake3 : Bytes → Hash) (d : Disk) (u : Upload) : Prop :=
  match u.pc with
  | .register | .next | .touchLock _ | .getChunk _ | .persist _ false =>
    ∀ h ∈ u.chunkHashes, d.present h
  | .stat c | .persist c true => d.hasRecord (blake3 c) ∧ ∀ h ∈ u.chunkHashes, d.present h
  | .putRecord c => d.hasFile (blake3 c) ∧ ∀ h ∈ u.chunkHashes, d.present h
  | .mark c _ => d.present (blake3 c) ∧ ∀ h ∈ u.chunkHashes, d.present h
  | .commitLock m | .commit m => m.chunkHashes = u.chunkHashes ∧ ∀ h ∈ u.chunkHashes, d.present h
  | .finish _ | .failed _ | .unregisterLock _ | .unregister _ | .done _ => True

theorem Upload.ok_start (d : Disk) (cfg : FastCdc.Config) (session : UploadSessionRecord)
    (bytes : Bytes) : (Upload.start cfg session bytes).Ok blake3 d :=
  fun _ h => by cases h

theorem Upload.Ok.frame {u : Upload} (hu : u.Ok blake3 d)
    (h : ∀ c ∈ u.touched blake3, (d.hasRecord c → d'.hasRecord c) ∧ (d.hasFile c → d'.hasFile c)) :
    u.Ok blake3 d' := by
  have keep : ∀ {cs : List Hash}, (∀ c ∈ cs, c ∈ u.touched blake3) →
      (∀ c ∈ cs, d.present c) → ∀ c ∈ cs, d'.present c :=
    fun hsub hp c hc => ⟨(h c (hsub c hc)).1 (hp c hc).1, (h c (hsub c hc)).2 (hp c hc).2⟩
  unfold Upload.Ok at hu ⊢
  split at hu <;> simp only [Upload.touched, *] at h keep ⊢
  all_goals first
    | exact keep (fun _ => id) hu
    | exact ⟨trivial, keep (fun _ => id) hu.2⟩
    | skip
  · exact ⟨(h _ List.mem_cons_self).1 hu.1, keep (fun _ => List.mem_cons_of_mem _) hu.2⟩
  · exact ⟨(h _ List.mem_cons_self).1 hu.1, keep (fun _ => List.mem_cons_of_mem _) hu.2⟩
  · exact ⟨(h _ List.mem_cons_self).2 hu.1, keep (fun _ => List.mem_cons_of_mem _) hu.2⟩
  · exact ⟨⟨(h _ List.mem_cons_self).1 hu.1.1, (h _ List.mem_cons_self).2 hu.1.2⟩,
      keep (fun _ => List.mem_cons_of_mem _) hu.2⟩

/-- **An upload's own steps keep what it knows.** -/
theorem Upload.Ok.step {u u' : Upload} (hu : u.Ok blake3 d)
    (h : uploadStep blake3 d s t u k = some (d', s', u')) : u'.Ok blake3 d' := by
  have grows := (uploadStep_disk h).1
  have keep : ∀ {cs : List Hash}, (∀ c ∈ cs, d.present c) → ∀ c ∈ cs, d'.present c :=
    fun hp c hc => grows.present (hp c hc)
  cases uploadStep_move h with
  | fail k session pc s' hid hpc => rcases hpc with ⟨e, rfl⟩ | ⟨r, rfl⟩ <;> exact trivial
  | register now hpc | read now c rest hpc | touchLock now c l hpc | missing now c hpc =>
    rw [Upload.Ok, hpc] at hu
    exact keep hu
  | build now hpc =>
    rw [Upload.Ok, hpc] at hu
    exact ⟨rfl, keep hu⟩
  | found now c hpc hr =>
    rw [Upload.Ok, hpc] at hu
    exact ⟨hr, keep hu⟩
  | inPlace now c hpc hf =>
    rw [Upload.Ok, hpc] at hu
    exact ⟨⟨hu.1, hf⟩, keep hu.2⟩
  | lost now c hpc =>
    rw [Upload.Ok, hpc] at hu
    exact ⟨hu.1, keep hu.2⟩
  | persist now c found hpc =>
    rw [Upload.Ok, hpc] at hu
    cases found with
    | true => exact ⟨⟨grows.record _ hu.1, writeChunkIfMissing_hasFile ..⟩, keep hu.2⟩
    | false => exact ⟨writeChunkIfMissing_hasFile .., keep hu⟩
  | putRecord now c hpc =>
    rw [Upload.Ok, hpc] at hu
    exact ⟨⟨putNewChunk_hasRecord .., grows.file _ hu.1⟩, keep hu.2⟩
  | mark now c created hpc =>
    rw [Upload.Ok, hpc] at hu
    intro h' hh
    rcases List.mem_append.1 hh with hh | hh
    · exact hu.2 h' hh
    · rw [List.mem_singleton.1 hh]
      exact hu.1
  | commitLock now m l hpc =>
    rw [Upload.Ok, hpc] at hu
    exact ⟨hu.1, keep hu.2⟩
  | commit | finish | unregisterLock | unregister => exact trivial

/-! ## What a sweep has pending -/

theorem Sweep.pending_of_removes {w : Sweep} {c : Hash} (h : w.removes d k = some c) :
    w.pending d c := by
  have of_if : ∀ {p : Prop} [Decidable p] {b : Hash}, (if p then some b else none) = some c →
      c = b := fun hb =>
    (Option.some.inj (Option.ite_none_right_eq_some.1 hb).2).symm
  unfold Sweep.removes at h
  split at h
  · split at h
    · next hpc => simp only [Sweep.pending, hpc]; exact .inl (of_if h)
    · next hpc => simp only [Sweep.pending, hpc, of_if h]; exact List.mem_cons_self
    · next hpc => simp only [Sweep.pending, hpc]; exact .inl (of_if h)
    · cases h
  · cases h

theorem Sweep.pending_of_file {w : Sweep} {c : Hash}
    (hf : ∀ f, d'.files.lookup c = some f → d.files.lookup c = some f) (h : w.pending d' c) :
    w.pending d c := by
  unfold Sweep.pending at h ⊢
  split at h
  · exact h.imp_right fun ⟨ho, f, hl, hold⟩ => ⟨ho, f, hf f hl, hold⟩
  all_goals exact h

theorem selected_sub {scan : GarbageCollectionScan} {active : List Hash} {olderThan : Time}
    {todo todo' : List (Hash × ChunkRecord)} {c : Hash} (hsub : ∀ e ∈ todo', e ∈ todo)
    (h : selected scan active olderThan todo' c) : selected scan active olderThan todo c := by
  rcases h with ⟨r, b, hr, hd⟩ | ho
  · exact .inl ⟨r, b, hsub _ hr, hd⟩
  · exact .inr ho

/-- When the walk starts, nothing that is referenced or held by an active upload is pending. -/
theorem pending_scan {w : Sweep} {scan : GarbageCollectionScan} {active : List Hash} {c : Hash}
    (hs : scanMetadata d w.olderThan active = .ok scan)
    (hp : Sweep.pending d { w with pc := .walk active scan [] } c) :
    ¬ d.referenced c ∧ c ∉ active := by
  rw [← scanMetadata_referenced hs]
  rcases hp with (⟨r, b, -, hd⟩ | ho) | ⟨ho, -⟩
  · exact sweepDecision_candidate hd
  · rw [scanMetadata_orphans hs] at ho; cases ho
  · exact orphanHash_spec ho

/-- **A sweep's own steps add to what is pending only when it reads the metadata.** -/
theorem sweepStep_pending {w w' : Sweep} (h : sweepStep d s t w k = some (d', s', w')) :
    (∀ c, w'.pending d' c → w.pending d c) ∨
      ∃ active, w.pc = .scan active ∧ ∀ c, w'.pending d' c → ¬ d.referenced c ∧ c ∉ active := by
  have hsub : ∀ {todo : List (Hash × ChunkRecord)} {h' : Hash},
      ∀ e ∈ todo.filter fun e => e.1 ≠ h', e ∈ todo :=
    fun e he => (List.mem_filter.1 he).1
  cases sweepStep_move h with
  | refused | stop | lock | snapshot | finish => exact .inl fun c hc => hc.elim
  | scan now active scan hpc hs => exact .inr ⟨active, hpc, fun c hc => pending_scan hs hc⟩
  | visit h' active scan visited f hpc hfile =>
    obtain ⟨h1, h2, h3, h4⟩ := visitFile_spec active w.olderThan scan h' f
    refine .inl fun c hc => ?_
    simp only [Sweep.pending, hpc]
    simp only [Sweep.pending, selected, sweepDecision, orphanHash, h1, h2, h3] at hc
    rcases hc with (hc | hc) | hc
    · exact .inl (.inl hc)
    · rcases h4 with h4 | ⟨ho, hmod, h4⟩ <;> rw [h4] at hc
      · exact .inl (.inr hc)
      · rcases List.mem_append.1 hc with hc | hc
        · exact .inl (.inr hc)
        · rw [List.mem_singleton.1 hc]
          exact .inr ⟨ho, f, hfile, hmod⟩
    · exact .inr hc
  | walked now active scan visited hpc =>
    exact .inl fun c hc => by simp only [Sweep.pending, hpc]; exact .inl hc
  | keep h' active scan todo report hpc =>
    exact .inl fun c hc => by simp only [Sweep.pending, hpc]; exact selected_sub hsub hc
  | candidate h' active scan todo r retired report hpc hmem hd =>
    refine .inl fun c hc => ?_
    simp only [Sweep.pending, hpc]
    rcases hc with rfl | hc
    · exact .inl ⟨r, retired, hmem, hd⟩
    · exact selected_sub hsub hc
  | recordsDone now active scan hpc =>
    exact .inl fun c hc => by simp only [Sweep.pending, hpc]; exact .inr hc
  | removeFile now active scan todo b retired hpc =>
    exact .inl fun c hc => by simpa only [Sweep.pending, hpc] using hc
  | deleteMetadata now active scan todo b retired deleted d' report hpc =>
    exact .inl fun c hc => by simp only [Sweep.pending, hpc]; exact .inr hc
  | skip k err active scan todo b retired hpc =>
    refine .inl fun c hc => ?_
    rcases hpc with hpc | hpc <;> simp only [Sweep.pending, hpc] <;> exact .inr hc
  | removeOrphan now b todo report hpc =>
    exact .inl fun c hc => by simp only [Sweep.pending, hpc]; exact List.mem_cons_of_mem _ hc
  | skipOrphan k err b todo hpc =>
    exact .inl fun c hc => by simp only [Sweep.pending, hpc]; exact List.mem_cons_of_mem _ hc

end HashBox.Vault
