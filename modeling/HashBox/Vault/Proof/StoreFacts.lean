import HashBox.Vault.Gc

/-!
# What each atomic operation of the Store does

One spec lemma per operation of `Store.lean` and `Gc.lean`: which records, files and manifests there
are afterwards. Later proofs cite these and never unfold the operations.
-/

namespace HashBox.Vault

open Dict

/-! ## Records and files -/

/-- Nothing is removed: the records, files and manifests that were there still are. -/
structure Disk.Grows (d d' : Disk) : Prop where
  record : ∀ h, d.hasRecord h → d'.hasRecord h
  file : ∀ h, d.hasFile h → d'.hasFile h

theorem Disk.Grows.refl (d : Disk) : d.Grows d := ⟨fun _ => id, fun _ => id⟩

theorem Disk.Grows.present {d d' : Disk} (g : d.Grows d') {h : Hash} (hp : d.present h) :
    d'.present h :=
  ⟨g.record h hp.1, g.file h hp.2⟩

theorem writeChunkIfMissing_hasFile_iff (d : Disk) (h : Hash) (c : Bytes) (now : Time) (k : Hash) :
    (writeChunkIfMissing d h c now).hasFile k ↔ d.hasFile k ∨ k = h := by
  unfold writeChunkIfMissing
  split
  · next f hf =>
    exact ⟨.inl, fun hk => hk.elim id fun he => by rw [he, Disk.hasFile, hf]; rfl⟩
  · simp only [Disk.hasFile, Dict.lookup_insert_if]
    split
    · next he => exact ⟨fun _ => .inr he, fun _ => rfl⟩
    · next he => exact ⟨.inl, fun hk => hk.resolve_right he⟩

theorem writeChunkIfMissing_hasRecord (d : Disk) (h : Hash) (c : Bytes) (now : Time) (k : Hash) :
    (writeChunkIfMissing d h c now).hasRecord k ↔ d.hasRecord k := by
  unfold writeChunkIfMissing
  split <;> rfl

theorem writeChunkIfMissing_grows (d : Disk) (h : Hash) (c : Bytes) (now : Time) :
    d.Grows (writeChunkIfMissing d h c now) :=
  ⟨fun k hk => (writeChunkIfMissing_hasRecord d h c now k).2 hk,
    fun k hk => (writeChunkIfMissing_hasFile_iff d h c now k).2 (.inl hk)⟩

theorem writeChunkIfMissing_hasFile (d : Disk) (h : Hash) (c : Bytes) (now : Time) :
    (writeChunkIfMissing d h c now).hasFile h :=
  (writeChunkIfMissing_hasFile_iff d h c now h).2 (.inr rfl)

theorem writeChunkIfMissing_file {d : Disk} {h k : Hash} {c : Bytes} {now : Time} {f : ChunkFile}
    (hf : (writeChunkIfMissing d h c now).files.lookup k = some f) (hk : d.hasFile k) :
    d.files.lookup k = some f := by
  unfold writeChunkIfMissing at hf
  split at hf
  · exact hf
  · next hn =>
    rcases Dict.lookup_insert_cases hf with ⟨rfl, -⟩ | ⟨-, hf⟩
    · rw [Disk.hasFile, hn] at hk
      cases hk
    · exact hf

theorem writeChunkIfMissing_manifests (d : Disk) (h : Hash) (c : Bytes) (now : Time) :
    (writeChunkIfMissing d h c now).manifests = d.manifests := by
  unfold writeChunkIfMissing
  split <;> rfl

theorem putNewChunk_hasRecord_iff (d : Disk) (h : Hash) (n : Nat) (now : Time) (k : Hash) :
    (putNewChunk d h n now).2.hasRecord k ↔ d.hasRecord k ∨ k = h := by
  unfold putNewChunk
  split
  · next r hr =>
    exact ⟨.inl, fun hk => hk.elim id fun he => by rw [he, Disk.hasRecord, hr]; rfl⟩
  · simp only [Disk.hasRecord, Dict.lookup_insert_if]
    split
    · next he => exact ⟨fun _ => .inr he, fun _ => rfl⟩
    · next he => exact ⟨.inl, fun hk => hk.resolve_right he⟩

theorem putNewChunk_hasFile (d : Disk) (h : Hash) (n : Nat) (now : Time) (k : Hash) :
    (putNewChunk d h n now).2.hasFile k ↔ d.hasFile k := by
  unfold putNewChunk
  split <;> rfl

theorem putNewChunk_grows (d : Disk) (h : Hash) (n : Nat) (now : Time) :
    d.Grows (putNewChunk d h n now).2 :=
  ⟨fun k hk => (putNewChunk_hasRecord_iff d h n now k).2 (.inl hk),
    fun k hk => (putNewChunk_hasFile d h n now k).2 hk⟩

theorem putNewChunk_hasRecord (d : Disk) (h : Hash) (n : Nat) (now : Time) :
    (putNewChunk d h n now).2.hasRecord h :=
  (putNewChunk_hasRecord_iff d h n now h).2 (.inr rfl)

theorem putNewChunk_manifests (d : Disk) (h : Hash) (n : Nat) (now : Time) :
    (putNewChunk d h n now).2.manifests = d.manifests := by
  unfold putNewChunk
  split <;> rfl

theorem putNewChunk_files (d : Disk) (h : Hash) (n : Nat) (now : Time) :
    (putNewChunk d h n now).2.files = d.files := by
  unfold putNewChunk
  split <;> rfl

theorem removeChunkFile_hasFile {d : Disk} {h h' : Hash} (hne : h' ≠ h) :
    (removeChunkFile d h).hasFile h' ↔ d.hasFile h' := by
  simp only [removeChunkFile, Disk.hasFile, lookup_erase_if, hne, if_false]

/-- `deleteChunkMetadata` removes the record or leaves the database as it is. -/
theorem deleteChunkMetadata_ok {d d' : Disk} {h : Hash} {olderThan : Time} {retired b : Bool}
    (hd : deleteChunkMetadata d h olderThan retired = .ok (b, d')) :
    d' = d ∨ d.drops h olderThan retired = true ∧ d' = { d with chunks := d.chunks.erase h } := by
  unfold deleteChunkMetadata at hd
  split at hd
  · cases hd; exact .inl rfl
  · next r hr =>
    split at hd
    · cases hd
    · next hkey =>
      split at hd <;> cases hd
      · exact .inl rfl
      · next hkeep =>
        refine .inr ⟨?_, rfl⟩
        simp only [Disk.drops, hr, Option.any_some]
        simp only [not_not] at hkey
        cases retired <;> simp_all

/-! ## Validity -/

theorem validateManifest_ok {m : ManifestRecord} : validateManifest m = .ok () ↔
    m.manifestID = m.fileHash ∧ m.chunkCount = m.chunkHashes.length ∧ 0 ≤ m.totalSizeBytes ∧
      m.immutable = true ∧ (m.retired = true → m.retiredAt.getD 0 ≠ 0) := by
  unfold validateManifest
  split
  · next h => exact ⟨fun h' => (by cases h'), fun h' => absurd h'.1 h⟩
  · next h1 =>
    split
    · next h => exact ⟨fun h' => (by cases h'), fun h' => absurd h'.2.1 h⟩
    · next h2 =>
      split
      · next h => exact ⟨fun h' => (by cases h'), fun h' => absurd h'.2.2.1 (Int.not_le.2 h)⟩
      · next h3 =>
        split
        · next h =>
          refine ⟨fun h' => (by cases h'), fun h' => ?_⟩
          rw [h'.2.2.2.1] at h
          cases h
        · next h4 =>
          split
          · next h =>
            simp only [Bool.and_eq_true, beq_iff_eq] at h
            exact ⟨fun h' => (by cases h'), fun h' => absurd h.2 (h'.2.2.2.2 h.1)⟩
          · next h5 =>
            simp only [Bool.and_eq_true, beq_iff_eq, not_and] at h5
            simp only [Bool.not_eq_true, Bool.not_eq_false'] at h4
            exact ⟨fun _ => ⟨not_not.1 h1, not_not.1 h2, Int.not_lt.1 h3, h4, h5⟩, fun _ => rfl⟩

theorem getManifest_ok {d : Disk} {manifestID : Hash} {m : ManifestRecord} :
    getManifest d manifestID = .ok m ↔
      d.manifests.lookup manifestID = some m ∧ validateManifest m = .ok () := by
  unfold getManifest
  split
  · next hn => exact ⟨fun h => (by cases h), fun h => by rw [hn] at h; cases h.1⟩
  · next m' hm' =>
    split
    · next e he =>
      refine ⟨fun h => (by cases h), fun ⟨h, hv⟩ => ?_⟩
      rw [hm'] at h
      cases h
      rw [he] at hv
      cases hv
    · next hv =>
      rw [hm', Except.ok.injEq, Option.some.injEq]
      exact ⟨fun h => ⟨h, h ▸ hv⟩, fun h => h.1⟩

/-! ## Commits -/

theorem Disk.referenced_congr {d d' : Disk} (h : d'.manifests = d.manifests) (c : Hash) :
    d'.referenced c ↔ d.referenced c := by
  simp only [Disk.referenced, h]

theorem addChunkRefs_ok {all hs : List Hash} {chunks chunks' : Dict Hash ChunkRecord}
    (h : addChunkRefs all hs chunks = .ok chunks') :
    (∀ k, (chunks'.lookup k).isSome = (chunks.lookup k).isSome) ∧
      ∀ k ∈ hs, (chunks.lookup k).isSome := by
  induction hs generalizing chunks with
  | nil => cases h; exact ⟨fun _ => rfl, fun _ hk => by cases hk⟩
  | cons k hs ih =>
    unfold addChunkRefs at h
    split at h
    · cases h
    · next r hr =>
      obtain ⟨h1, h2⟩ := ih h
      have hins : ∀ k' v, ((chunks.insert k v).lookup k').isSome = (chunks.lookup k').isSome := by
        intro k' v
        rw [lookup_insert_if]
        split
        · next he => subst he; rw [hr]; rfl
        · rfl
      refine ⟨fun k' => by rw [h1, hins], fun k' hk' => ?_⟩
      rcases List.mem_cons.1 hk' with rfl | hk'
      · rw [hr]; rfl
      · rw [← hins k']; exact h2 k' hk'

theorem addChunkRefs_total (all hs : List Hash) (chunks : Dict Hash ChunkRecord)
    (hall : ∀ h ∈ hs, (chunks.lookup h).isSome) :
    ∃ chunks', addChunkRefs all hs chunks = .ok chunks' := by
  induction hs generalizing chunks with
  | nil => exact ⟨_, rfl⟩
  | cons h hs ih =>
    obtain ⟨hh, hrest⟩ := List.forall_mem_cons.1 hall
    obtain ⟨r, hr⟩ := Option.isSome_iff_exists.1 hh
    rw [addChunkRefs, hr]
    refine ih _ fun k hk => ?_
    rw [Dict.lookup_insert_if]
    split
    · rfl
    · exact hrest k hk

/-- The record once `n` further references are counted. -/
def ChunkRecord.counted (r : ChunkRecord) (n : Nat) : ChunkRecord :=
  { r with manifestRefCount := r.manifestRefCount + n, retained := 0 < r.manifestRefCount + n }

/-- What counting references leaves at each hash. -/
theorem addChunkRefs_lookup {all hs : List Hash} {chunks chunks' : Dict Hash ChunkRecord}
    (hn : hs.Nodup) (h : addChunkRefs all hs chunks = .ok chunks') (k : Hash) :
    chunks'.lookup k =
      if k ∈ hs then (chunks.lookup k).map fun r => r.counted (all.count k)
      else chunks.lookup k := by
  induction hs generalizing chunks with
  | nil => cases h; rfl
  | cons j hs ih =>
    obtain ⟨hj, hn⟩ := List.nodup_cons.1 hn
    unfold addChunkRefs at h
    split at h
    · cases h
    · next r hr =>
      rw [ih hn h, lookup_insert_if]
      by_cases hk : k = j
      · subst hk
        rw [if_neg hj, if_pos rfl, if_pos List.mem_cons_self, hr]
        rfl
      · simp only [hk, if_false, List.mem_cons, false_or]

/-- **The three ways a commit succeeds**: an active manifest stays as it is, a retired one becomes
active with the chunk list it had, a new one is stored with the chunk list of the upload. -/
theorem commit_ok {d d' : Disk} {m : ManifestRecord}
    (h : commitManifestAndChunkRefs d m = .ok d') :
    (∃ e, d.manifests.lookup m.manifestID = some e ∧ validateManifest e = .ok () ∧
        e.retired = false ∧ d' = d) ∨
    (∃ e, d.manifests.lookup m.manifestID = some e ∧ validateManifest e = .ok () ∧
        e.retired = true ∧
        d' = { d with
          manifests := d.manifests.insert m.manifestID
            { e with retired := false, retiredAt := none } }) ∨
    (d.manifests.lookup m.manifestID = none ∧ ∃ chunks,
        addChunkRefs m.chunkHashes m.chunkHashes.dedup d.chunks = .ok chunks ∧
        d' = { d with
          chunks := chunks
          manifests := d.manifests.insert m.manifestID { m with fileHash := m.manifestID } }) := by
  unfold commitManifestAndChunkRefs at h
  dsimp only at h
  split at h
  · cases h
  · split at h
    · next e he =>
      split at h
      · cases h
      · next hv =>
        split at h
        · next hr => cases h; exact .inr (.inl ⟨e, he, hv, hr, rfl⟩)
        · next hr => cases h; exact .inl ⟨e, he, hv, by simpa using hr, rfl⟩
    · next hn =>
      split at h
      · cases h
      · next chunks hc => cases h; exact .inr (.inr ⟨hn, chunks, hc, rfl⟩)

/-- A commit succeeds if its manifest is valid, the stored one too, and its chunks have records. -/
theorem commit_total {d : Disk} {m : ManifestRecord}
    (hm : validateManifest { m with fileHash := m.manifestID } = .ok ())
    (hstored : ∀ e, d.manifests.lookup m.manifestID = some e → validateManifest e = .ok ())
    (hr : ∀ h ∈ m.chunkHashes, d.hasRecord h) :
    ∃ d', commitManifestAndChunkRefs d m = .ok d' := by
  simp only [commitManifestAndChunkRefs, hm]
  cases he : d.manifests.lookup m.manifestID with
  | some e =>
    simp only [hstored e he]
    split <;> exact ⟨_, rfl⟩
  | none =>
    obtain ⟨chunks, hc⟩ := addChunkRefs_total m.chunkHashes m.chunkHashes.dedup d.chunks
      fun h hh => hr h (List.mem_dedup.1 hh)
    simp only [hc]
    exact ⟨_, rfl⟩

/-- After a commit its manifest is active, and the others are as active as before. -/
theorem commit_active {d d' : Disk} {m : ManifestRecord}
    (hm : m.retired = false) (h : commitManifestAndChunkRefs d m = .ok d') (id : Hash) :
    d'.active id ↔ d.active id ∨ id = m.manifestID := by
  rcases commit_ok h with ⟨e, he, -, hr, rfl⟩ | ⟨e, he, -, -, rfl⟩ | ⟨hn, chunks, hc, rfl⟩
  · exact ⟨.inl, fun h => h.elim (fun h => h) fun h => h ▸ ⟨e, he, hr⟩⟩
  all_goals
    simp only [Disk.active, lookup_insert_if]
    split
    · next h => simp [h, hm]
    · next h => simp [h]

theorem commit_grows {d d' : Disk} {m : ManifestRecord}
    (h : commitManifestAndChunkRefs d m = .ok d') : d.Grows d' := by
  rcases commit_ok h with ⟨e, -, -, -, rfl⟩ | ⟨e, -, -, -, rfl⟩ | ⟨-, chunks, hc, rfl⟩
  · exact .refl d'
  · exact ⟨fun _ => id, fun _ => id⟩
  · refine ⟨fun k hk => ?_, fun _ => id⟩
    simp only [Disk.hasRecord, (addChunkRefs_ok hc).1 k]
    exact hk

theorem commit_files {d d' : Disk} {m : ManifestRecord}
    (h : commitManifestAndChunkRefs d m = .ok d') : d'.files = d.files := by
  rcases commit_ok h with ⟨e, -, -, -, rfl⟩ | ⟨e, -, -, -, rfl⟩ | ⟨-, chunks, -, rfl⟩ <;> rfl

/-- **`updateManifestLifecycle` rewrites the tombstone of one manifest and nothing else.** -/
theorem updateManifestLifecycle_ok {d d' : Disk} {manifestID : Hash} {retired : Bool} {now : Time}
    (h : updateManifestLifecycle d manifestID retired now = .ok d') :
    ∃ m, d.manifests.lookup manifestID = some m ∧ validateManifest m = .ok () ∧
      ((m.retired = retired ∧ d' = d) ∨
        (m.retired = !retired ∧ d' = { d with
          manifests := d.manifests.insert manifestID
            { m with retired := retired, retiredAt := if retired then some now else none } })) := by
  unfold updateManifestLifecycle at h
  split at h
  · cases h
  · next m hm =>
    split at h
    · cases h
    · next hv =>
      refine ⟨m, hm, hv, ?_⟩
      split at h
      · next hr => cases h; exact .inl ⟨hr, rfl⟩
      · next hr =>
        cases h
        refine .inr ⟨?_, rfl⟩
        cases hm' : m.retired <;> cases retired <;> simp_all

theorem updateManifestLifecycle_grows {d d' : Disk} {manifestID : Hash} {retired : Bool}
    {now : Time} (h : updateManifestLifecycle d manifestID retired now = .ok d') :
    d.Grows d' := by
  obtain ⟨m, -, -, ⟨-, rfl⟩ | ⟨-, rfl⟩⟩ := updateManifestLifecycle_ok h
  · exact .refl d'
  · exact ⟨fun _ => id, fun _ => id⟩

theorem updateManifestLifecycle_files {d d' : Disk} {manifestID : Hash} {retired : Bool}
    {now : Time} (h : updateManifestLifecycle d manifestID retired now = .ok d') :
    d'.files = d.files := by
  obtain ⟨m, -, -, ⟨-, rfl⟩ | ⟨-, rfl⟩⟩ := updateManifestLifecycle_ok h <;> rfl

/-! ## The metadata scan -/

theorem foldl_scanManifestChunk_referenced (m : ManifestRecord) (hs : List Hash) :
    ∀ (scan : GarbageCollectionScan) (h : Hash),
      h ∈ (hs.foldl (scanManifestChunk m) scan).referencedChunks ↔
        h ∈ scan.referencedChunks ∨ (m.retired = false ∧ h ∈ hs) := by
  induction hs with
  | nil => simp
  | cons k hs ih =>
    intro scan h
    rw [List.foldl_cons, ih]
    unfold scanManifestChunk
    by_cases hr : m.retired = true
    · simp only [hr, Bool.not_true, Bool.false_eq_true, if_false, Bool.true_eq_false, false_and,
        or_false]
      split
      · split <;> rfl
      · rfl
    · simp only [hr, Bool.not_false, if_true, true_and, List.mem_cons]
      tauto

theorem scanManifests_referenced {ms : List (Hash × ManifestRecord)} :
    ∀ {scan scan' : GarbageCollectionScan}, scanManifests ms scan = .ok scan' →
      ∀ h, h ∈ scan'.referencedChunks ↔
        h ∈ scan.referencedChunks ∨ ∃ e ∈ ms, e.2.retired = false ∧ h ∈ e.2.chunkHashes := by
  induction ms with
  | nil => intro scan scan' hs h; cases hs; simp
  | cons e ms ih =>
    intro scan scan' hs h
    obtain ⟨key, m⟩ := e
    unfold scanManifests at hs
    split at hs
    · cases hs
    · split at hs
      · cases hs
      · rw [ih hs h, foldl_scanManifestChunk_referenced]
        simp only [List.mem_cons, exists_eq_or_imp, or_assoc]

theorem scanChunkRecords_referenced {rs : List (Hash × ChunkRecord)} :
    ∀ {scan scan' : GarbageCollectionScan}, scanChunkRecords rs scan = .ok scan' →
      scan'.referencedChunks = scan.referencedChunks := by
  induction rs with
  | nil => intro scan scan' hs; cases hs; rfl
  | cons e rs ih =>
    intro scan scan' hs
    obtain ⟨key, r⟩ := e
    unfold scanChunkRecords at hs
    split at hs
    · cases hs
    · split at hs
      · cases hs
      · exact (ih hs).trans rfl

theorem scanManifests_keeps {ms : List (Hash × ManifestRecord)} :
    ∀ {scan scan' : GarbageCollectionScan}, scanManifests ms scan = .ok scan' →
      scan'.physicalOrphans = scan.physicalOrphans ∧ scan'.chunkRecords = scan.chunkRecords := by
  have chunk : ∀ (m : ManifestRecord) (hs : List Hash) (scan : GarbageCollectionScan),
      (hs.foldl (scanManifestChunk m) scan).physicalOrphans = scan.physicalOrphans ∧
        (hs.foldl (scanManifestChunk m) scan).chunkRecords = scan.chunkRecords := by
    intro m hs
    induction hs with
    | nil => exact fun _ => ⟨rfl, rfl⟩
    | cons k hs ih =>
      intro scan
      rw [List.foldl_cons, (ih _).1, (ih _).2]
      unfold scanManifestChunk
      dsimp only
      split
      · exact ⟨rfl, rfl⟩
      · split
        · split <;> exact ⟨rfl, rfl⟩
        · exact ⟨rfl, rfl⟩
  induction ms with
  | nil => intro scan scan' hs; cases hs; exact ⟨rfl, rfl⟩
  | cons e ms ih =>
    intro scan scan' hs
    obtain ⟨key, m⟩ := e
    unfold scanManifests at hs
    split at hs
    · cases hs
    · split at hs
      · cases hs
      · rw [(ih hs).1, (ih hs).2, (chunk _ _ _).1, (chunk _ _ _).2]
        exact ⟨rfl, rfl⟩

theorem scanChunkRecords_orphans {rs : List (Hash × ChunkRecord)} :
    ∀ {scan scan' : GarbageCollectionScan}, scanChunkRecords rs scan = .ok scan' →
      scan'.physicalOrphans = scan.physicalOrphans := by
  induction rs with
  | nil => intro scan scan' hs; cases hs; rfl
  | cons e rs ih =>
    intro scan scan' hs
    obtain ⟨key, r⟩ := e
    unfold scanChunkRecords at hs
    split at hs
    · cases hs
    · split at hs
      · cases hs
      · exact (ih hs).trans rfl

theorem scanMetadata_orphans {d : Disk} {olderThan : Time} {active : List Hash}
    {scan : GarbageCollectionScan} (hs : scanMetadata d olderThan active = .ok scan) :
    scan.physicalOrphans = [] := by
  unfold scanMetadata at hs
  split at hs
  · cases hs
  · next s1 h1 =>
    split at hs
    · cases hs
    · next s2 h2 =>
      cases hs
      exact (scanChunkRecords_orphans h2).trans (scanManifests_keeps h1).1

/-- **The scan's referenced chunks are those that active manifests list.** -/
theorem scanMetadata_referenced {d : Disk} {olderThan : Time} {active : List Hash}
    {scan : GarbageCollectionScan} (hs : scanMetadata d olderThan active = .ok scan) (h : Hash) :
    h ∈ scan.referencedChunks ↔ d.referenced h := by
  unfold scanMetadata at hs
  split at hs
  · cases hs
  · next s1 h1 =>
    split at hs
    · cases hs
    · next s2 h2 =>
      cases hs
      simp only [countSkippedActive, scanChunkRecords_referenced h2, scanManifests_referenced h1,
        GarbageCollectionScan.empty, List.not_mem_nil, false_or, Disk.referenced, Prod.exists,
        mem_toList]

theorem sweepDecision_candidate {scan : GarbageCollectionScan} {active : List Hash}
    {olderThan : Time} {h : Hash} {r : ChunkRecord} {retired : Bool}
    (hd : sweepDecision scan active olderThan h r = .candidate retired) :
    h ∉ scan.referencedChunks ∧ h ∉ active := by
  unfold sweepDecision at hd
  split at hd
  · cases hd
  · split at hd
    · split at hd <;> cases hd
    · next h1 h2 => exact ⟨by simpa using h1, by simpa using h2⟩

theorem orphanHash_spec {scan : GarbageCollectionScan} {active : List Hash} {olderThan : Time}
    {h : Hash} (ho : orphanHash scan active olderThan h = true) :
    h ∉ scan.referencedChunks ∧ h ∉ active := by
  simp only [orphanHash, Bool.and_eq_true, Bool.not_eq_true', List.contains_eq_mem,
    decide_eq_false_iff_not] at ho
  exact ⟨ho.1.1.1, ho.1.2⟩

/-- The walk changes the report and appends to the orphans, and only an old file that `orphanHash`
allows. -/
theorem visitFile_spec (active : List Hash) (olderThan : Time) (scan : GarbageCollectionScan)
    (h : Hash) (f : ChunkFile) :
    (visitFile active olderThan scan h f).referencedChunks = scan.referencedChunks ∧
    (visitFile active olderThan scan h f).retiredChunkAt = scan.retiredChunkAt ∧
    (visitFile active olderThan scan h f).chunkRecords = scan.chunkRecords ∧
    ((visitFile active olderThan scan h f).physicalOrphans = scan.physicalOrphans ∨
      (orphanHash scan active olderThan h = true ∧ f.modTime < olderThan ∧
        (visitFile active olderThan scan h f).physicalOrphans = scan.physicalOrphans ++ [h])) := by
  unfold visitFile
  dsimp only
  split
  · exact ⟨rfl, rfl, rfl, .inl rfl⟩
  · split
    · exact ⟨rfl, rfl, rfl, .inl rfl⟩
    · split
      · exact ⟨rfl, rfl, rfl, .inl rfl⟩
      · split
        · exact ⟨rfl, rfl, rfl, .inl rfl⟩
        · split
          · next hmod =>
            refine ⟨rfl, rfl, rfl, .inr ⟨?_, hmod, rfl⟩⟩
            simp_all [orphanHash]
          · exact ⟨rfl, rfl, rfl, .inl rfl⟩

end HashBox.Vault
