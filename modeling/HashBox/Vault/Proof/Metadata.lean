import HashBox.Vault.Metadata
import HashBox.Vault.Proof.Freshness

/-!
# Bad metadata stops the collector

Every stored record is read and checked before the first deletion (`scanMetadata_ok`), and the walk
comes before it too, so a record that does not decode or is not well-formed, or a walk that fails,
leaves everything as it was (`collectGarbage_fail_safe`). On records that were written from a `Disk`
the checks are those of `Gc.lean` (`Stores.malformed_iff`).
-/

namespace HashBox.Vault.Metadata

variable {env : Env} {s : Store} {olderThan : Time} {active : List String} {key : String}
  {value : Bytes}

/-! ## Well-formed records -/

/-- A manifest record that may stand under `manifest:<keyID>`. -/
structure ManifestRecord.WellFormed (m : ManifestRecord) (keyID : String) : Prop where
  hash : ∃ n, normalizeHash m.manifestID = .ok n ∧ normalizeHash m.fileHash = .ok n
  count : m.chunkCount = m.chunkHashes.length
  size : 0 ≤ m.totalSizeBytes
  immutable : m.immutable = true
  tombstone : m.retired = true → ∃ t, m.retiredAt = some t ∧ t ≠ 0
  chunks : ∀ h ∈ m.chunkHashes, ∃ n, normalizeHash h = .ok n
  key : normalizeHash keyID = .ok m.manifestID

/-- A chunk record that may stand under `chunk:<keyHash>`. -/
structure ChunkRecord.WellFormed (r : ChunkRecord) (keyHash : String) : Prop where
  key : ∃ n, normalizeHash keyHash = .ok n ∧ normalizeHash r.chunkHash = .ok n
  count : 0 ≤ r.manifestRefCount

/-- Some value under a manifest's key does not decode to a well-formed manifest, or some value under
a chunk's key to a well-formed chunk record. -/
def Store.Malformed (env : Env) (s : Store) : Prop :=
  (∃ key value, s.db.lookup key = some value ∧ hasPrefix manifestPrefix key = true ∧
    ∀ m, env.unmarshalManifest value = .ok m → ¬ m.WellFormed (trimPrefix manifestPrefix key)) ∨
  ∃ key value, s.db.lookup key = some value ∧ hasPrefix chunkPrefix key = true ∧
    ∀ r, env.unmarshalChunk value = .ok r → ¬ r.WellFormed (trimPrefix chunkPrefix key)

/-! ## The checks -/

theorem checkHashes_ok_iff {hs : List String} :
    checkHashes hs = .ok () ↔ ∀ h ∈ hs, ∃ n, normalizeHash h = .ok n := by
  unfold checkHashes
  induction hs with
  | nil => simp [pure, Except.pure]
  | cons h hs ih =>
    rw [List.forall_mem_cons, List.forM_cons]
    cases hn : normalizeHash h with
    | error e => simp [Except.map, bind, Except.bind]
    | ok n => simpa [Except.map, bind, Except.bind] using ih

theorem check_ok_iff {p : Prop} [Decidable p] {e : Error} {x : Except Error Unit} :
    (if p then .error e else x) = .ok () ↔ ¬ p ∧ x = .ok () := by
  by_cases hp : p <;> simp [hp]

theorem normalizeHash_empty : normalizeHash "" = .error .invalidHash := rfl

/-- `validateManifest` finds every defect but that of the key. -/
theorem validateManifest_ok_iff {m : ManifestRecord} : validateManifest m = .ok () ↔
    (∃ n, normalizeHash m.manifestID = .ok n ∧ normalizeHash m.fileHash = .ok n) ∧
      m.chunkCount = m.chunkHashes.length ∧ 0 ≤ m.totalSizeBytes ∧ m.immutable = true ∧
      (m.retired = true → ∃ t, m.retiredAt = some t ∧ t ≠ 0) ∧
      ∀ h ∈ m.chunkHashes, ∃ n, normalizeHash h = .ok n := by
  have htomb : ¬ (m.retired && m.retiredAt.getD 0 == 0) = true ↔
      (m.retired = true → ∃ t, m.retiredAt = some t ∧ t ≠ 0) := by
    cases m.retired <;> cases m.retiredAt <;> simp
  rw [validateManifest, check_ok_iff]
  cases h1 : normalizeHash m.manifestID with
  | error e => simp
  | ok id =>
    cases h2 : normalizeHash m.fileHash with
    | error e => simp
    | ok file =>
      have hne : ¬ (m.manifestID = "" ∨ m.fileHash = "") := by
        rintro (h | h)
        · rw [h, normalizeHash_empty] at h1; cases h1
        · rw [h, normalizeHash_empty] at h2; cases h2
      have hsame : (∃ n, (Except.ok id : Except Error String) = .ok n ∧
          (Except.ok file : Except Error String) = .ok n) ↔ id = file := by
        constructor
        · rintro ⟨n, hid, hfile⟩
          cases hid; cases hfile; rfl
        · rintro rfl
          exact ⟨id, rfl, rfl⟩
      simp only [check_ok_iff, checkHashes_ok_iff, htomb, hne, not_false_eq_true, true_and, hsame,
        ne_eq, not_not, not_lt, Bool.not_eq_true', Bool.not_eq_false]

/-- **What is read of a manifest's entry is well-formed.** -/
theorem readManifest_ok {m : ManifestRecord} (h : readManifest env key value = .ok m) :
    env.unmarshalManifest value = .ok m ∧ m.WellFormed (trimPrefix manifestPrefix key) := by
  unfold readManifest decodeManifest at h
  split at h
  · cases h
  split at h
  · cases h
  next m' hdec =>
  split at hdec
  · cases hdec
  split at h
  · cases h
  next hv =>
  dsimp only at h
  split at h
  · next hk =>
    cases h
    obtain ⟨h1, h2, h3, h4, h5, h6⟩ := validateManifest_ok_iff.1 hv
    exact ⟨hdec, h1, h2, h3, h4, h5, h6, hk⟩
  · cases h

theorem readChunk_ok {r : ChunkRecord} (h : readChunk env key value = .ok r) :
    ∃ r', env.unmarshalChunk value = .ok r' ∧ r'.WellFormed (trimPrefix chunkPrefix key) := by
  unfold readChunk decodeChunk at h
  split at h
  · cases h
  split at h
  · cases h
  next r' hdec =>
  split at hdec
  · cases hdec
  dsimp only at h
  split at h
  · cases h
  next n hn =>
  split at h
  · cases h
  next hr =>
  split at h
  · cases h
  next hc => exact ⟨r', hdec, ⟨n, hn, not_not.1 hr⟩, Int.not_lt.1 hc⟩

/-! ## The scan comes to every record -/

theorem scanManifests_ok {es : List (String × Bytes)} : ∀ {scan scan' : Scan},
    scanManifests env es scan = (scan', none) →
      ∀ e ∈ es, ∃ m, readManifest env e.1 e.2 = .ok m := by
  induction es with
  | nil => exact fun _ _ h => by cases h
  | cons e es ih =>
    intro scan scan' h
    obtain ⟨key, value⟩ := e
    rw [scanManifests] at h
    rw [List.forall_mem_cons]
    cases hm : readManifest env key value with
    | error err => rw [hm] at h; cases h
    | ok m =>
      rw [hm] at h
      dsimp only at h
      split at h
      · cases h
      · exact ⟨⟨m, rfl⟩, ih h⟩

theorem scanChunkRecords_ok {es : List (String × Bytes)} : ∀ {scan scan' : Scan},
    scanChunkRecords env es scan = (scan', none) →
      ∀ e ∈ es, ∃ r, readChunk env e.1 e.2 = .ok r := by
  induction es with
  | nil => exact fun _ _ h => by cases h
  | cons e es ih =>
    intro scan scan' h
    obtain ⟨key, value⟩ := e
    rw [scanChunkRecords] at h
    rw [List.forall_mem_cons]
    cases hr : readChunk env key value with
    | error err => rw [hr] at h; cases h
    | ok r =>
      rw [hr] at h
      exact ⟨⟨r, rfl⟩, ih h⟩

/-- **A scan that succeeds has read well-formed records only.** -/
theorem scanMetadata_ok {scan : Scan} (h : scanMetadata env s = (scan, none)) :
    ¬ s.Malformed env := by
  unfold scanMetadata at h
  split at h
  · cases h
  next scan1 h1 =>
  have mem : ∀ {p key value}, s.db.lookup key = some value → hasPrefix p key = true →
      (key, value) ∈ withPrefix p s := fun hv hp =>
    List.mem_filter.2 ⟨Dict.mem_toList.2 hv, hp⟩
  rintro (⟨key, value, hv, hp, hbad⟩ | ⟨key, value, hv, hp, hbad⟩)
  · obtain ⟨m, hm⟩ := scanManifests_ok h1 _ (mem hv hp)
    obtain ⟨hdec, hwf⟩ := readManifest_ok hm
    exact hbad m hdec hwf
  · obtain ⟨r, hr⟩ := scanChunkRecords_ok h _ (mem hv hp)
    obtain ⟨r', hdec, hwf⟩ := readChunk_ok hr
    exact hbad r' hdec hwf

/-- The error that the directory walk of a sweep returns. -/
def Store.walkError (env : Env) (s : Store) (olderThan : Time) (active : List String) :
    Option WalkError :=
  (walkDir env active olderThan env.walk
    (countSkippedActive active olderThan (scanMetadata env s).1)).2

/-- **Collection is fail-safe.** If a manifest or a chunk record anywhere does not decode or is not
well-formed, or the walk fails other than for want of the directory, the sweep returns an error and
removes nothing, whatever else is to be collected. -/
theorem collectGarbage_fail_safe (env : Env) (s : Store) (olderThan : Time) (active : List String)
    (h : s.Malformed env ∨ ∃ e, s.walkError env olderThan active = some (.other e)) :
    (collectGarbage env s olderThan active).2.1 ≠ [] ∧
      (collectGarbage env s olderThan active).2.2 = s := by
  have hscan : ∃ scan e, scanGarbageCollection env s olderThan active = (scan, some e) := by
    unfold scanGarbageCollection
    cases hmeta : scanMetadata env s with
    | mk scan o =>
      cases o with
      | some e => exact ⟨_, _, rfl⟩
      | none =>
        obtain hbad | ⟨e, hwalk⟩ := h
        · exact absurd hbad (scanMetadata_ok hmeta)
        · rw [Store.walkError, hmeta] at hwalk
          dsimp only at hwalk ⊢
          cases hw : walkDir env active olderThan env.walk
            (countSkippedActive active olderThan scan) with
          | mk scan' o =>
            rw [hw] at hwalk
            cases hwalk
            exact ⟨_, _, rfl⟩
  obtain ⟨scan, e, hscan⟩ := hscan
  unfold collectGarbage
  rw [hscan]
  split
  · exact ⟨List.cons_ne_nil _ _, rfl⟩
  · split
    · exact ⟨List.cons_ne_nil _ _, rfl⟩
    · exact ⟨List.cons_ne_nil _ _, rfl⟩

theorem trimPrefix_append (p t : String) : trimPrefix p (p ++ t) = t := by
  rw [trimPrefix, String.toList_append, List.drop_left, String.ofList_toList]

theorem hasPrefix_append (p t : String) : hasPrefix p (p ++ t) = true := by
  rw [hasPrefix, String.toList_append, List.isPrefixOf_iff_prefix]
  exact List.prefix_append _ _

/-- An old record of a chunk that no manifest lists. -/
def dueRecord : ChunkRecord where
  chunkHash := hex 2
  sizeBytes := 1
  storagePath := "chunks/00/00"
  manifestRefCount := 0
  retained := false
  createdAt := 1

def dueStore : Store where
  db := (∅ : Dict String Bytes).insert (chunkKey (hex 2)) [2]
  files := [chunkPath 2]

/-- With it, a manifest that is no JSON. -/
def sampleStore : Store :=
  { dueStore with db := dueStore.db.insert (manifestKey (hex 1)) [1] }

/-- A decoder that takes the chunk's record. -/
def sampleEnv : Env where
  chunkRoot := "chunks"
  unmarshalManifest _ := .error (.other "invalid character")
  unmarshalChunk value :=
    if value = [2] then .ok dueRecord else .error (.other "invalid character")
  fault _ := none
  walk := [.entry ⟨chunkPath 2, true, .ok 5⟩]
  order l := l
  order_perm l := .refl l

theorem scanMetadata_dueStore : scanMetadata sampleEnv dueStore = ({ Scan.empty with
    chunkRecords := (∅ : Dict String ChunkRecord).insert (hex 2) dueRecord
    report := { GarbageCollectionReport.zero with scannedChunkRecords := 1 } }, none) := by
  have hkeys : Dict.toList dueStore.db = [(chunkKey (hex 2), [2])] := rfl
  have hmanifest : hasPrefix manifestPrefix (chunkKey (hex 2)) = false := by
    rw [hasPrefix, chunkKey, String.toList_append]
    rfl
  have hchunk : hasPrefix chunkPrefix (chunkKey (hex 2)) = true := hasPrefix_append _ _
  have hread : readChunk sampleEnv (chunkKey (hex 2)) [2] = .ok dueRecord := by
    simp [readChunk, Env.try, sampleEnv, decodeChunk, chunkKey, trimPrefix_append,
      normalizeHash_hex, dueRecord]
  simp only [scanMetadata, withPrefix, hkeys, List.filter_cons, hmanifest, hchunk, List.filter_nil,
    if_true, Bool.false_eq_true, if_false, scanManifests, scanChunkRecords, hread]
  rfl

/-- Without the manifest the sweep takes the chunk. -/
theorem collectGarbage_fail_safe_sample :
    (∃ scan, scanMetadata sampleEnv dueStore = (scan, none) ∧
      scan.chunkRecords.lookup (hex 2) = some dueRecord ∧
      sweepDecision scan [] 9 (hex 2) dueRecord = .candidate false) ∧
    (collectGarbage sampleEnv sampleStore 9 []).2.1 ≠ [] ∧
      (collectGarbage sampleEnv sampleStore 9 []).2.2 = sampleStore :=
  ⟨⟨_, scanMetadata_dueStore, AList.lookup_insert _, rfl⟩,
    collectGarbage_fail_safe sampleEnv sampleStore 9 [] <| .inl <| .inl
      ⟨manifestKey (hex 1), [1], by decide, by decide, fun m hm => by cases hm⟩⟩

/-! ## Records that were written from a disk -/

def manifestText (m : Vault.ManifestRecord) : ManifestRecord where
  manifestID := hex m.manifestID
  fileHash := hex m.fileHash
  chunkHashes := m.chunkHashes.map hex
  totalSizeBytes := m.totalSizeBytes
  chunkCount := m.chunkCount
  createdAt := m.createdAt
  immutable := m.immutable
  retired := m.retired
  retiredAt := m.retiredAt

def chunkText (r : Vault.ChunkRecord) (storagePath : String) : ChunkRecord where
  chunkHash := hex r.chunkHash
  sizeBytes := r.sizeBytes
  storagePath := storagePath
  manifestRefCount := r.manifestRefCount
  retained := r.retained
  createdAt := r.createdAt

theorem normalizeHash_hex_eq {h : Hash} {n : String} :
    normalizeHash (hex h) = .ok n ↔ hex h = n := by
  rw [normalizeHash_hex, Except.ok.injEq]

/-- On stored records `validateManifest` and the check of the key are those of `Gc.lean`. -/
theorem manifestText_wellFormed {m : Vault.ManifestRecord} {id : Hash} :
    (manifestText m).WellFormed (hex id) ↔
      Vault.validateManifest m = .ok () ∧ id = m.manifestID := by
  rw [validateManifest_ok]
  constructor
  · rintro ⟨⟨n, hn, hf⟩, hcount, hsize, himm, htomb, -, hkey⟩
    have hid := hex_injective (normalizeHash_hex_eq.1 hkey)
    refine ⟨⟨hex_injective ((normalizeHash_hex_eq.1 hn).trans (normalizeHash_hex_eq.1 hf).symm), ?_,
      hsize, himm, fun hr => ?_⟩, hid⟩
    · simpa only [manifestText, List.length_map] using hcount
    · obtain ⟨t, ht, hne⟩ := htomb hr
      exact (congrArg (Option.getD · 0) ht).trans_ne hne
  · rintro ⟨⟨hf, hcount, hsize, himm, htomb⟩, rfl⟩
    refine ⟨⟨hex m.manifestID, normalizeHash_hex _, ?_⟩, ?_, hsize, himm, fun hr => ?_, ?_,
      normalizeHash_hex _⟩
    · rw [hf]
      exact normalizeHash_hex _
    · simpa only [manifestText, List.length_map] using hcount
    · have hne := htomb hr
      cases ht : m.retiredAt with
      | none => rw [ht] at hne; exact absurd rfl hne
      | some t => rw [ht] at hne; exact ⟨t, ht, hne⟩
    · intro h hh
      obtain ⟨h', -, rfl⟩ := List.mem_map.1 hh
      exact ⟨_, normalizeHash_hex h'⟩

theorem chunkText_wellFormed {r : Vault.ChunkRecord} {storagePath : String} {h : Hash} :
    (chunkText r storagePath).WellFormed (hex h) ↔ r.chunkHash = h ∧ 0 ≤ r.manifestRefCount := by
  constructor
  · rintro ⟨⟨n, hn, hr⟩, hc⟩
    exact ⟨hex_injective ((normalizeHash_hex_eq.1 hr).trans (normalizeHash_hex_eq.1 hn).symm), hc⟩
  · rintro ⟨rfl, hc⟩
    exact ⟨⟨_, normalizeHash_hex _, normalizeHash_hex _⟩, hc⟩

structure Stores (env : Env) (s : Store) (d : Disk) : Prop where
  manifest : ∀ key value, s.db.lookup key = some value → hasPrefix manifestPrefix key = true →
    ∃ id m, key = manifestKey (hex id) ∧ d.manifests.lookup id = some m ∧
      env.unmarshalManifest value = .ok (manifestText m)
  hasManifest : ∀ id m, d.manifests.lookup id = some m →
    ∃ value, s.db.lookup (manifestKey (hex id)) = some value ∧
      env.unmarshalManifest value = .ok (manifestText m)
  chunk : ∀ key value, s.db.lookup key = some value → hasPrefix chunkPrefix key = true →
    ∃ h r storagePath, key = chunkKey (hex h) ∧ d.chunks.lookup h = some r ∧
      env.unmarshalChunk value = .ok (chunkText r storagePath)
  hasChunk : ∀ h r, d.chunks.lookup h = some r →
    ∃ value storagePath, s.db.lookup (chunkKey (hex h)) = some value ∧
      env.unmarshalChunk value = .ok (chunkText r storagePath)

/-- **Both scans accept the same records.** -/
theorem Stores.malformed_iff {d : Disk} (h : Stores env s d) : s.Malformed env ↔ ¬ d.Valid := by
  constructor
  · rintro (⟨key, value, hv, hp, hbad⟩ | ⟨key, value, hv, hp, hbad⟩) hd
    · obtain ⟨id, m, rfl, hm, hdec⟩ := h.manifest key value hv hp
      refine hbad _ hdec ?_
      rw [manifestKey, trimPrefix_append]
      exact manifestText_wellFormed.2 (hd.manifest id m hm)
    · obtain ⟨k, r, storagePath, rfl, hr, hdec⟩ := h.chunk key value hv hp
      refine hbad _ hdec ?_
      rw [chunkKey, trimPrefix_append]
      exact chunkText_wellFormed.2 (hd.record k r hr)
  · intro hbad
    by_contra hwell
    rw [Store.Malformed, not_or] at hwell
    push Not at hwell
    refine hbad ⟨fun id m hm => ?_, fun k r hr => ?_⟩
    · obtain ⟨value, hv, hdec⟩ := h.hasManifest id m hm
      obtain ⟨m', hdec', hwf⟩ := hwell.1 _ _ hv (hasPrefix_append _ _)
      rw [← Except.ok.inj (hdec.symm.trans hdec'), manifestKey, trimPrefix_append] at hwf
      exact manifestText_wellFormed.1 hwf
    · obtain ⟨value, storagePath, hv, hdec⟩ := h.hasChunk k r hr
      obtain ⟨r', hdec', hwf⟩ := hwell.2 _ _ hv (hasPrefix_append _ _)
      rw [← Except.ok.inj (hdec.symm.trans hdec'), chunkKey, trimPrefix_append] at hwf
      exact chunkText_wellFormed.1 hwf

end HashBox.Vault.Metadata
