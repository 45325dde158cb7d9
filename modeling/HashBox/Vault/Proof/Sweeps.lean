import HashBox.Vault.Calls
import HashBox.Vault.Proof.StoreFacts

/-!
# What a whole sweep does to the disk

`Disk.collectable` and `Disk.orphaned` say, from the disk alone, which chunks a sweep is to take.
The scan decides just so (`Reads.candidate_iff`, `Reads.orphanHash_iff`), in whatever order it
iterates. So a sweep, whatever fails in it, removes nothing else (`collectGarbage_swept`), and one
that returns no error removes all of it (`collectGarbage_done`). Chunks that an active manifest
lists, or a retired one that `olderThan` does not reach, are never among them
(`collectGarbage_effect`).
-/

namespace HashBox.Vault

variable {d d' : Disk} {olderThan : Time} {active : List Hash} {scan scan' : GarbageCollectionScan}

/-! ## What a sweep is to take -/

def Disk.tombstoned (d : Disk) (h : Hash) : Prop :=
  ∃ id m, d.manifests.lookup id = some m ∧ m.retired = true ∧ h ∈ m.chunkHashes

def Disk.expired (d : Disk) (olderThan : Time) (h : Hash) : Prop :=
  ∀ id m, d.manifests.lookup id = some m → m.retired = true → h ∈ m.chunkHashes →
    m.retiredAt.getD 0 < olderThan

/-- The chunk's record, and its file with it, is to go. -/
def Disk.collectable (d : Disk) (olderThan : Time) (active : List Hash) (h : Hash) : Prop :=
  ¬ d.referenced h ∧ h ∉ active ∧ d.expired olderThan h ∧
    ∃ r, d.chunks.lookup h = some r ∧
      (d.tombstoned h ∨ r.manifestRefCount = 0 ∧ r.createdAt ≠ 0 ∧ r.createdAt < olderThan)

def Disk.orphaned (d : Disk) (olderThan : Time) (active : List Hash) (h : Hash) : Prop :=
  ¬ d.referenced h ∧ h ∉ active ∧ d.expired olderThan h ∧ d.chunks.lookup h = none ∧
    ∃ f, d.files.lookup h = some f ∧ f.modTime < olderThan

/-! ## What the scan knows -/

/-- The scan has the chunk's retirement at `t` or later. -/
def GarbageCollectionScan.retiredFrom (scan : GarbageCollectionScan) (h : Hash) (t : Time) : Prop :=
  ∃ t', scan.retiredChunkAt.lookup h = some t' ∧ t ≤ t'

theorem scanManifestChunk_retiredFrom (m : ManifestRecord) (k : Hash) {h : Hash} {t : Time}
    (hs : scan.retiredFrom h t) : (scanManifestChunk m scan k).retiredFrom h t := by
  obtain ⟨t', hl, ht⟩ := hs
  have insert : ∀ (s' : Time), (k = h → t ≤ s') →
      ∃ t', (scan.retiredChunkAt.insert k s').lookup h = some t' ∧ t ≤ t' := by
    intro s' hs'
    rw [Dict.lookup_insert_if]
    split
    · next he => exact ⟨s', rfl, hs' he.symm⟩
    · exact ⟨t', hl, ht⟩
  unfold scanManifestChunk
  dsimp only
  split
  · exact ⟨t', hl, ht⟩
  · split
    · next previous hp =>
      split
      · next hlt =>
        refine insert _ fun he => ?_
        subst he
        rw [hl] at hp
        cases hp
        exact Nat.le_of_lt (Nat.lt_of_le_of_lt ht hlt)
      · exact ⟨t', hl, ht⟩
    · next hn =>
      refine insert _ fun he => ?_
      subst he
      rw [hl] at hn
      cases hn

theorem foldl_scanManifestChunk_retiredFrom (m : ManifestRecord) (hs : List Hash) :
    ∀ (scan : GarbageCollectionScan) {h : Hash} {t : Time}, scan.retiredFrom h t →
      (hs.foldl (scanManifestChunk m) scan).retiredFrom h t := by
  induction hs with
  | nil => exact fun _ _ _ h => h
  | cons k hs ih => exact fun scan _ _ h => ih _ (scanManifestChunk_retiredFrom m k h)

/-- A retired manifest's chunks have its retirement time, or a later one. -/
theorem foldl_scanManifestChunk_retired {m : ManifestRecord} (hr : m.retired = true)
    (hs : List Hash) : ∀ (scan : GarbageCollectionScan), ∀ h ∈ hs,
      (hs.foldl (scanManifestChunk m) scan).retiredFrom h (m.retiredAt.getD 0) := by
  induction hs with
  | nil => exact fun _ _ h => by cases h
  | cons k hs ih =>
    intro scan h hh
    rcases List.mem_cons.1 hh with rfl | hh
    · refine foldl_scanManifestChunk_retiredFrom m hs _ ?_
      unfold scanManifestChunk
      simp only [hr, Bool.not_true, Bool.false_eq_true, if_false]
      split
      · next previous hp =>
        split
        · exact ⟨_, by simp only [Dict.lookup_insert_if, if_true], Nat.le_refl _⟩
        · next hlt => exact ⟨previous, hp, Nat.le_of_not_lt hlt⟩
      · exact ⟨_, by simp only [Dict.lookup_insert_if, if_true], Nat.le_refl _⟩
    · exact ih _ h hh

theorem scanManifestChunk_retiredBy {P : Hash → Time → Prop} {m : ManifestRecord} {k : Hash}
    (hm : m.retired = true → P k (m.retiredAt.getD 0))
    (hs : ∀ h t, scan.retiredChunkAt.lookup h = some t → P h t) :
    ∀ h t, (scanManifestChunk m scan k).retiredChunkAt.lookup h = some t → P h t := by
  have insert : m.retired = true → ∀ h t,
      (scan.retiredChunkAt.insert k (m.retiredAt.getD 0)).lookup h = some t → P h t := by
    intro hr h t hl
    rcases Dict.lookup_insert_cases hl with ⟨he, rfl⟩ | ⟨-, hl⟩
    · exact he ▸ hm hr
    · exact hs h t hl
  unfold scanManifestChunk
  dsimp only
  split
  · exact hs
  · next hr =>
    have hr : m.retired = true := by simpa using hr
    split
    · split
      · exact insert hr
      · exact hs
    · exact insert hr

theorem foldl_scanManifestChunk_retiredBy {P : Hash → Time → Prop} {m : ManifestRecord}
    (hs : List Hash) (hm : m.retired = true → ∀ h ∈ hs, P h (m.retiredAt.getD 0)) :
    ∀ scan : GarbageCollectionScan, (∀ h t, scan.retiredChunkAt.lookup h = some t → P h t) →
      ∀ h t, (hs.foldl (scanManifestChunk m) scan).retiredChunkAt.lookup h = some t → P h t := by
  induction hs with
  | nil => exact fun _ h => h
  | cons k hs ih =>
    exact fun scan hs => ih (fun hr h hh => hm hr h (List.mem_cons_of_mem _ hh)) _
      (scanManifestChunk_retiredBy (fun hr => hm hr k List.mem_cons_self) hs)

theorem scanManifests_retired {ms : List (Hash × ManifestRecord)} :
    ∀ {scan scan' : GarbageCollectionScan}, scanManifests ms scan = .ok scan' →
      (∀ h t, scan.retiredFrom h t → scan'.retiredFrom h t) ∧
      (∀ e ∈ ms, e.2.retired = true → ∀ h ∈ e.2.chunkHashes,
        scan'.retiredFrom h (e.2.retiredAt.getD 0)) ∧
      ∀ P : Hash → Time → Prop, (∀ h t, scan.retiredChunkAt.lookup h = some t → P h t) →
        (∀ e ∈ ms, e.2.retired = true → ∀ h ∈ e.2.chunkHashes, P h (e.2.retiredAt.getD 0)) →
        ∀ h t, scan'.retiredChunkAt.lookup h = some t → P h t := by
  induction ms with
  | nil =>
    intro scan scan' hs
    cases hs
    exact ⟨fun _ _ => id, fun _ h => (by cases h), fun _ h _ => h⟩
  | cons e ms ih =>
    intro scan scan' hs
    obtain ⟨key, m⟩ := e
    unfold scanManifests at hs
    split at hs
    · cases hs
    · split at hs
      · cases hs
      · obtain ⟨h1, h2, h3⟩ := ih hs
        refine ⟨fun h t hh => h1 h t (foldl_scanManifestChunk_retiredFrom m _ _ hh),
          fun e he hr h hh => ?_, fun P hP hall => h3 P ?_ fun e he =>
            hall e (List.mem_cons_of_mem _ he)⟩
        · rcases List.mem_cons.1 he with rfl | he
          · exact h1 h _ (foldl_scanManifestChunk_retired hr _ _ h hh)
          · exact h2 e he hr h hh
        · exact foldl_scanManifestChunk_retiredBy _ (hall (key, m) List.mem_cons_self) _ hP

theorem scanChunkRecords_records {rs : List (Hash × ChunkRecord)} :
    ∀ {scan scan' : GarbageCollectionScan}, scanChunkRecords rs scan = .ok scan' →
      scan'.retiredChunkAt = scan.retiredChunkAt ∧
      (∀ h, (scan.chunkRecords.lookup h).isSome → (scan'.chunkRecords.lookup h).isSome) ∧
      (∀ e ∈ rs, (scan'.chunkRecords.lookup e.1).isSome) ∧
      ∀ h r, scan'.chunkRecords.lookup h = some r → scan.chunkRecords.lookup h = some r ∨
        (h, r) ∈ rs := by
  induction rs with
  | nil =>
    intro scan scan' hs
    cases hs
    exact ⟨rfl, fun _ => id, fun _ h => (by cases h), fun _ _ => .inl⟩
  | cons e rs ih =>
    intro scan scan' hs
    obtain ⟨key, r⟩ := e
    unfold scanChunkRecords at hs
    split at hs
    · cases hs
    · next hk =>
      split at hs
      · cases hs
      · obtain ⟨h1, h2, h3, h4⟩ := ih hs
        refine ⟨h1, fun h hh => h2 h ?_, fun e he => ?_, fun h r' hr' => ?_⟩
        · simp only [Dict.lookup_insert_if]
          split
          · rfl
          · exact hh
        · rcases List.mem_cons.1 he with rfl | he
          · refine h2 _ ?_
            simp only [Dict.lookup_insert_if, not_not.1 hk, if_true, Option.isSome_some]
          · exact h3 e he
        · rcases h4 h r' hr' with hl | hl
          · rcases Dict.lookup_insert_cases hl with ⟨heq, rfl⟩ | ⟨-, hl⟩
            · rw [heq, not_not.1 hk]
              exact .inr List.mem_cons_self
            · exact .inl hl
          · exact .inr (List.mem_cons_of_mem _ hl)

/-- What the metadata scan has read of the disk. -/
structure GarbageCollectionScan.Reads (scan : GarbageCollectionScan) (d : Disk) : Prop where
  referenced : ∀ h, h ∈ scan.referencedChunks ↔ d.referenced h
  retired : ∀ id m, d.manifests.lookup id = some m → m.retired = true → ∀ h ∈ m.chunkHashes,
    scan.retiredFrom h (m.retiredAt.getD 0)
  retiredBy : ∀ h t, scan.retiredChunkAt.lookup h = some t → ∃ id m,
    d.manifests.lookup id = some m ∧ m.retired = true ∧ h ∈ m.chunkHashes ∧ m.retiredAt.getD 0 = t
  records : ∀ h, scan.chunkRecords.lookup h = d.chunks.lookup h

theorem scanMetadata_reads (hs : scanMetadata d olderThan active = .ok scan) : scan.Reads d := by
  have href := scanMetadata_referenced hs
  unfold scanMetadata at hs
  split at hs
  · cases hs
  · next s1 h1 =>
    split at hs
    · cases hs
    · next s2 h2 =>
      cases hs
      obtain ⟨-, m2, m3⟩ := scanManifests_retired h1
      obtain ⟨hret, -, hrec, hrec'⟩ := scanChunkRecords_records h2
      refine ⟨href, fun id m hm hr h hh => ?_, fun h t ht => ?_, fun h => ?_⟩
      · obtain ⟨t', hl, ht'⟩ := m2 (id, m) (Dict.mem_toList.2 hm) hr h hh
        exact ⟨t', hret ▸ hl, ht'⟩
      · refine m3 (fun h t => ∃ id m, d.manifests.lookup id = some m ∧ m.retired = true ∧
          h ∈ m.chunkHashes ∧ m.retiredAt.getD 0 = t) (fun _ _ h => by cases h)
          (fun e he hr h hh => ⟨e.1, e.2, Dict.mem_toList.1 he, hr, hh, rfl⟩) h t (hret ▸ ht)
      · have sound : ∀ r, s2.chunkRecords.lookup h = some r → d.chunks.lookup h = some r := by
          intro r hr
          rcases hrec' h r hr with hn | hmem
          · rw [(scanManifests_keeps h1).2] at hn
            cases hn
          · exact Dict.mem_toList.1 hmem
        show s2.chunkRecords.lookup h = d.chunks.lookup h
        cases hl : d.chunks.lookup h with
        | some r =>
          obtain ⟨r', hr'⟩ := Option.isSome_iff_exists.1 (hrec (h, r) (Dict.mem_toList.2 hl))
          cases hl.symm.trans (sound r' hr')
          exact hr'
        | none =>
          rw [Option.eq_none_iff_forall_ne_some]
          intro r hr
          cases hl.symm.trans (sound r hr)

/-! ## The checks of the scan -/

/-- Every stored manifest and chunk record passes the checks of the metadata scan. -/
structure Disk.Valid (d : Disk) : Prop where
  manifest : ∀ id m, d.manifests.lookup id = some m → validateManifest m = .ok () ∧
    id = m.manifestID
  record : ∀ h r, d.chunks.lookup h = some r → r.chunkHash = h ∧ 0 ≤ r.manifestRefCount

theorem scanManifests_ok_iff {ms : List (Hash × ManifestRecord)} :
    ∀ {scan : GarbageCollectionScan}, (∃ scan', scanManifests ms scan = .ok scan') ↔
      ∀ e ∈ ms, validateManifest e.2 = .ok () ∧ e.1 = e.2.manifestID := by
  induction ms with
  | nil => simp [scanManifests]
  | cons e ms ih =>
    intro scan
    obtain ⟨key, m⟩ := e
    rw [List.forall_mem_cons, scanManifests]
    cases hv : validateManifest m with
    | error err => simp
    | ok u =>
      by_cases hk : key = m.manifestID
      · simp only [hk, ne_eq, not_true_eq_false, if_false, ih]
        simp
      · simp [hk]

theorem scanChunkRecords_ok_iff {rs : List (Hash × ChunkRecord)} :
    ∀ {scan : GarbageCollectionScan}, (∃ scan', scanChunkRecords rs scan = .ok scan') ↔
      ∀ e ∈ rs, e.2.chunkHash = e.1 ∧ 0 ≤ e.2.manifestRefCount := by
  induction rs with
  | nil => simp [scanChunkRecords]
  | cons e rs ih =>
    intro scan
    obtain ⟨key, r⟩ := e
    rw [List.forall_mem_cons, scanChunkRecords]
    by_cases hk : r.chunkHash = key
    · by_cases hc : r.manifestRefCount < 0
      · simp [hk, hc]
      · simp only [hk, ne_eq, not_true_eq_false, if_false, hc, ih]
        simp [Int.not_lt.1 hc]
    · simp [hk]

/-- **The metadata scan accepts just the valid records.** -/
theorem Disk.valid_iff_scan (olderThan : Time) (active : List Hash) :
    d.Valid ↔ ∃ scan, scanMetadata d olderThan active = .ok scan := by
  have hm := @scanManifests_ok_iff (Dict.toList d.manifests) .empty
  constructor
  · intro hd
    obtain ⟨scan1, h1⟩ := hm.2 fun e he => hd.manifest e.1 e.2 (Dict.mem_toList.1 he)
    obtain ⟨scan2, h2⟩ := (@scanChunkRecords_ok_iff _ scan1).2 fun e he =>
      hd.record e.1 e.2 (Dict.mem_toList.1 he)
    exact ⟨countSkippedActive active olderThan scan2, by simp only [scanMetadata, h1, h2]⟩
  · rintro ⟨scan, hs⟩
    unfold scanMetadata at hs
    split at hs
    · cases hs
    · next scan1 h1 =>
      split at hs
      · cases hs
      · next scan2 h2 =>
        exact ⟨fun id m h => hm.1 ⟨scan1, h1⟩ (id, m) (Dict.mem_toList.2 h),
          fun h r hr => scanChunkRecords_ok_iff.1 ⟨scan2, h2⟩ (h, r) (Dict.mem_toList.2 hr)⟩

/-! ## What the scan decides -/

/-- The loop over the records takes just the collectable ones. -/
theorem GarbageCollectionScan.Reads.candidate_iff (hs : scan.Reads d) {h : Hash} {r : ChunkRecord}
    (hr : d.chunks.lookup h = some r) :
    (∃ b, sweepDecision scan active olderThan h r = .candidate b) ↔
      d.collectable olderThan active h := by
  unfold sweepDecision Disk.collectable
  by_cases href : d.referenced h
  · simp [href, (hs.referenced h).2 href]
  · have href' : h ∉ scan.referencedChunks := fun hh => href ((hs.referenced h).1 hh)
    by_cases hact : h ∈ active
    · simp only [href', hact, List.contains_eq_mem, decide_true, decide_false, if_true, if_false,
        not_true_eq_false, false_and, and_false, iff_false, Bool.false_eq_true]
      rintro ⟨b, hb⟩
      split at hb <;> cases hb
    · simp only [href, href', hact, hr, List.contains_eq_mem, decide_false, Bool.false_eq_true,
        if_false, not_false_eq_true, true_and, Option.some.injEq, exists_eq_left']
      cases hl : scan.retiredChunkAt.lookup h with
      | some t =>
        obtain ⟨id, m, hm, hmr, hh, ht⟩ := hs.retiredBy h t hl
        have hexp : d.expired olderThan h ↔ t < olderThan := by
          refine ⟨fun he => ht ▸ he id m hm hmr hh, fun hlt id' m' hm' hr' hh' => ?_⟩
          obtain ⟨t', hl', hle⟩ := hs.retired id' m' hm' hr' h hh'
          cases hl.symm.trans hl'
          exact Nat.lt_of_le_of_lt hle hlt
        have htomb : d.tombstoned h := ⟨id, m, hm, hmr, hh⟩
        simp only [hexp, htomb, true_or, and_true]
        split
        · next hlt => simp [hlt]
        · next hlt => simp [hlt]
      | none =>
        have hnone : ∀ id m, d.manifests.lookup id = some m → m.retired = true →
            h ∉ m.chunkHashes := by
          intro id m hm hmr hh
          obtain ⟨t', hl', -⟩ := hs.retired id m hm hmr h hh
          rw [hl] at hl'
          cases hl'
        have hexp : d.expired olderThan h := fun id m hm hmr hh => absurd hh (hnone id m hm hmr)
        have htomb : ¬ d.tombstoned h := fun ⟨id, m, hm, hmr, hh⟩ => hnone id m hm hmr hh
        simp only [hexp, htomb, false_or, true_and, oldEnough]
        by_cases hz : r.manifestRefCount = 0 <;> by_cases hc : r.createdAt = 0 <;>
          by_cases hlt : r.createdAt < olderThan <;> simp [hz, hc, hlt]

/-- The walk may take the files that no record, active manifest or recent retirement keeps. -/
theorem GarbageCollectionScan.Reads.orphanHash_iff (hs : scan.Reads d) {h : Hash} :
    orphanHash scan active olderThan h = true ↔
      ¬ d.referenced h ∧ h ∉ active ∧ d.expired olderThan h ∧ d.chunks.lookup h = none := by
  have hexp : (!(scan.retiredChunkAt.lookup h).any fun t => olderThan ≤ t) = true ↔
      d.expired olderThan h := by
    rw [Bool.not_eq_true', Bool.eq_false_iff, ne_eq, Option.any_eq_true]
    constructor
    · intro hn id m hm hmr hh
      obtain ⟨t, hl, hle⟩ := hs.retired id m hm hmr h hh
      refine Nat.lt_of_le_of_lt hle (Nat.lt_of_not_le fun hle' => hn ⟨t, hl, ?_⟩)
      exact decide_eq_true hle'
    · rintro he ⟨t, hl, hle⟩
      obtain ⟨id, m, hm, hmr, hh, rfl⟩ := hs.retiredBy h t hl
      exact absurd (of_decide_eq_true hle) (Nat.not_le.2 (he id m hm hmr hh))
  rw [orphanHash, Bool.and_eq_true, hexp, Bool.and_eq_true, Bool.and_eq_true, hs.records h,
    Option.isNone_iff_eq_none]
  simp only [Bool.not_eq_true', List.contains_eq_mem, decide_eq_false_iff_not, hs.referenced h]
  tauto

theorem visitFile_orphans (active : List Hash) (olderThan : Time) (scan : GarbageCollectionScan)
    (h : Hash) (f : ChunkFile) :
    (visitFile active olderThan scan h f).physicalOrphans = scan.physicalOrphans ++
      if orphanHash scan active olderThan h = true ∧ f.modTime < olderThan then [h] else [] := by
  have kept : ∀ report, ¬ (orphanHash scan active olderThan h = true ∧ f.modTime < olderThan) →
      { scan with report }.physicalOrphans = scan.physicalOrphans ++
        if orphanHash scan active olderThan h = true ∧ f.modTime < olderThan then [h] else [] := by
    intro report hn
    rw [if_neg hn, List.append_nil]
  unfold visitFile
  dsimp only
  split
  · exact kept _ (by simp_all [orphanHash])
  · split
    · exact kept _ (by simp_all [orphanHash, Option.isSome_iff_ne_none])
    · split
      · exact kept _ (by simp_all [orphanHash])
      · split
        · exact kept _ (by simp_all [orphanHash])
        · split
          · rw [if_pos (by simp_all [orphanHash])]
          · exact kept _ (by simp_all)

theorem visitFile_orphanHash (active : List Hash) (olderThan : Time) (scan : GarbageCollectionScan)
    (h : Hash) (f : ChunkFile) (k : Hash) :
    orphanHash (visitFile active olderThan scan h f) active olderThan k =
      orphanHash scan active olderThan k := by
  obtain ⟨h1, h2, h3, -⟩ := visitFile_spec active olderThan scan h f
  simp only [orphanHash, h1, h2, h3]

theorem foldl_visitFile_spec (olderThan : Time) (active : List Hash)
    (es : List (Hash × ChunkFile)) : ∀ scan : GarbageCollectionScan,
    let scan' := es.foldl (fun scan e => visitFile active olderThan scan e.1 e.2) scan
    scan'.referencedChunks = scan.referencedChunks ∧ scan'.retiredChunkAt = scan.retiredChunkAt ∧
      scan'.chunkRecords = scan.chunkRecords ∧
      ∀ h, h ∈ scan'.physicalOrphans ↔ h ∈ scan.physicalOrphans ∨
        ∃ f, (h, f) ∈ es ∧ orphanHash scan active olderThan h = true ∧ f.modTime < olderThan := by
  induction es with
  | nil => exact fun scan => ⟨rfl, rfl, rfl, fun h => by simp⟩
  | cons e es ih =>
    intro scan
    obtain ⟨h1, h2, h3, -⟩ := visitFile_spec active olderThan scan e.1 e.2
    obtain ⟨i1, i2, i3, i4⟩ := ih (visitFile active olderThan scan e.1 e.2)
    refine ⟨i1.trans h1, i2.trans h2, i3.trans h3, fun h => ?_⟩
    have hmem : h ∈ (if orphanHash scan active olderThan e.1 = true ∧ e.2.modTime < olderThan
        then [e.1] else []) ↔ (h, e.2) = e ∧ orphanHash scan active olderThan h = true ∧
          e.2.modTime < olderThan := by
      split
      · next hc =>
        rw [List.mem_singleton]
        refine ⟨fun he => ⟨Prod.ext he rfl, he ▸ hc⟩, fun he => ?_⟩
        rw [← he.1]
      · next hc =>
        refine ⟨fun he => (by cases he), fun h' => absurd ?_ hc⟩
        rw [← h'.1]
        exact h'.2
    rw [List.foldl_cons, i4, visitFile_orphans, List.mem_append, hmem, visitFile_orphanHash]
    simp only [List.mem_cons]
    constructor
    · rintro ((hl | ⟨he, hc⟩) | ⟨f, hf, hc⟩)
      · exact .inl hl
      · exact .inr ⟨e.2, .inl he, hc⟩
      · exact .inr ⟨f, .inr hf, hc⟩
    · rintro (hl | ⟨f, rfl | hf, hc⟩)
      · exact .inl (.inl hl)
      · exact .inl (.inr ⟨rfl, hc⟩)
      · exact .inr ⟨f, hf, hc⟩

/-! ## The deletions -/

/-- `d'` is `d` less some of what a sweep is to take: records of chunks in `C`, each after its file,
and files of chunks in `C` or `O`. -/
structure Disk.Swept (C O : Hash → Prop) (d d' : Disk) : Prop where
  manifests : d'.manifests = d.manifests
  uploads : d'.uploads = d.uploads
  record : ∀ h, d'.chunks.lookup h = d.chunks.lookup h ∨
    (C h ∧ d'.chunks.lookup h = none ∧ d'.files.lookup h = none)
  file : ∀ h, d'.files.lookup h = d.files.lookup h ∨ ((C h ∨ O h) ∧ d'.files.lookup h = none)

variable {C O : Hash → Prop}

theorem Disk.Swept.refl (d : Disk) : d.Swept C O d :=
  ⟨rfl, rfl, fun _ => .inl rfl, fun _ => .inl rfl⟩

theorem Disk.Swept.removeFile {h : Hash} (hs : d.Swept C O d') (hh : C h ∨ O h) :
    d.Swept C O (removeChunkFile d' h) := by
  have gone : ∀ k, d'.files.lookup k = none → (d'.files.erase h).lookup k = none := by
    intro k hk
    rw [Dict.lookup_erase_if, hk, ite_self]
  refine ⟨hs.manifests, hs.uploads, fun k => ?_, fun k => ?_⟩
  · exact (hs.record k).imp_right fun ⟨hc, hr, hf⟩ => ⟨hc, hr, gone k hf⟩
  · by_cases hk : k = h
    · subst hk
      exact .inr ⟨hh, AList.lookup_erase k _⟩
    · refine (hs.file k).imp (fun hf => ?_) fun ⟨hc, hf⟩ => ⟨hc, gone k hf⟩
      rw [← hf]
      exact (Dict.lookup_erase_if ..).trans (if_neg hk)

theorem Disk.Swept.eraseRecord {h : Hash} (hs : d.Swept C O d') (hc : C h)
    (hf : d'.files.lookup h = none) :
    d.Swept C O { d' with chunks := d'.chunks.erase h } := by
  refine ⟨hs.manifests, hs.uploads, fun k => ?_, hs.file⟩
  by_cases hk : k = h
  · subst hk
    exact .inr ⟨hc, AList.lookup_erase k _, hf⟩
  · rw [Dict.lookup_erase_if, if_neg hk]
    exact hs.record k

def Disk.Without (d : Disk) (h : Hash) : Prop := d.chunks.lookup h = none ∧ d.files.lookup h = none

theorem Disk.Swept.without {h : Hash} (hs : d.Swept C O d') (hw : d.Without h) : d'.Without h := by
  refine ⟨?_, ?_⟩
  · rcases hs.record h with hr | ⟨-, hr, -⟩
    · rw [hr, hw.1]
    · exact hr
  · rcases hs.file h with hf | ⟨-, hf⟩
    · rw [hf, hw.2]
    · exact hf

theorem Disk.Swept.fileless {h : Hash} (hs : d.Swept C O d') (hw : d.files.lookup h = none) :
    d'.files.lookup h = none := by
  rcases hs.file h with hf | ⟨-, hf⟩
  · rw [hf, hw]
  · exact hf

theorem deleteChunkMetadata_gone {h : Hash} {retired b : Bool}
    (hr : ∀ r, d.chunks.lookup h = some r → retired = false →
      r.manifestRefCount = 0 ∧ oldEnough r.createdAt olderThan = true)
    (hd : deleteChunkMetadata d h olderThan retired = .ok (b, d')) :
    b = true ∧ d'.chunks.lookup h = none ∧ d'.files = d.files := by
  unfold deleteChunkMetadata at hd
  split at hd
  · next hn => cases hd; exact ⟨rfl, hn, rfl⟩
  · next r hl =>
    split at hd
    · cases hd
    · split at hd
      · next hc =>
        simp only [Bool.and_eq_true, Bool.not_eq_true', Bool.or_eq_true, decide_eq_true_eq] at hc
        obtain ⟨h0, h1⟩ := hr r hl hc.1
        rcases hc.2 with hne | hne
        · exact absurd h0 hne
        · rw [h1] at hne; cases hne
      · cases hd; exact ⟨rfl, AList.lookup_erase h _, rfl⟩

theorem sweepDecision_uncounted {h : Hash} {r : ChunkRecord}
    (hd : sweepDecision scan active olderThan h r = .candidate false) :
    r.manifestRefCount = 0 ∧ oldEnough r.createdAt olderThan = true := by
  unfold sweepDecision at hd
  split at hd
  · cases hd
  · split at hd
    · split at hd <;> cases hd
    · split at hd
      · split at hd <;> cases hd
      · split at hd
        · cases hd
        · next h0 =>
          split at hd
          · next h1 => exact ⟨not_not.1 h0, h1⟩
          · cases hd

/-- What a round of the loop over the records does, unless it ends the sweep: it passes the record
over, fails to remove it, or removes it. -/
inductive SweepRound (scan : GarbageCollectionScan) (active : List Hash) (olderThan : Time)
    (h : Hash) (r : ChunkRecord) (w w' : SweepLoop) : Prop
  | passed : (∀ b, sweepDecision scan active olderThan h r ≠ .candidate b) →
    w'.disk = w.disk → w'.deletionErrors = w.deletionErrors →
    SweepRound scan active olderThan h r w w'
  | failed {b : Bool} {err : Error} : sweepDecision scan active olderThan h r = .candidate b →
    w'.disk = w.disk ∨ w'.disk = removeChunkFile w.disk h →
    w'.deletionErrors = w.deletionErrors ++ [err] → SweepRound scan active olderThan h r w w'
  | removed {b deleted : Bool} : sweepDecision scan active olderThan h r = .candidate b →
    deleteChunkMetadata (removeChunkFile w.disk h) h olderThan b = .ok (deleted, w'.disk) →
    w'.deletionErrors = w.deletionErrors → SweepRound scan active olderThan h r w w'

theorem sweepRecords_cons (env : SweepEnv) (h : Hash) (r : ChunkRecord)
    (rs : List (Hash × ChunkRecord)) (w : SweepLoop) :
    (∃ e, sweepRecords env olderThan scan active ((h, r) :: rs) w = { w with abort := some e }) ∨
    ∃ w', sweepRecords env olderThan scan active ((h, r) :: rs) w =
        sweepRecords env olderThan scan active rs w' ∧ w'.abort = w.abort ∧
      SweepRound scan active olderThan h r w w' := by
  rw [sweepRecords]
  split
  · next e _ => exact .inl ⟨e, rfl⟩
  · refine .inr ?_
    split
    · next hd => exact ⟨w, rfl, rfl, .passed (fun b hb => by rw [hd] at hb; cases hb) rfl rfl⟩
    · next hd => exact ⟨_, rfl, rfl, .passed (fun b hb => by rw [hd] at hb; cases hb) rfl rfl⟩
    · next b hd =>
      dsimp only
      split
      · exact ⟨_, rfl, rfl, .failed hd (.inl rfl) rfl⟩
      · split
        · exact ⟨_, rfl, rfl, .failed hd (.inr rfl) rfl⟩
        · next deleted disk hm =>
          have hdel : deleteChunkMetadata (removeChunkFile w.disk h) h olderThan b =
              .ok (deleted, disk) := by
            split at hm
            · cases hm
            · exact hm
          exact ⟨_, rfl, rfl, .removed hd hdel rfl⟩

theorem SweepRound.swept {h : Hash} {r : ChunkRecord} {w w' : SweepLoop}
    (hr : SweepRound scan active olderThan h r w w') (hw : d.Swept C O w.disk)
    (hC : ∀ b, sweepDecision scan active olderThan h r = .candidate b → C h) :
    d.Swept C O w'.disk := by
  cases hr with
  | passed hn hdisk herr => exact hdisk ▸ hw
  | @failed b err hd hdisk herr =>
    rcases hdisk with hdisk | hdisk
    · exact hdisk ▸ hw
    · exact hdisk ▸ hw.removeFile (.inl (hC b hd))
  | @removed b deleted hd hdel herr =>
    have hfile := hw.removeFile (.inl (hC b hd))
    rcases deleteChunkMetadata_ok hdel with hdisk | ⟨-, hdisk⟩
    · exact hdisk ▸ hfile
    · exact hdisk ▸ hfile.eraseRecord (hC b hd) (AList.lookup_erase h _)

/-- A candidate's record is as the scan has read it, so it passes the check and goes. -/
theorem Disk.Swept.deletes {h : Hash} {r : ChunkRecord} {b deleted : Bool} {d2 : Disk}
    (hw : d.Swept C O d') (hr : d.chunks.lookup h = some r)
    (hd : sweepDecision scan active olderThan h r = .candidate b)
    (hdel : deleteChunkMetadata (removeChunkFile d' h) h olderThan b = .ok (deleted, d2)) :
    deleted = true ∧ d2.Without h := by
  obtain ⟨hdeleted, hgone, hfiles⟩ := deleteChunkMetadata_gone (fun r' hr' hb => by
    subst hb
    rcases hw.record h with hsame | ⟨-, hnone, -⟩
    · cases hr'.symm.trans (hsame.trans hr)
      exact sweepDecision_uncounted hd
    · cases hr'.symm.trans hnone) hdel
  exact ⟨hdeleted, hgone, by rw [hfiles]; exact AList.lookup_erase h _⟩

/-- A candidate whose round has no error is gone. -/
theorem SweepRound.done {h : Hash} {r : ChunkRecord} {w w' : SweepLoop} {b : Bool}
    (hr : SweepRound scan active olderThan h r w w') (hw : d.Swept C O w.disk)
    (hrec : d.chunks.lookup h = some r) (he : w'.deletionErrors = [])
    (hd : sweepDecision scan active olderThan h r = .candidate b) : w'.disk.Without h := by
  cases hr with
  | passed hn hdisk herr => exact absurd hd (hn b)
  | failed hd' hdisk herr =>
    rw [herr] at he
    simp at he
  | removed hd' hdel herr =>
    cases hd.symm.trans hd'
    exact (hw.deletes hrec hd hdel).2

theorem SweepRound.errors {h : Hash} {r : ChunkRecord} {w w' : SweepLoop}
    (hr : SweepRound scan active olderThan h r w w') (he : w'.deletionErrors = []) :
    w.deletionErrors = [] := by
  cases hr with
  | passed _ _ herr => exact herr ▸ he
  | failed _ _ herr => rw [herr] at he; simp at he
  | removed _ _ herr => exact herr ▸ he

/-- **The loop over the records takes candidates only.** -/
theorem sweepRecords_swept (env : SweepEnv) (rs : List (Hash × ChunkRecord))
    (hC : ∀ e ∈ rs, ∀ b, sweepDecision scan active olderThan e.1 e.2 = .candidate b → C e.1) :
    ∀ w : SweepLoop, d.Swept C O w.disk →
      d.Swept C O (sweepRecords env olderThan scan active rs w).disk := by
  induction rs with
  | nil => exact fun _ hw => hw
  | cons e rs ih =>
    intro w hw
    rcases sweepRecords_cons env e.1 e.2 rs w with ⟨err, heq⟩ | ⟨w', heq, -, hround⟩ <;> rw [heq]
    · exact hw
    · exact ih (fun e he => hC e (List.mem_cons_of_mem _ he)) w'
        (hround.swept hw (hC e List.mem_cons_self))

/-- **Without an error it takes all of them.** -/
theorem sweepRecords_done (env : SweepEnv) (rs : List (Hash × ChunkRecord))
    (hrec : ∀ e ∈ rs, d.chunks.lookup e.1 = some e.2) :
    ∀ w : SweepLoop, d.Swept (fun _ => True) O w.disk →
      (sweepRecords env olderThan scan active rs w).abort = none →
      (sweepRecords env olderThan scan active rs w).deletionErrors = [] →
      w.deletionErrors = [] ∧
      ∀ e ∈ rs, ∀ b, sweepDecision scan active olderThan e.1 e.2 = .candidate b →
        (sweepRecords env olderThan scan active rs w).disk.Without e.1 := by
  induction rs with
  | nil => exact fun w _ _ he => ⟨he, fun _ h => by cases h⟩
  | cons e rs ih =>
    intro w hw ha he
    rcases sweepRecords_cons env e.1 e.2 rs w with ⟨err, heq⟩ | ⟨w', heq, -, hround⟩ <;>
      rw [heq] at ha he ⊢
    · cases ha
    · obtain ⟨herr, hall⟩ := ih (fun e he => hrec e (List.mem_cons_of_mem _ he)) w'
        (hround.swept hw fun _ _ => trivial) ha he
      refine ⟨hround.errors herr, fun e' he' b hb => ?_⟩
      rcases List.mem_cons.1 he' with rfl | he'
      · have hgone := hround.done hw (hrec e' List.mem_cons_self) herr hb
        exact (sweepRecords_swept env rs (fun _ _ _ _ => trivial) w'
          (.refl (C := fun _ => True) (O := O) w'.disk)).without hgone
      · exact hall e' he' b hb

theorem sweepOrphans_swept (env : SweepEnv) (hs : List Hash) (hO : ∀ h ∈ hs, O h) :
    ∀ w : SweepLoop, d.Swept C O w.disk → d.Swept C O (sweepOrphans env hs w).disk := by
  induction hs with
  | nil => exact fun _ hw => hw
  | cons h hs ih =>
    intro w hw
    have ih := ih fun h' hh' => hO h' (List.mem_cons_of_mem _ hh')
    unfold sweepOrphans
    split
    · exact hw
    · exact ih _ hw
    · exact ih _ (hw.removeFile (.inr (hO h List.mem_cons_self)))

theorem sweepOrphans_done (env : SweepEnv) (hs : List Hash) :
    ∀ w : SweepLoop, (sweepOrphans env hs w).abort = none →
      (sweepOrphans env hs w).deletionErrors = [] →
      w.deletionErrors = [] ∧ ∀ h ∈ hs, (sweepOrphans env hs w).disk.files.lookup h = none := by
  induction hs with
  | nil => exact fun w _ he => ⟨he, fun _ h => by cases h⟩
  | cons h hs ih =>
    intro w ha he
    unfold sweepOrphans at ha he ⊢
    split at ha
    · cases ha
    · next e hf1 hf2 =>
      rw [hf1, hf2] at he
      exact absurd (ih { w with deletionErrors := w.deletionErrors ++ _ } ha he).1 (by simp)
    · next hf1 hf2 =>
      rw [hf1, hf2] at he
      dsimp only at ha he ⊢
      obtain ⟨herr, hall⟩ := ih _ ha he
      refine ⟨herr, fun h' hh' => ?_⟩
      rcases List.mem_cons.1 hh' with rfl | hh'
      · exact (sweepOrphans_swept (O := fun _ => True) env hs (fun _ _ => trivial) _
          (.refl (C := fun _ => True) _)).fileless (AList.lookup_erase h' _)
      · exact hall h' hh'

/-! ## The whole sweep -/

/-- What a sweep that got past its scan works with. -/
theorem scanGarbageCollection_ok {env : SweepEnv}
    (hs : scanGarbageCollection env olderThan d active = .ok scan) :
    scan.Reads d ∧ ∀ h, h ∈ scan.physicalOrphans ↔ d.orphaned olderThan active h := by
  unfold scanGarbageCollection at hs
  split at hs
  · cases hs
  · split at hs
    · cases hs
    · next scan0 hs0 =>
      split at hs
      · cases hs
      · cases hs
        have hreads := scanMetadata_reads hs0
        obtain ⟨i1, i2, i3, i4⟩ := foldl_visitFile_spec olderThan active (Dict.toList d.files) scan0
        refine ⟨⟨fun h => ?_, fun id m hm hr h hh => ?_, fun h t ht => ?_, fun h => ?_⟩,
          fun h => ?_⟩
        · rw [i1]; exact hreads.referenced h
        · rw [GarbageCollectionScan.retiredFrom, i2]; exact hreads.retired id m hm hr h hh
        · rw [i2] at ht; exact hreads.retiredBy h t ht
        · rw [i3]; exact hreads.records h
        · rw [i4, scanMetadata_orphans hs0, hreads.orphanHash_iff]
          simp only [List.not_mem_nil, false_or, Dict.mem_toList, Disk.orphaned]
          constructor
          · rintro ⟨f, hf, ⟨h1, h2, h3, h4⟩, h5⟩
            exact ⟨h1, h2, h3, h4, f, hf, h5⟩
          · rintro ⟨h1, h2, h3, h4, f, hf, h5⟩
            exact ⟨f, hf, ⟨h1, h2, h3, h4⟩, h5⟩

theorem mem_order {env : SweepEnv} (hs : scan.Reads d) {e : Hash × ChunkRecord} :
    e ∈ env.order (Dict.toList scan.chunkRecords) ↔ d.chunks.lookup e.1 = some e.2 := by
  rw [(env.order_perm _).mem_iff, show e = (e.1, e.2) from rfl, Dict.mem_toList, hs.records]

/-- **A sweep, whatever fails in it, removes only what is to go**: a record after its file, and a
file of a collectable record or an orphan. -/
theorem collectGarbage_swept (env : SweepEnv) (olderThan : Time) (a : ActiveUploads) (d : Disk) :
    d.Swept (d.collectable olderThan (snapshotActiveChunkHashes a))
      (d.orphaned olderThan (snapshotActiveChunkHashes a))
      (collectGarbage env olderThan a d).2.2 := by
  unfold collectGarbage
  split
  · exact .refl d
  · dsimp only
    split
    · exact .refl d
    · next scan hscan =>
      obtain ⟨hreads, horph⟩ := scanGarbageCollection_ok hscan
      have hrecs : d.Swept (d.collectable olderThan (snapshotActiveChunkHashes a))
          (d.orphaned olderThan (snapshotActiveChunkHashes a))
          (sweepRecords env olderThan scan (snapshotActiveChunkHashes a)
            (env.order (Dict.toList scan.chunkRecords)) ⟨scan.report, [], none, d⟩).disk :=
        sweepRecords_swept env _ (fun e he b hb =>
          (hreads.candidate_iff ((mem_order hreads).1 he)).1 ⟨b, hb⟩) _ (.refl d)
      split
      · exact hrecs
      · split <;> exact sweepOrphans_swept env _ (fun h hh => (horph h).1 hh) _ hrecs

/-- **A sweep that returns no error removes all that is to go.** -/
theorem collectGarbage_done {env : SweepEnv} {a : ActiveUploads}
    (hok : (collectGarbage env olderThan a d).2.1 = []) :
    (∀ h, d.collectable olderThan (snapshotActiveChunkHashes a) h →
      (collectGarbage env olderThan a d).2.2.Without h) ∧
    ∀ h, d.orphaned olderThan (snapshotActiveChunkHashes a) h →
      (collectGarbage env olderThan a d).2.2.files.lookup h = none := by
  unfold collectGarbage at hok ⊢
  split at hok
  · cases hok
  · dsimp only at hok ⊢
    split at hok
    · cases hok
    · next scan hscan =>
      obtain ⟨hreads, horph⟩ := scanGarbageCollection_ok hscan
      split at hok
      · cases hok
      · next habort =>
        split at hok
        · cases hok
        · next habort' =>
          obtain ⟨herr, hfiles⟩ := sweepOrphans_done env _ _ habort' hok
          obtain ⟨-, hrecs⟩ := sweepRecords_done (O := fun _ => True) env _
            (fun e he => (mem_order hreads).1 he) _ (.refl d) habort herr
          refine ⟨fun h hc => ?_, fun h ho => hfiles h ((horph h).2 ho)⟩
          obtain ⟨-, -, -, r, hr, -⟩ := id hc
          obtain ⟨b, hb⟩ := (hreads.candidate_iff hr).2 hc
          exact (sweepOrphans_swept (C := fun _ => True) (O := fun _ => True) env _
            (fun _ _ => trivial) _ (.refl _)).without
            (hrecs (h, r) ((mem_order hreads).2 hr) b hb)

/-! ## What a sweep leaves alone -/

/-- The chunk is listed by an active manifest, or by a retired one still in its grace period. -/
def Disk.guarded (d : Disk) (olderThan : Time) (h : Hash) : Prop :=
  d.referenced h ∨ ∃ id m t, d.manifests.lookup id = some m ∧ m.retired = true ∧
    m.retiredAt = some t ∧ olderThan ≤ t ∧ h ∈ m.chunkHashes

/-- `d'` is `d` less records and files of chunks outside `keep`. -/
structure Disk.Shrinks (keep : Hash → Prop) (d d' : Disk) : Prop where
  manifests : d'.manifests = d.manifests
  uploads : d'.uploads = d.uploads
  files : ∀ h f, d'.files.lookup h = some f → d.files.lookup h = some f
  records : ∀ h r, d'.chunks.lookup h = some r → d.chunks.lookup h = some r
  keptFile : ∀ h, keep h → d.hasFile h → d'.hasFile h
  keptRecord : ∀ h, keep h → d.hasRecord h → d'.hasRecord h

theorem Disk.Swept.shrinks {keep : Hash → Prop} (hs : d.Swept C O d')
    (hC : ∀ h, keep h → ¬ C h) (hO : ∀ h, keep h → ¬ O h) : d.Shrinks keep d' := by
  refine ⟨hs.manifests, hs.uploads, fun h f hf => ?_, fun h r hr => ?_, fun h hk hf => ?_,
    fun h hk hr => ?_⟩
  · rcases hs.file h with heq | ⟨-, hn⟩
    · exact heq ▸ hf
    · rw [hn] at hf; cases hf
  · rcases hs.record h with heq | ⟨-, hn, -⟩
    · exact heq ▸ hr
    · rw [hn] at hr; cases hr
  · rcases hs.file h with heq | ⟨hc | ho, -⟩
    · rw [Disk.hasFile, heq]; exact hf
    · exact absurd hc (hC h hk)
    · exact absurd ho (hO h hk)
  · rcases hs.record h with heq | ⟨hc, -⟩
    · rw [Disk.hasRecord, heq]; exact hr
    · exact absurd hc (hC h hk)

theorem Disk.guarded.not_expired {h : Hash} (hg : d.guarded olderThan h)
    (href : ¬ d.referenced h) : ¬ d.expired olderThan h := by
  intro he
  rcases hg with hg | ⟨id, m, t, hm, hr, ht, hle, hh⟩
  · exact href hg
  · have hlt := he id m hm hr hh
    rw [ht] at hlt
    exact absurd hlt (Nat.not_lt.2 hle)

/-- **A sweep removes nothing of a guarded chunk**, whatever fails in it. -/
theorem collectGarbage_effect (env : SweepEnv) (olderThan : Time) (a : ActiveUploads) (d : Disk) :
    d.Shrinks (fun h => d.present h ∧ d.guarded olderThan h)
      (collectGarbage env olderThan a d).2.2 :=
  (collectGarbage_swept env olderThan a d).shrinks
    (fun _ hk hc => hk.2.not_expired hc.1 hc.2.2.1)
    (fun _ hk ho => hk.2.not_expired ho.1 ho.2.2.1)

end HashBox.Vault
