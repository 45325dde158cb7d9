import HashBox.Vault.Proof.Manifests

/-!
# Reference counts

A commit counts a new manifest's references, and nothing else changes a count. A sweep that removes
the record of a retired manifest's chunk forgets the count with it, and an upload that then makes
the manifest active again does not count it anew (`reference_counts_lost`). A `Ledger` records which
manifests have lost a record so (they are *stripped*). As long as no call makes a stripped manifest
active again, the counts cover the references of the active manifests (`reference_counts_cover`).
-/

namespace HashBox.Vault

variable {blake3 : Bytes → Hash} {d d' : Disk}

/-- How often the chunk lists of the non-retired manifests have the hash. -/
def Disk.occurrences (d : Disk) (h : Hash) : Nat :=
  Dict.sum (fun _ m => if m.retired then 0 else m.chunkHashes.count h) d.manifests

/-- The record of each chunk that an active manifest lists counts its occurrences. -/
def Disk.Covered (d : Disk) : Prop :=
  ∀ h, d.referenced h → ∃ r, d.chunks.lookup h = some r ∧
    (d.occurrences h : Int) ≤ r.manifestRefCount ∧ r.retained = true

/-! ## Manifests made active again -/

def uploadCommits (blake3 : Bytes → Hash) (env : UploadEnv) (cfg : FastCdc.Config)
    (fileName : String) (bytes : Bytes) (d : Disk) : Prop :=
  env.fault .start = none ∧ env.fault .createSession = none ∧ env.fault .commit = none ∧
    ∃ cs u, FastCdc.split cfg bytes = .ok cs ∧
      (uploadChunks blake3 env cs .init (putUploadSession d
        (newUploadSession env.sessionID fileName (env.clock .createSession)))).1 = .ok u ∧
      u.totalSize ≠ 0

/-- The retired manifests that the call makes active again. -/
def Call.reactivates (blake3 : Bytes → Hash) (d : Disk) : Call → Set Hash
  | .processUpload cfg env fileName bytes => {id | id = blake3 bytes ∧
      uploadCommits blake3 env cfg fileName bytes d ∧
      ∃ m, d.manifests.lookup id = some m ∧ m.retired = true}
  | .retainManifest manifestID _ => {id | id = manifestID ∧
      ∃ m, d.manifests.lookup id = some m ∧ m.retired = true}
  | _ => ∅

/-- An upload that does not get to its commit leaves the manifests as they are. -/
theorem processUpload_uncommitted {env : UploadEnv} {cfg : FastCdc.Config} {fileName : String}
    {bytes : Bytes} (h : ¬ uploadCommits blake3 env cfg fileName bytes d) :
    (processUpload blake3 env cfg fileName bytes d).2.manifests = d.manifests := by
  have body : ∀ session, env.fault .start = none → env.fault .createSession = none →
      session = newUploadSession env.sessionID fileName (env.clock .createSession) →
      (uploadBody blake3 env cfg session bytes (putUploadSession d session)).2.2.manifests =
        d.manifests := by
    intro session h1 h2 hsession
    unfold uploadBody
    split
    · rfl
    · next cs hcs =>
      have htouch := (uploadChunks_spec blake3 env cs .init (putUploadSession d session)).1
      have hman := htouch.addsChunks.manifests
      split
      · next e d1 he => rw [he] at hman; exact hman
      · next u d1 he =>
        rw [he] at hman
        unfold commitUpload
        dsimp only
        split
        · exact hman
        · next hne =>
          split
          · exact hman
          · next h3 =>
            exact absurd ⟨h1, h2, h3, cs, u, hcs, by rw [← hsession, he], hne⟩ h
  unfold processUpload
  split
  · rfl
  · rfl
  · next h1 h2 =>
    have hman := body _ h1 h2 rfl
    dsimp only
    split
    · next he => rw [he] at hman; exact hman
    · next he =>
      rw [he] at hman
      split <;> exact hman

/-! ## The ledger -/

/-- A disk with the manifests that have lost a chunk record since they were stored. -/
structure Ledger where
  disk : Disk
  stripped : Set Hash

def Ledger.next (blake3 : Bytes → Hash) (y : Ledger) (c : Call) : Ledger :=
  let disk := c.run blake3 y.disk
  { disk, stripped := {id | ∃ m, y.disk.manifests.lookup id = some m ∧
    (id ∈ y.stripped ∨ ∃ h ∈ m.chunkHashes, y.disk.hasRecord h ∧ ¬ disk.hasRecord h)} }

/-- The call makes no stripped manifest active again. -/
def Ledger.Intact (blake3 : Bytes → Hash) (y : Ledger) (c : Call) : Prop :=
  ∀ id ∈ c.reactivates blake3 y.disk, id ∉ y.stripped

open Classical in
/-- How often the chunk lists of the manifests that are not stripped have the hash. -/
noncomputable def Ledger.occurrences (y : Ledger) (h : Hash) : Nat :=
  Dict.sum (fun id m => if id ∈ y.stripped then 0 else m.chunkHashes.count h) y.disk.manifests

/-- Manifests that are not stripped have their records, and are counted there. -/
structure Ledger.Inv (y : Ledger) : Prop where
  stored : ∀ id ∈ y.stripped, ∃ m, y.disk.manifests.lookup id = some m
  active : ∀ id m, y.disk.manifests.lookup id = some m → m.retired = false → id ∉ y.stripped
  backed : ∀ id m, y.disk.manifests.lookup id = some m → id ∉ y.stripped →
    ∀ h ∈ m.chunkHashes, y.disk.hasRecord h
  counted : ∀ h r, y.disk.chunks.lookup h = some r → (y.occurrences h : Int) ≤ r.manifestRefCount
  retained : ∀ h r, y.disk.chunks.lookup h = some r → r.retained = decide (0 < r.manifestRefCount)

theorem Ledger.Inv.empty : Ledger.Inv ⟨.empty, ∅⟩ :=
  ⟨fun _ h => (by cases h), fun _ _ h => (by cases h), fun _ _ h => (by cases h),
    fun _ _ h => (by cases h), fun _ _ h => (by cases h)⟩

/-- **The invariant covers the references.** -/
theorem Ledger.Inv.covered {y : Ledger} (hy : y.Inv) : y.disk.Covered := by
  rintro h ⟨id, m, hm, hr, hh⟩
  obtain ⟨r, hl⟩ := Option.isSome_iff_exists.1 (hy.backed id m hm (hy.active id m hm hr) h hh)
  have hle : y.disk.occurrences h ≤ y.occurrences h := by
    refine Dict.sum_le_sum fun id' m' hm' => ?_
    by_cases hr' : m'.retired = true
    · rw [if_pos hr']
      exact Nat.zero_le _
    · rw [if_neg hr', if_neg (hy.active id' m' hm' (by simpa using hr'))]
  have hpos : 0 < y.disk.occurrences h := by
    refine Nat.lt_of_lt_of_le ?_ (Dict.le_sum hm)
    rw [hr]
    exact List.count_pos_iff.2 hh
  have hcount := hy.counted h r hl
  refine ⟨r, hl, by omega, ?_⟩
  rw [hy.retained h r hl, decide_eq_true_eq]
  omega

/-! ## What each step does to the counts -/

theorem Disk.Touched.record {env : UploadEnv} {cs : List Bytes} (ht : d.Touched blake3 env cs d')
    {h : Hash} {r : ChunkRecord} (hr : d'.chunks.lookup h = some r) :
    d.chunks.lookup h = some r ∨
      d.chunks.lookup h = none ∧ r.manifestRefCount = 0 ∧ r.retained = false := by
  induction ht with
  | refl => exact .inl hr
  | @write d1 c index _ _ ih =>
    refine ih ?_
    unfold writeChunkIfMissing at hr
    split at hr <;> exact hr
  | @putRecord d1 c index ht _ _ ih =>
    unfold putNewChunk at hr
    split at hr
    · exact ih hr
    · next hn =>
      rcases Dict.lookup_insert_cases hr with ⟨he, rfl⟩ | ⟨-, hr⟩
      · subst he
        refine .inr ⟨?_, rfl, rfl⟩
        have hkept := ht.addsChunks.grows.record (blake3 c)
        rw [Disk.hasRecord, Disk.hasRecord, hn] at hkept
        cases hl : d.chunks.lookup (blake3 c) with
        | none => rfl
        | some r0 =>
          rw [hl] at hkept
          exact absurd (hkept rfl) (by decide)
      · exact ih hr
  | session r _ ih => exact ih hr

theorem Ledger.Inv.uncounted {y : Ledger} (hy : y.Inv) {h : Hash}
    (hn : y.disk.chunks.lookup h = none) : y.occurrences h = 0 := by
  refine Dict.sum_eq_zero fun id m hm => ?_
  by_cases hs : id ∈ y.stripped
  · rw [if_pos hs]
  · rw [if_neg hs, List.count_eq_zero]
    intro hh
    have hr := hy.backed id m hm hs h hh
    rw [Disk.hasRecord, hn] at hr
    cases hr

theorem Ledger.occurrences_congr {s : Set Hash} (hm : d'.manifests = d.manifests) (h : Hash) :
    (⟨d', s⟩ : Ledger).occurrences h = (⟨d, s⟩ : Ledger).occurrences h := by
  unfold Ledger.occurrences
  rw [hm]

theorem Ledger.Inv.touched {s : Set Hash} {env : UploadEnv} {cs : List Bytes}
    (hy : Ledger.Inv ⟨d, s⟩) (ht : d.Touched blake3 env cs d') : Ledger.Inv ⟨d', s⟩ := by
  have hm := ht.addsChunks.manifests
  refine ⟨fun id hid => ?_, fun id m h => hy.active id m (hm ▸ h), fun id m h hid k hk =>
    ht.addsChunks.grows.record k (hy.backed id m (hm ▸ h) hid k hk), fun h r hr => ?_,
    fun h r hr => ?_⟩
  · rw [hm]
    exact hy.stored id hid
  · rw [Ledger.occurrences_congr hm]
    rcases ht.record hr with hr | ⟨hn, h0, -⟩
    · exact hy.counted h r hr
    · rw [hy.uncounted hn, h0]
      exact Int.le_refl 0
  · rcases ht.record hr with hr | ⟨-, h0, h1⟩
    · exact hy.retained h r hr
    · rw [h0, h1]
      rfl

theorem Ledger.Inv.same {s : Set Hash} (hy : Ledger.Inv ⟨d, s⟩) (hs : d.SameData d') :
    Ledger.Inv ⟨d', s⟩ := by
  refine ⟨fun id hid => ?_, fun id m h => hy.active id m (hs.manifests ▸ h),
    fun id m h hid k hk => ?_, fun h r hr => ?_, fun h r hr => hy.retained h r (hs.chunks ▸ hr)⟩
  · rw [hs.manifests]
    exact hy.stored id hid
  · rw [Disk.hasRecord, hs.chunks]
    exact hy.backed id m (hs.manifests ▸ h) hid k hk
  · rw [Ledger.occurrences_congr hs.manifests]
    exact hy.counted h r (hs.chunks ▸ hr)

/-- A tombstone changed: an active manifest may be retired, a retired one made active if it is not
stripped. -/
theorem Ledger.Inv.tombstone {s : Set Hash} {id : Hash} {m m' : ManifestRecord}
    (hy : Ledger.Inv ⟨d, s⟩) (hm : d.manifests.lookup id = some m) (hs : m.SameObject m')
    (hid : m'.retired = false → id ∉ s) (he : d'.manifests = d.manifests.insert id m')
    (hc : d'.chunks = d.chunks) : Ledger.Inv ⟨d', s⟩ := by
  have look : ∀ i e, d'.manifests.lookup i = some e → ∃ e0, d.manifests.lookup i = some e0 ∧
      e0.SameObject e ∧ (e.retired = false → i ∉ s) := by
    intro i e hi
    rw [he] at hi
    rcases Dict.lookup_insert_cases hi with ⟨heq, rfl⟩ | ⟨-, hi⟩
    · exact heq ▸ ⟨m, hm, hs, hid⟩
    · exact ⟨e, hi, .refl e, hy.active i e hi⟩
  refine ⟨fun i hi => ?_, fun i e hi hr => (look i e hi).elim fun e0 h => h.2.2 hr,
    fun i e hi hn k hk => ?_, fun h r hr => ?_, fun h r hr => hy.retained h r (hc ▸ hr)⟩
  · rw [he, Dict.lookup_insert_if]
    split
    · exact ⟨m', rfl⟩
    · exact hy.stored i hi
  · obtain ⟨e0, he0, hsame, -⟩ := look i e hi
    rw [Disk.hasRecord, hc]
    exact hy.backed i e0 he0 hn k (hsame.chunkHashes ▸ hk)
  · have hcount := hy.counted h r (hc ▸ hr)
    have hsum := Dict.sum_insert (open Classical in fun id (m : ManifestRecord) =>
      if id ∈ s then 0 else m.chunkHashes.count h) d.manifests id m'
    rw [hm, Option.map_some, Option.getD_some, hs.chunkHashes] at hsum
    unfold Ledger.occurrences at hcount ⊢
    rw [he]
    dsimp only at hcount ⊢
    omega

/-- **A commit counts what it stores.** -/
theorem Ledger.Inv.commit {s : Set Hash} {m : ManifestRecord} (hy : Ledger.Inv ⟨d, s⟩)
    (hid : ∀ e, d.manifests.lookup m.manifestID = some e → e.retired = true → m.manifestID ∉ s)
    (h : commitManifestAndChunkRefs d m = .ok d') : Ledger.Inv ⟨d', s⟩ := by
  rcases commit_ok h with ⟨e, -, -, -, rfl⟩ | ⟨e, he, -, hr, rfl⟩ | ⟨hn, chunks, hc, rfl⟩
  · exact hy
  · have hsame : e.SameObject { e with retired := false, retiredAt := none } := rfl
    exact hy.tombstone he hsame (fun _ => hid e he hr) rfl rfl
  · have hnew : m.manifestID ∉ s := by
      intro hs
      obtain ⟨e, he⟩ := hy.stored _ hs
      cases hn.symm.trans he
    have hrec := addChunkRefs_lookup (List.nodup_dedup _) hc
    have hsome := (addChunkRefs_ok hc).1
    refine ⟨fun id hs => ?_, fun id e he hr => ?_, fun id e he hs k hk => ?_, fun k r hr => ?_,
      fun k r hr => ?_⟩
    · rw [Dict.lookup_insert_if]
      split
      · exact ⟨_, rfl⟩
      · exact hy.stored id hs
    · rw [Dict.lookup_insert_if] at he
      split at he
      · next heq => exact heq ▸ hnew
      · exact hy.active id e he hr
    · rw [Disk.hasRecord, hsome]
      rcases Dict.lookup_insert_cases he with ⟨-, rfl⟩ | ⟨-, he⟩
      · exact (addChunkRefs_ok hc).2 k (List.mem_dedup.2 hk)
      · exact hy.backed id e he hs k hk
    · -- the new manifest adds to the sum what the commit adds to the count
      have hsum := Dict.sum_insert (open Classical in fun id (m : ManifestRecord) =>
        if id ∈ s then 0 else m.chunkHashes.count k) d.manifests m.manifestID
        { m with fileHash := m.manifestID }
      rw [hn, Option.map_none, Option.getD_none, if_neg hnew] at hsum
      rw [hrec k] at hr
      unfold Ledger.occurrences
      split at hr
      · obtain ⟨r0, hr0, rfl⟩ := Option.map_eq_some_iff.1 hr
        have hcount := hy.counted k r0 hr0
        unfold Ledger.occurrences at hcount
        dsimp only [ChunkRecord.counted] at hcount hsum ⊢
        omega
      · next hk =>
        have hcount := hy.counted k r hr
        have hzero : m.chunkHashes.count k = 0 :=
          List.count_eq_zero.2 fun hk' => hk (List.mem_dedup.2 hk')
        unfold Ledger.occurrences at hcount
        dsimp only at hcount hsum ⊢
        omega
    · rw [hrec k] at hr
      split at hr
      · obtain ⟨r0, hr0, rfl⟩ := Option.map_eq_some_iff.1 hr
        rfl
      · exact hy.retained k r hr

theorem Ledger.next_grows {y : Ledger} {c : Call} (hy : y.Inv)
    (hg : ∀ h, y.disk.hasRecord h → (c.run blake3 y.disk).hasRecord h) :
    y.next blake3 c = ⟨c.run blake3 y.disk, y.stripped⟩ := by
  refine congrArg (Ledger.mk _) (Set.ext fun id => ⟨?_, fun hid => ?_⟩)
  · rintro ⟨m, -, hid | ⟨h, -, h1, h2⟩⟩
    · exact hid
    · exact absurd (hg h h1) h2
  · obtain ⟨m, hm⟩ := hy.stored id hid
    exact ⟨m, hm, .inl hid⟩

/-- A call that loses no record and keeps the invariant for the manifests stripped before. -/
theorem Ledger.Inv.next_grows {y : Ledger} {c : Call} (hy : y.Inv)
    (h : Ledger.Inv ⟨c.run blake3 y.disk, y.stripped⟩)
    (hg : ∀ h, y.disk.hasRecord h → (c.run blake3 y.disk).hasRecord h) : (y.next blake3 c).Inv := by
  rw [Ledger.next_grows hy hg]
  exact h

theorem Ledger.Inv.upload {y : Ledger} {cfg : FastCdc.Config} {env : UploadEnv} {fileName : String}
    {bytes : Bytes} (hy : y.Inv) (hc : y.Intact blake3 (.processUpload cfg env fileName bytes)) :
    (y.next blake3 (.processUpload cfg env fileName bytes)).Inv := by
  obtain ⟨d1, htouch, hend⟩ := processUpload_touched blake3 env cfg fileName bytes y.disk
  have h1 : Ledger.Inv ⟨d1, y.stripped⟩ := hy.touched htouch
  have hman := htouch.addsChunks.manifests
  suffices hend : Ledger.Inv ⟨(processUpload blake3 env cfg fileName bytes y.disk).2, y.stripped⟩ ∧
      d1.Grows (processUpload blake3 env cfg fileName bytes y.disk).2 from
    hy.next_grows hend.1 fun h hh => hend.2.record h (htouch.addsChunks.grows.record h hh)
  have same : ∀ {d2 d3 : Disk}, d2.SameData d3 → d2.Grows d3 := fun hs =>
    (Disk.AddsChunks.of_same hs : Disk.AddsChunks blake3 [] _ _).grows
  have hfinal : ¬ uploadCommits blake3 env cfg fileName bytes y.disk →
      (processUpload blake3 env cfg fileName bytes y.disk).2.manifests = y.disk.manifests :=
    processUpload_uncommitted
  generalize (processUpload blake3 env cfg fileName bytes y.disk).2 = d3 at hend hfinal ⊢
  have commit : ∀ {now : Time} {d2 : Disk}, commitManifestAndChunkRefs d1
      (newManifest (blake3 bytes) ((FastCdc.chunks cfg bytes).map blake3) bytes.length now) =
        .ok d2 → d2.SameData d3 → Ledger.Inv ⟨d3, y.stripped⟩ ∧ d1.Grows d3 := by
    intro now d2 hcom hs
    refine ⟨(h1.commit (fun e he hr => ?_) hcom).same hs,
      ⟨fun h hh => (same hs).record h ((commit_grows hcom).record h hh),
        fun h hh => (same hs).file h ((commit_grows hcom).file h hh)⟩⟩
    by_cases hup : uploadCommits blake3 env cfg fileName bytes y.disk
    · exact hc _ ⟨rfl, hup, e, hman ▸ he, hr⟩
    · -- an upload that does not get to its commit would have left the manifest retired
      rcases commit_ok hcom with ⟨e', he', -, hr', rfl⟩ | ⟨e', he', -, hr', rfl⟩ | ⟨hn, -⟩
      · cases he.symm.trans he'
        cases hr.symm.trans hr'
      · have hl : d3.manifests.lookup (blake3 bytes) = d1.manifests.lookup (blake3 bytes) := by
          rw [hfinal hup, hman]
        rw [show d1.manifests.lookup (blake3 bytes) = some e from he, hs.manifests] at hl
        have hins := (Dict.lookup_insert_if d1.manifests (blake3 bytes) (blake3 bytes)
          { e' with retired := false, retiredAt := none }).trans (if_pos rfl)
        cases hins.symm.trans hl
        cases hr
      · cases he.symm.trans hn
  cases hr : (processUpload blake3 env cfg fileName bytes y.disk).1 <;> rw [hr] at hend <;>
    cases hend
  · next hs => exact ⟨h1.same hs, same hs⟩
  · next hcom hs _ => exact commit hcom hs
  · next hcom hs _ => exact commit hcom hs

theorem Ledger.Inv.lifecycle {y : Ledger} {c : Call} (hy : y.Inv) (manifestID : Hash)
    (retired : Bool) (now : Time)
    (h : updateManifestLifecycle y.disk manifestID retired now = .ok (c.run blake3 y.disk))
    (hc : retired = false → ∀ m, y.disk.manifests.lookup manifestID = some m → m.retired = true →
      manifestID ∉ y.stripped) : (y.next blake3 c).Inv := by
  refine hy.next_grows ?_ (updateManifestLifecycle_grows h).record
  obtain ⟨m, hm, -, ⟨-, heq⟩ | ⟨hr, heq⟩⟩ := updateManifestLifecycle_ok h
  · rw [heq]
    exact hy
  · rw [heq]
    have hsame : m.SameObject
        { m with retired, retiredAt := if retired then some now else none } := rfl
    refine hy.tombstone (d := y.disk) hm hsame (fun hr' => ?_) rfl rfl
    exact hc hr' m hm (by rw [hr, show retired = false from hr']; rfl)

/-- A sweep strips the manifests whose records it takes, and these are retired. -/
theorem Ledger.Inv.sweep {y : Ledger} {env : SweepEnv} {olderThan : Time} (hy : y.Inv) :
    (y.next blake3 (.collectGarbage env olderThan)).Inv := by
  have hs := collectGarbage_swept env olderThan ∅ y.disk
  have hm : (y.next blake3 (.collectGarbage env olderThan)).disk.manifests = y.disk.manifests :=
    hs.manifests
  have hrec : ∀ h r, (y.next blake3 (.collectGarbage env olderThan)).disk.chunks.lookup h =
      some r → y.disk.chunks.lookup h = some r := by
    intro h r hr
    rcases hs.record h with heq | ⟨-, hn, -⟩
    · exact heq ▸ hr
    · cases hr.symm.trans hn
  refine ⟨fun id hid => ?_, fun id m he hr hid => ?_, fun id m he hid h hh => ?_,
    fun h r hr => ?_, fun h r hr => hy.retained h r (hrec h r hr)⟩
  · obtain ⟨m, hl, -⟩ := hid
    exact ⟨m, hm ▸ hl⟩
  · rw [hm] at he
    obtain ⟨m', hl, hid | ⟨h, hh, hhad, hlost⟩⟩ := hid
    · exact hy.active id m he hr hid
    · cases he.symm.trans hl
      rcases hs.record h with heq | ⟨hc, -⟩
      · exact hlost (by rw [Disk.hasRecord] at hhad ⊢; exact heq ▸ hhad)
      · exact hc.1 ⟨id, m, he, hr, hh⟩
  · rw [hm] at he
    by_contra hlost
    have hid' : id ∉ y.stripped := fun h => hid ⟨m, he, .inl h⟩
    exact hid ⟨m, he, .inr ⟨h, hh, hy.backed id m he hid' h hh, hlost⟩⟩
  · refine Int.le_trans (Int.ofNat_le.2 ?_) (hy.counted h r (hrec h r hr))
    unfold Ledger.occurrences
    rw [hm]
    refine Dict.sum_le_sum fun id m he => ?_
    by_cases hid : id ∈ y.stripped
    · rw [if_pos hid, if_pos ⟨m, he, .inl hid⟩]
    · rw [if_neg hid]
      split
      · exact Nat.zero_le _
      · exact Nat.le_refl _

/-- **A call that makes no stripped manifest active keeps the invariant.** -/
theorem Ledger.Inv.next {y : Ledger} {c : Call} (hy : y.Inv) (hc : y.Intact blake3 c) :
    (y.next blake3 c).Inv := by
  have failed : c.run blake3 y.disk = y.disk → (y.next blake3 c).Inv := fun heq =>
    hy.next_grows (heq.symm ▸ hy) fun _ hh => heq.symm ▸ hh
  cases c with
  | processUpload cfg env fileName bytes => exact hy.upload hc
  | retireManifest manifestID now =>
    cases hr : updateManifestLifecycle y.disk manifestID true now with
    | error e => exact failed (by simp only [Call.run, retireManifest, hr])
    | ok d' =>
      refine hy.lifecycle manifestID true now ?_ fun h => by cases h
      rw [hr]
      simp only [Call.run, retireManifest, hr]
  | retainManifest manifestID now =>
    cases hr : updateManifestLifecycle y.disk manifestID false now with
    | error e => exact failed (by simp only [Call.run, retainManifest, hr])
    | ok d' =>
      refine hy.lifecycle manifestID false now ?_ fun _ m hm hret => hc _ ⟨rfl, m, hm, hret⟩
      rw [hr]
      simp only [Call.run, retainManifest, hr]
  | collectGarbage env olderThan => exact hy.sweep

/-- **Reference counts cover the active references.** In every state reached by calls that make no
stripped manifest active again, each chunk that an active manifest lists has a record, which is
retained and counts at least the occurrences of the chunk in the active manifests. -/
theorem reference_counts_cover {y : Ledger}
    (hreach : Runs.Reach (fun y c => some (Ledger.next blake3 y c)) (Ledger.Intact blake3)
      (· = ⟨.empty, ∅⟩) y) : y.disk.Covered := by
  have hy : y.Inv := by
    refine hreach.inv (fun y hs => hs ▸ .empty) fun y c y' hy hc he => ?_
    cases he
    exact hy.next hc
  exact hy.covered

/-- An object of two chunks, and one that is retired and collected. -/
def sharedAfterSweep : List Call :=
  [.processUpload (sampleConfig 1) (.calm 1 5) "a.bin" [7, 8],
    .processUpload (sampleConfig 1) (.calm 2 5) "b.bin" [7, 9],
    .retireManifest (sampleHash [7, 9]) 6, .collectGarbage .calm 9,
    .processUpload (sampleConfig 1) (.calm 3 10) "c.bin" [7]]

/-- The sweep takes the chunk of the retired object that the other one does not share. -/
theorem reference_counts_cover_shared : ∃ d r, Call.runAll sampleHash sharedAfterSweep = d ∧
    ¬ d.hasRecord (sampleHash [9]) ∧ d.occurrences (sampleHash [7]) = 2 ∧
    d.chunks.lookup (sampleHash [7]) = some r ∧ 2 ≤ r.manifestRefCount ∧ r.retained = true := by
  let ledger (cs : List Call) : Ledger := cs.foldl (Ledger.next sampleHash) ⟨.empty, ∅⟩
  let y := ledger sharedAfterSweep
  have gone : ¬ y.disk.hasRecord (sampleHash [9]) := by decide
  have count : y.disk.occurrences (sampleHash [7]) = 2 := by decide
  have listed : (y.disk.manifests.lookup (sampleHash [7])).any (fun m =>
      !m.retired && m.chunkHashes.contains (sampleHash [7])) = true := by decide
  -- each upload is of a manifest that is not stored yet
  have second : (ledger (sharedAfterSweep.take 1)).disk.manifests.lookup (sampleHash [7, 9]) =
      none := by decide
  have third : (ledger (sharedAfterSweep.take 4)).disk.manifests.lookup (sampleHash [7]) =
      none := by decide
  have reach : Runs.Reach (fun y c => some (Ledger.next sampleHash y c))
      (Ledger.Intact sampleHash) (· = ⟨.empty, ∅⟩) y := by
    refine .next (.next (.next (.next (.next (.init rfl) ?_ rfl) ?_ rfl) ?_ rfl) ?_ rfl) ?_ rfl
    · exact fun _ _ h => by cases h
    · rintro id ⟨rfl, -, m, hm, -⟩
      cases second.symm.trans hm
    · exact fun _ h => h.elim
    · exact fun _ h => h.elim
    · rintro id ⟨rfl, -, m, hm, -⟩
      cases third.symm.trans hm
  have covered : y.disk.Covered := reference_counts_cover reach
  obtain ⟨m, hm, hh⟩ := (Option.any_eq_true _ _).1 listed
  simp only [Bool.and_eq_true, Bool.not_eq_true', List.contains_eq_mem, decide_eq_true_eq] at hh
  obtain ⟨r, hr, hle, hret⟩ := covered _ ⟨_, m, hm, hh.1, hh.2⟩
  rw [count] at hle
  exact ⟨y.disk, r, rfl, gone, count, hr, hle, hret⟩

/-- The call is an upload with this configuration, a retirement or a sweep. -/
def Call.withConfig (cfg : FastCdc.Config) : Call → Prop
  | .processUpload cfg' _ _ _ => cfg' = cfg
  | .retainManifest _ _ => False
  | _ => True

/-- **Reference counts are lost when a manifest comes back.** The upload repeated after a sweep
creates the chunks' records anew and makes the stored manifest active without counting it. -/
theorem reference_counts_lost : Set.InjOn sampleHash sampleData ∧ ∃ d,
    Runs.Reach (fun d c => some (Call.run sampleHash d c))
      (fun _ c => c.withConfig (sampleConfig 1)) (· = .empty) d ∧
    ¬ d.Covered := by
  let cs := retiredAndCollected ++ [.processUpload (sampleConfig 1) (.calm 2 10) "a.bin" [7, 8]]
  let d := Call.runAll sampleHash cs
  have active : (d.manifests.lookup (sampleHash [7, 8])).any (fun m =>
      !m.retired && m.chunkHashes.contains (sampleHash [7])) = true := by decide
  have uncounted : (d.chunks.lookup (sampleHash [7])).any (fun r => !r.retained) = true := by decide
  refine ⟨sampleData_injOn, d, Runs.Reach.exec (.init rfl) (fun c hc _ => ?_)
    (rfl : Runs.exec _ _ cs = some d), fun hcov => ?_⟩
  · simp only [cs, retiredAndCollected, List.mem_append, List.mem_cons, List.not_mem_nil,
      or_false] at hc
    rcases hc with (rfl | rfl | rfl) | rfl
    · exact rfl
    · exact trivial
    · exact trivial
    · exact rfl
  · obtain ⟨m, hm, hh⟩ := (Option.any_eq_true _ _).1 active
    simp only [Bool.and_eq_true, Bool.not_eq_true', List.contains_eq_mem, decide_eq_true_eq] at hh
    obtain ⟨r, hr, -, hret⟩ := hcov _ ⟨_, m, hm, hh.1, hh.2⟩
    obtain ⟨r', hr', hn⟩ := (Option.any_eq_true _ _).1 uncounted
    cases hr.symm.trans hr'
    rw [hret] at hn
    cases hn

end HashBox.Vault
