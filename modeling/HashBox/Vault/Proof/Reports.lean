import HashBox.Vault.System
import HashBox.Vault.Proof.Sweeps

/-!
# The report of a sweep

Each counter of the report is what one of the sweep's loops adds up: one lemma a loop says what it
adds, and `collectGarbage_report` gives the report of a sweep that returns no error from the disk it
began with. All of it is exact but `SkippedActiveChunks`: the loop after the scan and the loop that
deletes both count the old records that active uploads hold, and neither these loops nor the walk
ask whether the chunk was to be taken otherwise. So that counter is exact where the held chunks are
counted once (`collectGarbage_report_exact`).
-/

namespace HashBox.Vault

variable {d d' : Disk} {olderThan : Time} {active : List Hash} {scan scan' : GarbageCollectionScan}
  {env : SweepEnv}

/-! ## The loops of the scan -/

theorem scanManifestChunk_report (m : ManifestRecord) (scan : GarbageCollectionScan) (h : Hash) :
    (scanManifestChunk m scan h).report = scan.report := by
  unfold scanManifestChunk
  split
  · rfl
  · dsimp only
    split
    · split <;> rfl
    · rfl

theorem foldl_scanManifestChunk_report (m : ManifestRecord) (hs : List Hash) :
    ∀ scan : GarbageCollectionScan,
      (hs.foldl (scanManifestChunk m) scan).report = scan.report := by
  induction hs with
  | nil => exact fun _ => rfl
  | cons h hs ih => exact fun scan => (ih _).trans (scanManifestChunk_report m scan h)

theorem scanManifests_report {ms : List (Hash × ManifestRecord)} :
    ∀ {scan : GarbageCollectionScan}, scanManifests ms scan = .ok scan' →
      scan'.report = { scan.report with
        scannedManifests := scan.report.scannedManifests + ms.length } := by
  induction ms with
  | nil => intro scan h; cases h; rfl
  | cons e ms ih =>
    intro scan h
    unfold scanManifests at h
    split at h
    · cases h
    · split at h
      · cases h
      · rw [ih h, foldl_scanManifestChunk_report, List.length_cons]
        simp only [Nat.add_assoc, Nat.add_comm 1]

theorem scanChunkRecords_report {rs : List (Hash × ChunkRecord)} :
    ∀ {scan : GarbageCollectionScan}, scanChunkRecords rs scan = .ok scan' →
      scan'.report = { scan.report with
        scannedChunkRecords := scan.report.scannedChunkRecords + rs.length } := by
  induction rs with
  | nil => intro scan h; cases h; rfl
  | cons e rs ih =>
    intro scan h
    unfold scanChunkRecords at h
    split at h
    · cases h
    · split at h
      · cases h
      · rw [ih h, List.length_cons]
        simp only [Nat.add_assoc, Nat.add_comm 1]

/-- A held record that is counted: created before `olderThan`, and listed by no active manifest. -/
def Disk.countedRecord (d : Disk) (olderThan : Time) (active : List Hash) (h : Hash) : Prop :=
  ¬ d.referenced h ∧ h ∈ active ∧
    ∃ r, d.chunks.lookup h = some r ∧ oldEnough r.createdAt olderThan = true

/-- A held file that is counted: without a record, and listed by no active manifest. -/
def Disk.countedFile (d : Disk) (active : List Hash) (h : Hash) : Prop :=
  ¬ d.referenced h ∧ h ∈ active ∧ d.chunks.lookup h = none ∧ d.hasFile h

/-- What `countSkippedActive` and the loop over the records count as skipped. -/
def GarbageCollectionScan.skips (scan : GarbageCollectionScan) (active : List Hash)
    (olderThan : Time) (e : Hash × ChunkRecord) : Bool :=
  !scan.referencedChunks.contains e.1 && active.contains e.1 && oldEnough e.2.createdAt olderThan

theorem GarbageCollectionScan.Reads.skips_count (hs : scan.Reads d) :
    (Dict.toList scan.chunkRecords).countP (scan.skips active olderThan) =
      {h | d.countedRecord olderThan active h}.ncard := by
  rw [Dict.countP_toList]
  congr 1
  ext h
  simp only [Set.mem_ofPred_eq, hs.records, skips, Bool.and_eq_true, Bool.not_eq_true',
    List.contains_eq_mem, decide_eq_false_iff_not, decide_eq_true_eq, hs.referenced,
    Disk.countedRecord]
  constructor
  · rintro ⟨r, hr, ⟨href, hact⟩, hold⟩
    exact ⟨href, hact, r, hr, hold⟩
  · rintro ⟨href, hact, r, hr, hold⟩
    exact ⟨r, hr, ⟨href, hact⟩, hold⟩

theorem scanMetadata_report (hs : scanMetadata d olderThan active = .ok scan) :
    scan.report = { GarbageCollectionReport.zero with
      scannedManifests := (Dict.toList d.manifests).length
      scannedChunkRecords := (Dict.toList d.chunks).length
      skippedActiveChunks := {h | d.countedRecord olderThan active h}.ncard } := by
  have hreads := scanMetadata_reads hs
  rw [← hreads.skips_count]
  unfold scanMetadata at hs
  split at hs
  · cases hs
  · next s1 h1 =>
    split at hs
    · cases hs
    · next s2 h2 =>
      cases hs
      have hreport := scanChunkRecords_report h2
      rw [scanManifests_report h1] at hreport
      simp only [countSkippedActive, hreport, GarbageCollectionScan.empty,
        GarbageCollectionReport.zero, Nat.zero_add]
      rfl

/-- What the visit of a file counts as skipped. -/
def GarbageCollectionScan.skipsFile (scan : GarbageCollectionScan) (active : List Hash)
    (h : Hash) : Bool :=
  !scan.referencedChunks.contains h && (scan.chunkRecords.lookup h).isNone && active.contains h

theorem visitFile_report (active : List Hash) (olderThan : Time) (scan : GarbageCollectionScan)
    (h : Hash) (f : ChunkFile) :
    (visitFile active olderThan scan h f).report = { scan.report with
      scannedPhysicalFiles := scan.report.scannedPhysicalFiles + 1
      skippedActiveChunks := scan.report.skippedActiveChunks +
        if scan.skipsFile active h then 1 else 0 } := by
  unfold visitFile GarbageCollectionScan.skipsFile
  dsimp only
  split
  · next hc => simp only [hc, Bool.not_true, Bool.false_and, Bool.false_eq_true, if_false,
      Nat.add_zero]
  · next hc =>
    rw [Bool.not_eq_true] at hc
    split
    · next hr =>
      rw [Option.isSome_iff_ne_none, ne_eq, ← Option.isNone_iff_eq_none] at hr
      simp only [hr, Bool.and_false, Bool.false_and, Bool.false_eq_true, if_false, Nat.add_zero]
    · next hr =>
      rw [Bool.not_eq_true, Option.isSome_eq_false_iff] at hr
      split
      · next ha => simp only [hc, hr, ha, Bool.not_false, Bool.and_self, if_true]
      · next ha =>
        simp only [ha, Bool.and_false, Bool.false_eq_true, if_false, Nat.add_zero]
        split
        · rfl
        · split <;> rfl

theorem visitFile_skipsFile (active : List Hash) (olderThan : Time) (scan : GarbageCollectionScan)
    (h : Hash) (f : ChunkFile) (k : Hash) :
    (visitFile active olderThan scan h f).skipsFile active k = scan.skipsFile active k := by
  obtain ⟨h1, -, h3, -⟩ := visitFile_spec active olderThan scan h f
  simp only [GarbageCollectionScan.skipsFile, h1, h3]

/-- **The walk** counts the files, and of them the held ones without a record. -/
theorem foldl_visitFile_report (olderThan : Time) (active : List Hash)
    (es : List (Hash × ChunkFile)) : ∀ scan : GarbageCollectionScan,
    (es.foldl (fun scan e => visitFile active olderThan scan e.1 e.2) scan).report =
      { scan.report with
        scannedPhysicalFiles := scan.report.scannedPhysicalFiles + es.length
        skippedActiveChunks := scan.report.skippedActiveChunks +
          es.countP fun e => scan.skipsFile active e.1 } := by
  induction es with
  | nil => exact fun _ => rfl
  | cons e es ih =>
    intro scan
    rw [List.foldl_cons, ih, visitFile_report]
    simp only [visitFile_skipsFile, List.length_cons, List.countP_cons, Nat.add_assoc,
      Nat.add_comm 1, Nat.add_comm (if _ then 1 else 0)]

theorem foldl_visitFile_length (olderThan : Time) (active : List Hash)
    (es : List (Hash × ChunkFile)) : ∀ scan : GarbageCollectionScan,
    (es.foldl (fun scan e => visitFile active olderThan scan e.1 e.2)
      scan).physicalOrphans.length = scan.physicalOrphans.length +
        es.countP fun e => orphanHash scan active olderThan e.1 && decide (e.2.modTime < olderThan)
    := by
  induction es with
  | nil => exact fun _ => rfl
  | cons e es ih =>
    intro scan
    rw [List.foldl_cons, ih, visitFile_orphans, List.length_append]
    simp only [visitFile_orphanHash, List.countP_cons, Bool.and_eq_true, decide_eq_true_eq]
    split
    · rw [List.length_singleton, Nat.add_assoc, Nat.add_comm 1]
    · rw [List.length_nil, Nat.add_zero, Nat.add_zero]

theorem GarbageCollectionScan.Reads.skipsFile_count (hs : scan.Reads d) :
    ((Dict.toList d.files).countP fun e => scan.skipsFile active e.1) =
      {h | d.countedFile active h}.ncard := by
  rw [Dict.countP_toList]
  congr 1
  ext h
  simp only [Set.mem_ofPred_eq, skipsFile, Bool.and_eq_true, Bool.not_eq_true',
    List.contains_eq_mem, decide_eq_false_iff_not, decide_eq_true_eq, hs.referenced, hs.records,
    Option.isNone_iff_eq_none, Disk.countedFile, Disk.hasFile, Option.isSome_iff_exists,
    exists_and_right]
  tauto

theorem GarbageCollectionScan.Reads.orphans_count (hs : scan.Reads d) :
    ((Dict.toList d.files).countP fun e =>
        orphanHash scan active olderThan e.1 && decide (e.2.modTime < olderThan)) =
      {h | d.orphaned olderThan active h}.ncard := by
  rw [Dict.countP_toList]
  congr 1
  ext h
  simp only [Set.mem_ofPred_eq, Bool.and_eq_true, decide_eq_true_eq, hs.orphanHash_iff,
    Disk.orphaned]
  constructor
  · rintro ⟨f, hf, ⟨h1, h2, h3, h4⟩, h5⟩
    exact ⟨h1, h2, h3, h4, f, hf, h5⟩
  · rintro ⟨h1, h2, h3, h4, f, hf, h5⟩
    exact ⟨f, hf, ⟨h1, h2, h3, h4⟩, h5⟩

/-- **The report of a scan without an error**, and the number of its orphans. -/
theorem scanGarbageCollection_report
    (hs : scanGarbageCollection env olderThan d active = .ok scan) :
    scan.report = { GarbageCollectionReport.zero with
        scannedManifests := (Dict.toList d.manifests).length
        scannedChunkRecords := (Dict.toList d.chunks).length
        scannedPhysicalFiles := (Dict.toList d.files).length
        skippedActiveChunks := {h | d.countedRecord olderThan active h}.ncard +
          {h | d.countedFile active h}.ncard } ∧
      scan.physicalOrphans.length = {h | d.orphaned olderThan active h}.ncard := by
  unfold scanGarbageCollection at hs
  split at hs
  · cases hs
  · split at hs
    · cases hs
    · next scan0 hs0 =>
      split at hs
      · cases hs
      · cases hs
        have hreads := scanMetadata_reads hs0
        refine ⟨?_, ?_⟩
        · rw [foldl_visitFile_report, hreads.skipsFile_count, scanMetadata_report hs0]
          simp only [GarbageCollectionReport.zero, Nat.zero_add]
        · rw [foldl_visitFile_length, hreads.orphans_count, scanMetadata_orphans hs0,
            List.length_nil, Nat.zero_add]

/-! ## The deletions -/

/-- What a record adds to the report in a sweep without an error. -/
def GarbageCollectionReport.counting (report : GarbageCollectionReport) :
    SweepDecision → GarbageCollectionReport
  | .keep => report
  | .skipActive => { report with skippedActiveChunks := report.skippedActiveChunks + 1 }
  | .candidate _ => { report with
    candidateChunks := report.candidateChunks + 1
    deletedChunks := report.deletedChunks + 1 }

theorem sweepRecords_errors (rs : List (Hash × ChunkRecord)) : ∀ w : SweepLoop,
    (sweepRecords env olderThan scan active rs w).deletionErrors = [] → w.deletionErrors = [] := by
  induction rs with
  | nil => exact fun _ he => he
  | cons e rs ih =>
    intro w he
    rcases sweepRecords_cons env e.1 e.2 rs w with ⟨err, heq⟩ | ⟨w', heq, -, hround⟩ <;>
      rw [heq] at he
    · exact he
    · exact hround.errors (ih w' he)

/-- A round that is not followed by an error takes its candidate: the record is as the scan has
read it, so the check in `deleteChunkMetadata` passes. -/
theorem sweepRecords_cons_report {O : Hash → Prop} {h : Hash} {r : ChunkRecord}
    {rs : List (Hash × ChunkRecord)} {w : SweepLoop} (hw : d.Swept (fun _ => True) O w.disk)
    (hr : d.chunks.lookup h = some r)
    (ha : (sweepRecords env olderThan scan active ((h, r) :: rs) w).abort = none)
    (he : (sweepRecords env olderThan scan active ((h, r) :: rs) w).deletionErrors = []) :
    ∃ w', sweepRecords env olderThan scan active ((h, r) :: rs) w =
        sweepRecords env olderThan scan active rs w' ∧ d.Swept (fun _ => True) O w'.disk ∧
      w'.report = w.report.counting (sweepDecision scan active olderThan h r) := by
  rw [sweepRecords] at ha he ⊢
  split at ha
  · cases ha
  · next hfault =>
    rw [hfault] at he
    dsimp only at he ⊢
    cases hd : sweepDecision scan active olderThan h r with
    | keep => exact ⟨w, rfl, hw, rfl⟩
    | skipActive => exact ⟨_, rfl, hw, rfl⟩
    | candidate b =>
      simp only [hd] at he ⊢
      -- a round that fails leaves an error for the end of the sweep
      have noError : ∀ {w' : SweepLoop} {err : Error},
          w'.deletionErrors = w.deletionErrors ++ [err] →
          (sweepRecords env olderThan scan active rs w').deletionErrors ≠ [] := by
        intro w' err herr he'
        have hnil := sweepRecords_errors rs w' he'
        rw [herr] at hnil
        simp at hnil
      cases hf : env.fault (.removeFile h) with
      | some e => rw [hf] at he; exact absurd he (noError rfl)
      | none =>
        simp only [hf] at he ⊢
        cases hm : env.fault (.deleteMetadata h) with
        | some e => rw [hm] at he; exact absurd he (noError rfl)
        | none =>
          simp only [hm] at he ⊢
          cases hdel : deleteChunkMetadata (removeChunkFile w.disk h) h olderThan b with
          | error e => rw [hdel] at he; exact absurd he (noError rfl)
          | ok out =>
            obtain ⟨deleted, d1⟩ := out
            obtain ⟨rfl, -⟩ := hw.deletes hr hd hdel
            refine ⟨_, rfl, ?_, rfl⟩
            exact (SweepRound.removed hd hdel rfl : SweepRound scan active olderThan h r w
              { w with disk := d1 }).swept hw fun _ _ => trivial

def SweepDecision.isCandidate : SweepDecision → Bool
  | .candidate _ => true
  | _ => false

theorem SweepDecision.isCandidate_iff {x : SweepDecision} :
    x.isCandidate = true ↔ ∃ b, x = .candidate b := by
  cases x <;> simp [isCandidate]

/-- **The loop over the records**, in a sweep without an error. -/
theorem sweepRecords_report {O : Hash → Prop} (rs : List (Hash × ChunkRecord))
    (hrec : ∀ e ∈ rs, d.chunks.lookup e.1 = some e.2) :
    ∀ w : SweepLoop, d.Swept (fun _ => True) O w.disk →
      (sweepRecords env olderThan scan active rs w).abort = none →
      (sweepRecords env olderThan scan active rs w).deletionErrors = [] →
      (sweepRecords env olderThan scan active rs w).report = { w.report with
        candidateChunks := w.report.candidateChunks +
          rs.countP fun e => (sweepDecision scan active olderThan e.1 e.2).isCandidate
        deletedChunks := w.report.deletedChunks +
          rs.countP fun e => (sweepDecision scan active olderThan e.1 e.2).isCandidate
        skippedActiveChunks := w.report.skippedActiveChunks +
          rs.countP fun e => sweepDecision scan active olderThan e.1 e.2 = .skipActive } := by
  induction rs with
  | nil => exact fun _ _ _ _ => rfl
  | cons e rs ih =>
    intro w hw ha he
    obtain ⟨w', heq, hw', hreport⟩ :=
      sweepRecords_cons_report hw (hrec e List.mem_cons_self) ha he
    rw [heq] at ha he ⊢
    rw [ih (fun e he => hrec e (List.mem_cons_of_mem _ he)) w' hw' ha he, hreport]
    simp only [List.countP_cons]
    cases sweepDecision scan active olderThan e.1 e.2 <;>
      simp [GarbageCollectionReport.counting, SweepDecision.isCandidate, Nat.add_assoc,
        Nat.add_comm 1]

theorem sweepOrphans_report (hs : List Hash) : ∀ w : SweepLoop,
    (sweepOrphans env hs w).abort = none → (sweepOrphans env hs w).deletionErrors = [] →
    (sweepOrphans env hs w).report = { w.report with
      deletedPhysicalOrphans := w.report.deletedPhysicalOrphans + hs.length } := by
  induction hs with
  | nil => exact fun _ _ _ => rfl
  | cons h hs ih =>
    intro w ha he
    unfold sweepOrphans at ha he ⊢
    split at ha
    · cases ha
    · next e hf1 hf2 =>
      rw [hf1, hf2] at he
      exact absurd (sweepOrphans_done env hs _ ha he).1 (by simp)
    · next hf1 hf2 =>
      rw [hf1, hf2] at he
      rw [ih _ ha he, List.length_cons]
      simp only [Nat.add_assoc, Nat.add_comm 1]

/-- The records the loop skips are the ones the scan has counted before. -/
theorem sweepDecision_skipActive_iff {h : Hash} {r : ChunkRecord} :
    sweepDecision scan active olderThan h r = .skipActive ↔
      scan.skips active olderThan (h, r) = true := by
  unfold sweepDecision GarbageCollectionScan.skips
  dsimp only
  cases scan.referencedChunks.contains h with
  | true => simp
  | false =>
    cases active.contains h with
    | true => cases oldEnough r.createdAt olderThan <;> simp
    | false =>
      simp only [Bool.false_eq_true, if_false, Bool.and_false, Bool.false_and, iff_false]
      split
      · split <;> exact nofun
      · split
        · exact nofun
        · split <;> exact nofun

theorem GarbageCollectionScan.Reads.skipActive_count (hs : scan.Reads d) :
    ((Dict.toList scan.chunkRecords).countP fun e =>
        sweepDecision scan active olderThan e.1 e.2 = .skipActive) =
      {h | d.countedRecord olderThan active h}.ncard := by
  rw [← hs.skips_count]
  refine List.countP_congr fun e _ => ?_
  rw [decide_eq_true_eq, sweepDecision_skipActive_iff]

theorem GarbageCollectionScan.Reads.candidates_count (hs : scan.Reads d) :
    ((Dict.toList scan.chunkRecords).countP fun e =>
        (sweepDecision scan active olderThan e.1 e.2).isCandidate) =
      {h | d.collectable olderThan active h}.ncard := by
  rw [Dict.countP_toList]
  congr 1
  ext h
  simp only [Set.mem_ofPred_eq, hs.records, SweepDecision.isCandidate_iff]
  constructor
  · rintro ⟨r, hr, hb⟩
    exact (hs.candidate_iff hr).1 hb
  · intro hc
    obtain ⟨-, -, -, r, hr, -⟩ := id hc
    exact ⟨r, hr, (hs.candidate_iff hr).2 hc⟩

/-! ## The whole sweep -/

/-- **The report of a sweep that returns no error.** -/
theorem collectGarbage_report {a : ActiveUploads}
    (hok : (collectGarbage env olderThan a d).2.1 = []) :
    (collectGarbage env olderThan a d).1 =
      { scannedManifests := (Dict.toList d.manifests).length
        scannedChunkRecords := (Dict.toList d.chunks).length
        scannedPhysicalFiles := (Dict.toList d.files).length
        candidateChunks := {h | d.collectable olderThan (snapshotActiveChunkHashes a) h}.ncard
        deletedChunks := {h | d.collectable olderThan (snapshotActiveChunkHashes a) h}.ncard
        deletedPhysicalOrphans := {h | d.orphaned olderThan (snapshotActiveChunkHashes a) h}.ncard
        skippedActiveChunks :=
          2 * {h | d.countedRecord olderThan (snapshotActiveChunkHashes a) h}.ncard +
            {h | d.countedFile (snapshotActiveChunkHashes a) h}.ncard } := by
  unfold collectGarbage at hok ⊢
  split at hok
  · cases hok
  · dsimp only at hok ⊢
    split at hok
    · cases hok
    · next scan hscan =>
      obtain ⟨hreads, -⟩ := scanGarbageCollection_ok hscan
      obtain ⟨hreport, horphans⟩ := scanGarbageCollection_report hscan
      split at hok
      · cases hok
      · next habort =>
        split at hok
        · cases hok
        · next habort' =>
          have herr := (sweepOrphans_done env _ _ habort' hok).1
          dsimp only
          rw [sweepOrphans_report _ _ habort' hok, sweepRecords_report _
            (fun e he => (mem_order hreads).1 he) _ (.refl (O := fun _ => True) d) habort herr,
            (env.order_perm _).countP_eq, (env.order_perm _).countP_eq, hreads.candidates_count,
            hreads.skipActive_count, horphans, hreport]
          simp only [GarbageCollectionReport.zero, Nat.zero_add, Nat.two_mul, Nat.add_right_comm]

/-! ## Exact reports -/

/-- The sweep kept the chunk for the active uploads only: an active upload holds it, and without
any the chunk was to be taken. -/
def Disk.heldBack (d : Disk) (olderThan : Time) (active : List Hash) (h : Hash) : Prop :=
  h ∈ active ∧ (d.collectable olderThan [] h ∨ d.orphaned olderThan [] h)

/-- The counters of a sweep that came from `d` to `d'`, but for the skipped chunks, are the numbers
they stand for. -/
structure GarbageCollectionReport.Counts (report : GarbageCollectionReport) (d d' : Disk) :
    Prop where
  candidates : report.deletedChunks = report.candidateChunks
  records : report.deletedChunks = {h | d.hasRecord h ∧ ¬ d'.hasRecord h}.ncard
  orphans : report.deletedPhysicalOrphans =
    {h | d.hasFile h ∧ ¬ d.hasRecord h ∧ ¬ d'.hasFile h}.ncard
  manifests : report.scannedManifests = (Dict.toList d.manifests).length
  chunkRecords : report.scannedChunkRecords = (Dict.toList d.chunks).length

/-- All counters are the numbers they stand for. -/
structure GarbageCollectionReport.Exact (report : GarbageCollectionReport) (olderThan : Time)
    (active : List Hash) (d d' : Disk) : Prop extends report.Counts d d' where
  skipped : report.skippedActiveChunks = {h | d.heldBack olderThan active h}.ncard

/-- The records that a sweep without an error removes are the collectable ones. -/
theorem collectGarbage_removedRecords {a : ActiveUploads}
    (hok : (collectGarbage env olderThan a d).2.1 = []) :
    {h | d.hasRecord h ∧ ¬ (collectGarbage env olderThan a d).2.2.hasRecord h} =
      {h | d.collectable olderThan (snapshotActiveChunkHashes a) h} := by
  have hswept := collectGarbage_swept env olderThan a d
  have hdone := (collectGarbage_done hok).1
  ext h
  simp only [Set.mem_ofPred_eq, Disk.hasRecord]
  constructor
  · rintro ⟨hr, hgone⟩
    rcases hswept.record h with hsame | ⟨hc, -⟩
    · exact absurd (hsame ▸ hr) hgone
    · exact hc
  · intro hc
    obtain ⟨-, -, -, r, hr, -⟩ := id hc
    rw [hr, (hdone h hc).1]
    exact ⟨rfl, Bool.false_ne_true⟩

theorem collectGarbage_removedOrphans {a : ActiveUploads}
    (hok : (collectGarbage env olderThan a d).2.1 = []) :
    {h | d.hasFile h ∧ ¬ d.hasRecord h ∧ ¬ (collectGarbage env olderThan a d).2.2.hasFile h} =
      {h | d.orphaned olderThan (snapshotActiveChunkHashes a) h} := by
  have hswept := collectGarbage_swept env olderThan a d
  have hdone := (collectGarbage_done hok).2
  ext h
  simp only [Set.mem_ofPred_eq, Disk.hasRecord, Disk.hasFile]
  constructor
  · rintro ⟨hf, hnone, hgone⟩
    rcases hswept.file h with hsame | ⟨⟨-, -, -, r, hr, -⟩ | ho, -⟩
    · exact absurd (hsame ▸ hf) hgone
    · exact absurd (by rw [hr]; rfl) hnone
    · exact ho
  · intro ho
    obtain ⟨-, -, -, hnone, f, hf, -⟩ := id ho
    rw [hf, hnone, hdone h ho]
    exact ⟨rfl, Bool.false_ne_true, Bool.false_ne_true⟩

/-- A record of which the counters know nothing is held back: it is not old, but the retirement of
every manifest that lists the chunk is. -/
def Disk.heldYoung (d : Disk) (olderThan : Time) (active : List Hash) (h : Hash) : Prop :=
  h ∈ active ∧ d.collectable olderThan [] h ∧ ¬ d.countedRecord olderThan active h

/-- Of the chunks that active uploads hold and no active manifest lists, none has an old record,
which would be counted twice, none has a record that is due without being old, which would not be
counted, and the files without a record are all due. -/
structure Disk.CountedOnce (d : Disk) (olderThan : Time) (active : List Hash) : Prop where
  records : ∀ h, ¬ d.countedRecord olderThan active h
  young : ∀ h, ¬ d.heldYoung olderThan active h
  files : ∀ h, d.countedFile active h → d.orphaned olderThan [] h

theorem Disk.heldBack_cases {h : Hash} (hh : d.heldBack olderThan active h) :
    d.countedRecord olderThan active h ∨ d.heldYoung olderThan active h ∨
      d.countedFile active h := by
  obtain ⟨hact, hc | ho⟩ := hh
  · by_cases hr : d.countedRecord olderThan active h
    · exact .inl hr
    · exact .inr (.inl ⟨hact, hc, hr⟩)
  · obtain ⟨href, -, -, hnone, f, hf, -⟩ := ho
    exact .inr (.inr ⟨href, hact, hnone, by rw [Disk.hasFile, hf]; rfl⟩)

/-- Where chunks are counted once, those held back are the files that the walk counts. -/
theorem Disk.CountedOnce.skips (h : d.CountedOnce olderThan active) :
    2 * {h | d.countedRecord olderThan active h}.ncard + {h | d.countedFile active h}.ncard =
      {h | d.heldBack olderThan active h}.ncard := by
  have hnone : {h | d.countedRecord olderThan active h} = ∅ :=
    Set.eq_empty_iff_forall_notMem.2 h.records
  have hfiles : {h | d.countedFile active h} = {h | d.heldBack olderThan active h} := by
    ext k
    refine ⟨fun hk => ⟨hk.2.1, .inr (h.files k hk)⟩, fun hk => ?_⟩
    rcases heldBack_cases hk with hr | hy | hf
    · exact absurd hr (h.records k)
    · exact absurd hy (h.young k)
    · exact hf
  rw [hnone, hfiles, Set.ncard_empty, Nat.mul_zero, Nat.zero_add]

/-- Where no young record is held back, the number is right only if chunks are counted once: what
is held back is counted, so every count too many shows. -/
theorem Disk.countedOnce_of_skips (hyoung : ∀ h, ¬ d.heldYoung olderThan active h)
    (hskips : 2 * {h | d.countedRecord olderThan active h}.ncard +
      {h | d.countedFile active h}.ncard = {h | d.heldBack olderThan active h}.ncard) :
    d.CountedOnce olderThan active := by
  have hrecords : {h | d.countedRecord olderThan active h}.Finite := by
    refine d.chunks.finite_keys.subset ?_
    rintro h ⟨-, -, r, hr, -⟩
    rw [Set.mem_ofPred_eq, hr]
    rfl
  have hfiles : {h | d.countedFile active h}.Finite :=
    d.files.finite_keys.subset fun h hf => hf.2.2.2
  have hsub : {h | d.heldBack olderThan active h} ⊆
      {h | d.countedRecord olderThan active h} ∪ {h | d.countedFile active h} := by
    intro h hh
    rcases heldBack_cases hh with hr | hy | hf
    · exact .inl hr
    · exact absurd hy (hyoung h)
    · exact .inr hf
  have hle := (Set.ncard_le_ncard hsub (hrecords.union hfiles)).trans (Set.ncard_union_le ..)
  have hempty : {h | d.countedRecord olderThan active h} = ∅ :=
    (Set.ncard_eq_zero hrecords).1 (by omega)
  rw [hempty, Set.empty_union] at hsub
  rw [hempty, Set.ncard_empty, Nat.mul_zero, Nat.zero_add] at hskips
  have heq := Set.eq_of_subset_of_ncard_le hsub hskips.le hfiles
  refine ⟨Set.eq_empty_iff_forall_notMem.1 hempty, hyoung, fun h hf => ?_⟩
  have hback : h ∈ {h | d.heldBack olderThan active h} := heq ▸ hf
  obtain ⟨-, ⟨-, -, -, r, hr, -⟩ | ho⟩ := hback
  · cases hr.symm.trans hf.2.2.1
  · exact ho

/-- **When the report of a sweep is exact.** In a sweep without an error all counters but that of
the skipped chunks are; this one is where the held chunks are counted once, and where no young
record is held back, only there. -/
theorem collectGarbage_report_exact {a : ActiveUploads}
    (hok : (collectGarbage env olderThan a d).2.1 = []) :
    (collectGarbage env olderThan a d).1.Counts d (collectGarbage env olderThan a d).2.2 ∧
    (d.CountedOnce olderThan (snapshotActiveChunkHashes a) →
      (collectGarbage env olderThan a d).1.Exact olderThan (snapshotActiveChunkHashes a) d
        (collectGarbage env olderThan a d).2.2) ∧
    ((∀ h, ¬ d.heldYoung olderThan (snapshotActiveChunkHashes a) h) →
      (collectGarbage env olderThan a d).1.Exact olderThan (snapshotActiveChunkHashes a) d
        (collectGarbage env olderThan a d).2.2 →
      d.CountedOnce olderThan (snapshotActiveChunkHashes a)) := by
  have hreport := collectGarbage_report hok
  have hrecords := collectGarbage_removedRecords hok
  have horphans := collectGarbage_removedOrphans hok
  have counts : (collectGarbage env olderThan a d).1.Counts d
      (collectGarbage env olderThan a d).2.2 := by
    refine ⟨?_, ?_, ?_, ?_, ?_⟩
    · rw [hreport]
    · rw [hrecords, hreport]
    · rw [horphans, hreport]
    · rw [hreport]
    · rw [hreport]
  refine ⟨counts, fun honce => ⟨counts, ?_⟩, fun hyoung hexact => ?_⟩
  · rw [← honce.skips, hreport]
  · refine Disk.countedOnce_of_skips hyoung ?_
    rw [← hexact.skipped, hreport]

def oneChunk : Disk :=
  { Disk.empty with
    chunks := (∅ : Dict Hash ChunkRecord).insert (sampleHash [7])
      { chunkHash := sampleHash [7], sizeBytes := 1, manifestRefCount := 0, retained := false,
        createdAt := 1 }
    files := (∅ : Dict Hash ChunkFile).insert (sampleHash [7]) ⟨[7], 1⟩ }

/-- With it, an old file without a record. -/
def heldFile : Disk :=
  { oneChunk with files := oneChunk.files.insert (sampleHash [8]) ⟨[8], 1⟩ }

/-- An active upload holds the file; the chunk is removed. -/
theorem collectGarbage_report_exact_sample :
    let a : ActiveUploads := (∅ : ActiveUploads).insert 1 [sampleHash [8]]
    (collectGarbage .calm 5 a heldFile).1.skippedActiveChunks = 1 ∧
      (collectGarbage .calm 5 a heldFile).1.deletedChunks = 1 ∧
      (collectGarbage .calm 5 a heldFile).1.Exact 5 (snapshotActiveChunkHashes a) heldFile
        (collectGarbage .calm 5 a heldFile).2.2 := by
  intro a
  have noManifest : ∀ id, heldFile.manifests.lookup id = none := fun _ => rfl
  have noRecord : heldFile.chunks.lookup (sampleHash [8]) = none := by decide
  have hold : ∀ h ∈ snapshotActiveChunkHashes a, h = sampleHash [8] :=
    fun h hh => List.mem_singleton.1 hh
  have once : heldFile.CountedOnce 5 (snapshotActiveChunkHashes a) := by
    refine ⟨fun h hr => ?_, fun h hy => ?_, fun h hf => ?_⟩
    · obtain ⟨-, hact, r, hr, -⟩ := hr
      rw [hold h hact, noRecord] at hr
      cases hr
    · obtain ⟨hact, ⟨-, -, -, r, hr, -⟩, -⟩ := hy
      rw [hold h hact, noRecord] at hr
      cases hr
    · refine ⟨hf.1, List.not_mem_nil, fun id m hm => ?_, hf.2.2.1, ⟨[8], 1⟩, ?_, by decide⟩
      · rw [noManifest] at hm
        cases hm
      · rw [hold h hf.2.1]
        decide
  exact ⟨by decide, by decide, (collectGarbage_report_exact (by decide)).2.1 once⟩

/-- An active upload holds the chunk, and the report counts it twice. -/
theorem collectGarbage_report_fails :
    let a : ActiveUploads := (∅ : ActiveUploads).insert 1 [sampleHash [7]]
    (collectGarbage .calm 5 a oneChunk).2.1 = [] ∧
      ¬ (collectGarbage .calm 5 a oneChunk).1.Exact 5 (snapshotActiveChunkHashes a) oneChunk
        (collectGarbage .calm 5 a oneChunk).2.2 := by
  intro a
  have active : snapshotActiveChunkHashes a = [sampleHash [7]] := rfl
  have reported : (collectGarbage .calm 5 a oneChunk).1.skippedActiveChunks = 2 := by decide
  refine ⟨by decide, fun h => ?_⟩
  have hone : {h | oneChunk.heldBack 5 (snapshotActiveChunkHashes a) h}.ncard ≤ 1 := by
    refine (Set.ncard_le_ncard (t := {sampleHash [7]}) fun h hh => ?_).trans
      (Set.ncard_singleton _).le
    rw [active] at hh
    exact List.mem_singleton.1 hh.1
  have htwo := h.skipped
  omega

end HashBox.Vault
