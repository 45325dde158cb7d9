import HashBox.Vault.Proof.ChunkFiles
import HashBox.Vault.Proof.Sweeps
import Mathlib.Data.Fintype.EquivFin

/-!
# A chunk file as one step

`System.lean` writes and removes a chunk file in one step. `FileThread.atomic` is the thread there
that a thread with its system calls stands for: the write of a chunk file happens when its `link`
does, or when the writer finds the file. Between two crashes every run of system calls is a run of
the atomic steps (`FileStore.refines`), so what is proved of those runs holds of the system calls.
-/

namespace HashBox.Vault

variable {blake3 : Bytes → Hash} {root root' : ChunkRoot} {db db' : Database} {s s' : Mem}
  {t : SessionID} {d : Disk}

/-! ## Steps that touch no file -/

/-- The disk with other files. -/
def Disk.withFiles (d : Disk) (files : Dict Hash ChunkFile) : Disk := { d with files }

theorem commitManifestAndChunkRefs_withFiles (d : Disk) (fs : Dict Hash ChunkFile)
    (m : ManifestRecord) : commitManifestAndChunkRefs (d.withFiles fs) m =
      (commitManifestAndChunkRefs d m).map (·.withFiles fs) := by
  unfold commitManifestAndChunkRefs Disk.withFiles
  dsimp only
  split
  · rfl
  · split
    · split
      · rfl
      · split <;> rfl
    · split <;> rfl

theorem uploadStep_withFiles {u : Upload} {k : Choice} (hstat : ∀ c, u.pc ≠ .stat c)
    (hpersist : ∀ c found, u.pc ≠ .persist c found) (fs : Dict Hash ChunkFile) :
    uploadStep blake3 (d.withFiles fs) s t u k =
      (uploadStep blake3 d s t u k).map fun r => (r.1.withFiles fs, r.2) := by
  cases k with
  | pick h => rfl
  | fail err =>
    unfold uploadStep
    dsimp only
    split <;> rfl
  | go now =>
    unfold uploadStep
    dsimp only
    split
    case h_2 =>
      split
      · rfl
      · rfl
      · split <;> rfl
    case h_3 | h_9 | h_13 => rw [Option.map_map]; rfl
    case h_4 => rw [show getChunk (d.withFiles fs) _ = getChunk d _ from rfl]; split <;> rfl
    case h_5 c hpc => exact absurd hpc (hstat c)
    case h_6 c found hpc => exact absurd hpc (hpersist c found)
    case h_7 c hpc =>
      unfold putNewChunk Disk.withFiles
      dsimp only
      split <;> rfl
    case h_10 m hpc =>
      rw [commitManifestAndChunkRefs_withFiles]
      cases commitManifestAndChunkRefs d m <;> rfl
    all_goals rfl

theorem updateManifestLifecycle_withFiles (d : Disk) (fs : Dict Hash ChunkFile) (manifestID : Hash)
    (retired : Bool) (now : Time) :
    updateManifestLifecycle (d.withFiles fs) manifestID retired now =
      (updateManifestLifecycle d manifestID retired now).map (·.withFiles fs) := by
  unfold updateManifestLifecycle Disk.withFiles
  dsimp only
  split
  · rfl
  · split
    · rfl
    · split <;> rfl

theorem lifecycleStep_withFiles {l : Lifecycle} {k : Choice} (fs : Dict Hash ChunkFile) :
    lifecycleStep (d.withFiles fs) s t l k =
      (lifecycleStep d s t l k).map fun r => (r.1.withFiles fs, r.2) := by
  cases k with
  | pick h => rfl
  | fail err =>
    unfold lifecycleStep
    dsimp only
    split <;> rfl
  | go now =>
    unfold lifecycleStep
    dsimp only
    split
    · rw [Option.map_map]; rfl
    · rw [updateManifestLifecycle_withFiles]
      cases updateManifestLifecycle d l.manifestID l.retired now <;> rfl
    · rfl

theorem deleteChunkMetadata_withFiles (d : Disk) (fs : Dict Hash ChunkFile) (h : Hash)
    (olderThan : Time) (retired : Bool) : deleteChunkMetadata (d.withFiles fs) h olderThan retired =
      (deleteChunkMetadata d h olderThan retired).map fun r => (r.1, r.2.withFiles fs) := by
  unfold deleteChunkMetadata Disk.withFiles
  dsimp only
  split
  · rfl
  · split
    · rfl
    · split <;> rfl

/-- The files after a step of a sweep. -/
def Sweep.filesAfter (w : Sweep) (k : Choice) (fs : Dict Hash ChunkFile) : Dict Hash ChunkFile :=
  match k, w.pc with
  | .go _, .removeFile _ _ _ h _ => fs.erase h
  | .go _, .orphans (h :: _) => fs.erase h
  | _, _ => fs

/-- A sweep reads the files in its walk only. -/
theorem sweepStep_withFiles {w : Sweep} {k : Choice}
    (hwalk : ∀ active scan visited h, w.pc = .walk active scan visited → k ≠ .pick h)
    (fs : Dict Hash ChunkFile) :
    sweepStep (d.withFiles fs) s t w k =
      (sweepStep d s t w k).map fun r => (r.1.withFiles (w.filesAfter k fs), r.2) := by
  obtain ⟨olderThan, report, deletionErrors, pc⟩ := w
  cases k with
  | fail err =>
    unfold sweepStep
    dsimp only
    split <;> rfl
  | pick h =>
    unfold sweepStep
    dsimp only
    split
    · exact absurd rfl (hwalk _ _ _ h rfl)
    · rw [Option.map_map]
      congr 1
      funext r
      dsimp only [Function.comp]
      split <;> rfl
    · rfl
  | go now =>
    unfold sweepStep
    dsimp only
    split
    case h_1 => rw [Option.map_map]; rfl
    case h_3 active =>
      rw [show scanMetadata (d.withFiles fs) _ _ = scanMetadata d olderThan active from rfl]
      split <;> rfl
    case h_7 active scan todo h retired =>
      rw [deleteChunkMetadata_withFiles]
      cases deleteChunkMetadata d h olderThan retired <;> rfl
    all_goals rfl

/-! ## The files -/

/-- The chunk's file, as the atomic steps see it. -/
def ChunkRoot.chunkFile (root : ChunkRoot) (h : Hash) : Option ChunkFile :=
  ((root.lookup (chunkPath h)).bind root.inode).map fun f => ⟨f.content, f.modTime⟩

theorem ChunkRoot.isSome_chunkFile (root : ChunkRoot) (h : Hash) :
    (root.chunkFile h).isSome = (root.lookup (chunkPath h)).isSome := by
  unfold ChunkRoot.chunkFile
  cases hl : root.lookup (chunkPath h) with
  | none => rfl
  | some i =>
    obtain ⟨node, hn⟩ := Files.exists_inode hl
    rw [Option.bind_some, hn]
    rfl

theorem ChunkRoot.chunkFile_call {own : Option (Path × Nat)}
    (hc : RootCall blake3 False own root root')
    (hpub : Files.Published isChunkName (wellPlaced blake3) root)
    (hnone : ∀ h, root.lookup (chunkPath h) = none → root'.lookup (chunkPath h) = none) :
    root'.chunkFile = root.chunkFile := by
  funext h
  unfold ChunkRoot.chunkFile
  cases hl : root.lookup (chunkPath h) with
  | none => rw [hnone h hl]; rfl
  | some i =>
    have hname := isChunkName_chunkPath h
    rcases hc.public hname hl with hl' | ⟨hf, -⟩
    · rw [hl', Option.bind_some, Option.bind_some, hc.inode hpub hname hl]
    · exact hf.elim

theorem ChunkRoot.chunkFile_remove (root : ChunkRoot) (h c : Hash) :
    ChunkRoot.chunkFile (root.remove (chunkPath h)) c =
      if c = h then none else root.chunkFile c := by
  unfold ChunkRoot.chunkFile
  rw [Files.lookup_remove]
  split
  · next he => rw [if_pos (chunkPath_injective he)]; rfl
  · next he => rw [if_neg fun hc => he (congrArg chunkPath hc)]; rfl

theorem ChunkRoot.chunkFile_found {h : Hash} (hl : (root.lookup (chunkPath h)).isSome)
    (f : ChunkFile) (b : Hash) :
    root.chunkFile b = (root.chunkFile b).or (if b = h then some f else none) := by
  split
  · next hb =>
    rw [← hb, ← ChunkRoot.isSome_chunkFile] at hl
    rw [Option.or_of_isSome hl]
  · rw [Option.or_none]

/-- The link of a temporary file puts the chunk's file in place, with its content. -/
theorem ChunkRoot.chunkFile_link {tmp : TempFile} {h : Hash} {c : Bytes} {synced : Prop}
    (hold : tmp.Holds root c synced) (hl : root.link tmp.path (chunkPath h) = .ok root') :
    ∃ now, ∀ b, ChunkRoot.chunkFile root' b =
      (root.chunkFile b).or (if b = h then some ⟨c, now⟩ else none) := by
  obtain ⟨i, hi, hnone, hnodes, -, hlook⟩ := Files.link_ok hl
  obtain ⟨node, hn, hcon, -⟩ := hold.node
  cases hi.symm.trans hold.owned.lookup
  have hinode : ∀ j, Files.inode root' j = root.inode j := by
    intro j
    unfold Files.inode
    rw [hnodes]
  refine ⟨node.modTime, fun b => ?_⟩
  unfold ChunkRoot.chunkFile
  rw [hlook]
  split
  · next hb =>
    cases chunkPath_injective hb
    rw [hnone, if_pos rfl, Option.bind_some, hinode, hn, ← hcon]
    rfl
  · next hb =>
    rw [if_neg fun he => hb (congrArg chunkPath he), Option.or_none, funext hinode]

/-- The disk of the atomic steps that a tree and a database stand for. -/
structure Disk.Matches (d : Disk) (root : ChunkRoot) (db : Database) : Prop where
  database : d.database = db
  files : ∀ h, d.files.lookup h = root.chunkFile h

theorem Disk.Matches.eq (h : d.Matches root db) : d = db.disk.withFiles d.files := by
  rw [← h.database]
  rfl

/-! ## The writer -/

/-- The chunk's file is in place. -/
def WriterPc.linked : WriterPc → Bool
  | .remove _ (.ok _) | .done (.ok _) => true
  | _ => false

/-- **A writer puts the file in place in one step**, and changes no chunk file in its others. -/
theorem writerStep_atomic {c : Bytes} {w w' : WriterPc} {k : FileChoice}
    (hpub : Files.Published isChunkName (wellPlaced blake3) root)
    (hw : w.Ok root (chunkPath (blake3 c)) c)
    (h : writerStep root (chunkPath (blake3 c)) c w k = some (root', w')) :
    (w'.linked = w.linked ∧ root'.chunkFile = root.chunkFile) ∨
    (w.linked = false ∧ w'.linked = true ∧ ∃ now, ∀ b, root'.chunkFile b =
      (root.chunkFile b).or (if b = blake3 c then some ⟨c, now⟩ else none)) := by
  obtain ⟨hcall, -, -⟩ : RootCall blake3 False w.own root root' ∧ _ ∧ _ := writerStep_spec hw h
  have same : (∀ b, root.lookup (chunkPath b) = none → root'.lookup (chunkPath b) = none) →
      root'.chunkFile = root.chunkFile := ChunkRoot.chunkFile_call hcall hpub
  have found : (root.lookup (chunkPath (blake3 c))).isSome → ∃ now, ∀ b, root.chunkFile b =
      (root.chunkFile b).or (if b = blake3 c then some ⟨c, now⟩ else none) := fun hl =>
    ⟨0, ChunkRoot.chunkFile_found hl ⟨c, 0⟩⟩
  unfold writerStep at h
  split at h
  case h_1 =>
    cases h
    split
    · next hl => exact .inr ⟨rfl, rfl, found hl⟩
    · exact .inl ⟨rfl, same fun _ => id⟩
  case h_5 n now =>
    obtain ⟨⟨root1, inode⟩, ho, he⟩ := Option.map_eq_some_iff.1 h
    cases he
    refine .inl ⟨rfl, same fun b hb => ?_⟩
    rw [Files.lookup_openExcl ho, if_neg, hb]
    intro he
    exact not_isChunkName_temp (chunkPath (blake3 c)).dropLast n (he ▸ isChunkName_chunkPath b)
  case h_18 tmp now =>
    split at h
    · next root1 hl =>
      cases h
      exact .inr ⟨rfl, rfl, ChunkRoot.chunkFile_link hw hl⟩
    · next hl => cases h; exact .inr ⟨rfl, rfl, found (Files.link_exist hl)⟩
    · cases h; exact .inl ⟨rfl, same fun _ => id⟩
  case h_20 =>
    cases h
    split
    · next hl => exact .inr ⟨rfl, rfl, found hl⟩
    · exact .inl ⟨rfl, same fun _ => id⟩
  case h_22 tmp result now =>
    cases h
    refine .inl ⟨?_, same fun b hb => ?_⟩
    · cases result <;> rfl
    · rw [Files.lookup_remove]
      split
      · rfl
      · exact hb
  case h_23 tmp result err =>
    cases h
    refine .inl ⟨?_, same fun _ => id⟩
    cases result <;> rfl
  case h_24 => cases h
  all_goals cases h; exact .inl ⟨rfl, same fun _ => id⟩

theorem lookup_writeChunkIfMissing (d : Disk) (h : Hash) (c : Bytes) (now : Time) (b : Hash) :
    (writeChunkIfMissing d h c now).files.lookup b =
      (d.files.lookup b).or (if b = h then some ⟨c, now⟩ else none) := by
  unfold writeChunkIfMissing
  split
  · next f hf =>
    split
    · next hb => rw [hb, hf]; rfl
    · rw [Option.or_none]
  · next hf =>
    rw [Dict.lookup_insert_if]
    split
    · next hb => rw [hb, hf]; rfl
    · rw [Option.or_none]

/-! ## The threads -/

/-- The thread of the atomic steps that a thread stands for. -/
def FileThread.atomic : FileThread → Thread
  | .upload u => .upload u
  | .writing u c found w =>
    .upload (if w.linked then { u with pc := if found then .mark c false else .putRecord c } else u)
  | .lifecycle l => .lifecycle l
  | .sweep w _ _ => .sweep w

/-- The chunks whose files the walk has visited; none once it is over. -/
def Sweep.visitedHashes (w : Sweep) : Option (List Hash) :=
  match w.pc with
  | .lock | .snapshot | .scan _ => some []
  | .walk _ _ visited => some visited
  | .records .. | .removeFile .. | .deleteMetadata .. | .orphans _ | .done => none

/-- The orphans found so far and yet to be removed. -/
def Sweep.orphanHashes (w : Sweep) : Option (List Hash) :=
  match w.pc with
  | .lock | .snapshot | .scan _ => some []
  | .walk _ scan _ | .records _ scan _ | .removeFile _ scan _ _ _
  | .deleteMetadata _ scan _ _ _ => some scan.physicalOrphans
  | .orphans todo => some todo
  | .done => none

/-- The paths of a sweep are those of its hashes, a writer works for `persist`. -/
def FileThread.Tied : FileThread → Prop
  | .upload _ | .lifecycle _ => True
  | .writing u c found _ => u.pc = .persist c found
  | .sweep w visited orphans => (∀ hs, w.visitedHashes = some hs → visited = hs.map chunkPath) ∧
      ∀ hs, w.orphanHashes = some hs → orphans = hs.map chunkPath

theorem FileThread.atomic_ofUpload (u : Upload) :
    (FileThread.ofUpload u).atomic = .upload u ∧ (FileThread.ofUpload u).Tied := by
  unfold FileThread.ofUpload
  split
  · next hpc => exact ⟨rfl, hpc⟩
  · exact ⟨rfl, trivial⟩

/-- **The step is one of the atomic steps, or does nothing that they see.** -/
def FileThread.Simulates (blake3 : Bytes → Hash) (d : Disk) (root' : ChunkRoot) (db' : Database)
    (s s' : Mem) (t : SessionID) (th th' : FileThread) : Prop :=
  th'.Tied ∧ ((th'.atomic = th.atomic ∧ s' = s ∧ d.Matches root' db') ∨
    ∃ k d', th.atomic.step blake3 d s t k = some (d', s', th'.atomic) ∧ d'.Matches root' db')

theorem fileUploadStep_atomic {u : Upload} {k : FileChoice} {th' : FileThread}
    (hd : d.Matches root db)
    (hplain : ∀ c err, u.pc = .stat c → k ≠ .call (.fail err))
    (h : fileUploadStep blake3 root db s t u k = some (root', db', s', th')) :
    FileThread.Simulates blake3 d root' db' s s' t (.upload u) th' := by
  unfold fileUploadStep at h
  split at h
  · next k =>
    split at h
    · next c now hpc =>
      have hfile : (d.files.lookup (blake3 c)).isSome =
          (root.lookup (chunkPath (blake3 c))).isSome := by
        rw [hd.files, ChunkRoot.isSome_chunkFile]
      split at h
      · next hl =>
        cases h
        refine ⟨trivial, .inr ⟨.go now, d, ?_, hd⟩⟩
        simp only [FileThread.atomic, Thread.step, uploadStep, hpc, hfile, hl, if_true,
          Option.map_some]
      · next hl =>
        cases h
        refine ⟨rfl, .inr ⟨.go now, d, ?_, hd⟩⟩
        simp only [FileThread.atomic, Thread.step, uploadStep, hpc, hfile, hl]
        rfl
    · next c err hpc => exact absurd rfl (hplain c err hpc)
    · cases h
    · next k _ _ hpersist hgo hfail =>
      obtain ⟨⟨d1, s1, u1⟩, hu, he⟩ := Option.map_eq_some_iff.1 h
      cases he
      have hstat : ∀ c, u.pc ≠ .stat c := by
        intro c hpc
        cases k with
        | go now => exact hgo c now hpc rfl
        | fail err => exact hfail c err hpc rfl
        | pick b => cases hu
      obtain ⟨hatomic, htied⟩ := FileThread.atomic_ofUpload u1
      refine ⟨htied, .inr ⟨k, d1.withFiles d.files, ?_, rfl, hd.files⟩⟩
      rw [hatomic, hd.eq]
      show (uploadStep blake3 (db.disk.withFiles d.files) s t u k).map _ = _
      rw [uploadStep_withFiles hstat hpersist, hu]
      rfl
  · cases h

theorem FileThread.atomic_unlinked {u : Upload} {c : Bytes} {found : Bool} {w : WriterPc}
    (hw : w.linked = false) : (FileThread.writing u c found w).atomic = .upload u := by
  rw [FileThread.atomic, hw]
  rfl

theorem FileThread.atomic_linked {u : Upload} {c : Bytes} {found : Bool} {w : WriterPc}
    (hw : w.linked = true) : (FileThread.writing u c found w).atomic =
      .upload { u with pc := if found then .mark c false else .putRecord c } := by
  rw [FileThread.atomic, hw]
  rfl

theorem fileWriterStep_atomic {u : Upload} {c : Bytes} {found : Bool} {w : WriterPc}
    {k : FileChoice} {th' : FileThread}
    (hpub : Files.Published isChunkName (wellPlaced blake3) root)
    (hok : (FileThread.writing u c found w).Ok blake3 root s t)
    (hpc : u.pc = .persist c found) (hd : d.Matches root db)
    (h : fileWriterStep blake3 root db s t u c found w k = some (root', db', s', th')) :
    FileThread.Simulates blake3 d root' db' s s' t (.writing u c found w) th' := by
  obtain ⟨⟨root1, w1⟩, hw, he⟩ := Option.map_eq_some_iff.1 h
  dsimp only at he
  rcases writerStep_atomic hpub hok.2 hw with ⟨hlinked, hfiles⟩ | ⟨hw0, hw1, now, hfiles⟩
  · have hd' : d.Matches root1 db := ⟨hd.database, by rw [hfiles]; exact hd.files⟩
    split at he
    · next result =>
      cases result with
      | ok =>
        cases he
        refine ⟨trivial, .inl ⟨?_, rfl, hd'⟩⟩
        rw [FileThread.atomic_linked hlinked.symm]
        rfl
      | error err =>
        cases he
        refine ⟨trivial, .inr ⟨.fail err, d, ?_, hd'⟩⟩
        rw [FileThread.atomic_unlinked hlinked.symm, Thread.step, uploadStep]
        cases found <;> simp only [hpc] <;> rfl
    · cases he
      refine ⟨hpc, .inl ⟨?_, rfl, hd'⟩⟩
      simp only [FileThread.atomic, hlinked]
  · have hd' : (writeChunkIfMissing d (blake3 c) c now).Matches root1 db := by
      refine ⟨?_, fun b => ?_⟩
      · unfold writeChunkIfMissing
        split <;> exact hd.database
      · rw [lookup_writeChunkIfMissing, hd.files, hfiles]
    have hstep : (FileThread.writing u c found w).atomic.step blake3 d s t (.go now) =
        some (writeChunkIfMissing d (blake3 c) c now, s,
          .upload { u with pc := if found then .mark c false else .putRecord c }) := by
      rw [FileThread.atomic_unlinked hw0, Thread.step, uploadStep]
      simp only [hpc]
      rfl
    split at he
    · next result =>
      cases result with
      | ok => cases he; exact ⟨trivial, .inr ⟨.go now, _, hstep, hd'⟩⟩
      | error err => cases hw1
    · cases he
      refine ⟨hpc, .inr ⟨.go now, _, ?_, hd'⟩⟩
      rw [hstep, FileThread.atomic_linked hw1]

/-- What a step leaves of what the sweep has visited and has yet to remove. -/
theorem sweepStep_lists {d' : Disk} {w w' : Sweep} {k : Choice}
    (hwalk : ∀ active scan visited h, w.pc = .walk active scan visited → k ≠ .pick h)
    (h : sweepStep d s t w k = some (d', s', w')) :
    (∀ hs, w'.visitedHashes = some hs → w.visitedHashes = some hs) ∧
      ∀ hs, w'.orphanHashes = some hs →
        ∃ hs', w.orphanHashes = some hs' ∧ hs = w.orphansLeft hs' := by
  have nothing : ∀ {hs : List Hash} {P : Prop}, (none : Option (List Hash)) = some hs → P :=
    fun hh => by cases hh
  cases sweepStep_move h with
  | refused | stop | finish => exact ⟨fun _ => nothing, fun _ => nothing⟩
  | visit b active scan visited f hpc => exact absurd rfl (hwalk active scan visited b hpc)
  | scan now active scan hpc hscan =>
    simp only [Sweep.visitedHashes, Sweep.orphanHashes, Sweep.orphansLeft, hpc]
    refine ⟨fun _ => id, fun hs hh => ⟨[], rfl, ?_⟩⟩
    cases hh
    exact scanMetadata_orphans hscan
  | lock now l hpc | snapshot now hpc =>
    simp only [Sweep.visitedHashes, Sweep.orphanHashes, Sweep.orphansLeft, hpc]
    exact ⟨fun _ => id, fun hs hh => ⟨hs, hh, rfl⟩⟩
  | walked now active scan visited hpc | keep b active scan todo report hpc
  | candidate b active scan todo r retired report hpc | recordsDone now active scan hpc
  | removeFile now active scan todo b retired hpc
  | deleteMetadata now active scan todo b retired deleted d' report hpc =>
    simp only [Sweep.orphanHashes, Sweep.orphansLeft, hpc]
    exact ⟨fun _ => nothing, fun hs hh => ⟨hs, hh, rfl⟩⟩
  | skip k err active scan todo b retired hpc =>
    refine ⟨fun _ => nothing, fun hs hh => ⟨hs, ?_⟩⟩
    rcases hpc with hpc | hpc <;> simp only [Sweep.orphanHashes, Sweep.orphansLeft, hpc] <;>
      exact ⟨hh, trivial⟩
  | removeOrphan now b todo report hpc | skipOrphan k err b todo hpc =>
    simp only [Sweep.orphanHashes, Sweep.orphansLeft, hpc]
    refine ⟨fun _ => nothing, fun hs hh => ?_⟩
    cases hh
    exact ⟨_, rfl, rfl⟩

theorem Sweep.orphansLeft_map (w : Sweep) (hs : List Hash) :
    w.orphansLeft (hs.map chunkPath) = (w.orphansLeft hs).map chunkPath := by
  unfold Sweep.orphansLeft
  split
  · exact List.map_tail.symm
  · rfl

/-- The sweep's system call removes the file that the atomic step removes. -/
theorem Sweep.filesAfter_matches {w : Sweep} {k : Choice} {orphans : List Path}
    (horphans : ∀ hs, w.orphanHashes = some hs → orphans = hs.map chunkPath)
    (hd : d.Matches root db) (h : Hash) :
    (w.filesAfter k d.files).lookup h = (w.rootAfter k root orphans).chunkFile h := by
  obtain ⟨olderThan, report, deletionErrors, pc⟩ := w
  cases k with
  | fail err => exact hd.files h
  | pick b => exact hd.files h
  | go now =>
    cases pc with
    | removeFile active scan todo b retired =>
      show (d.files.erase b).lookup h = ChunkRoot.chunkFile (root.remove (chunkPath b)) h
      rw [Dict.lookup_erase_if, ChunkRoot.chunkFile_remove, hd.files]
    | orphans todo =>
      rw [horphans todo rfl]
      cases todo with
      | nil => exact hd.files h
      | cons b todo =>
        show (d.files.erase b).lookup h = ChunkRoot.chunkFile (root.remove (chunkPath b)) h
        rw [Dict.lookup_erase_if, ChunkRoot.chunkFile_remove, hd.files]
    | lock | snapshot | scan | walk | records | deleteMetadata | done => exact hd.files h

/-- The walk visits a file where the atomic walk visits the hash that the file's name spells. -/
theorem walkStep_atomic {w : Sweep} {active : List Hash} {scan : GarbageCollectionScan}
    {seen : List Hash} {visited orphans : List Path} {p : Path} {c : Hash} {f : Inode UInt8}
    (hpub : Files.Published isChunkName (wellPlaced blake3) root)
    (htied : (FileThread.sweep w visited orphans).Tied) (hd : d.Matches root db)
    (hpc : w.pc = .walk active scan seen) (hf : (root.lookup p).bind root.inode = some f)
    (hnew : p ∉ visited) (hwalked : walkedHash (fileName p) = some (hex c)) :
    p = chunkPath c ∧ visited = seen.map chunkPath ∧
      orphans = scan.physicalOrphans.map chunkPath ∧ c ∉ seen ∧
        d.files.lookup c = some ⟨f.content, f.modTime⟩ := by
  obtain ⟨i, hi, hnode⟩ := Option.bind_eq_some_iff.1 hf
  obtain rfl : p = chunkPath c := by
    obtain ⟨node, -, -, hgood⟩ := hpub p i (isChunkName_of_walked hwalked) (.inl hi)
    rw [hgood, fileName_chunkPath, walkedHash_chunk] at hwalked
    rw [hgood, hex_injective (Option.some.inj hwalked)]
  have hvisited : visited = seen.map chunkPath :=
    htied.1 seen (by rw [Sweep.visitedHashes, hpc])
  have horphans : orphans = scan.physicalOrphans.map chunkPath :=
    htied.2 _ (by rw [Sweep.orphanHashes, hpc])
  refine ⟨rfl, hvisited, horphans, fun hmem => hnew ?_, ?_⟩
  · rw [hvisited]
    exact List.mem_map_of_mem hmem
  · rw [hd.files, ChunkRoot.chunkFile, hi, Option.bind_some, hnode, Option.map_some]

theorem fileSweepStep_atomic {w : Sweep} {visited orphans : List Path} {k : FileChoice}
    {th' : FileThread} (hpub : Files.Published isChunkName (wellPlaced blake3) root)
    (htied : (FileThread.sweep w visited orphans).Tied) (hd : d.Matches root db)
    (h : fileSweepStep root db s t w visited orphans k = some (root', db', s', th')) :
    FileThread.Simulates blake3 d root' db' s s' t (.sweep w visited orphans) th' := by
  unfold fileSweepStep at h
  split at h
  · next p c =>
    split at h
    · next active scan seen f hpc hf =>
      split at h
      · cases h
      · next hv =>
        cases h
        simp only [Bool.or_eq_true, List.contains_iff_mem, decide_eq_true_eq, not_or,
          not_not] at hv
        obtain ⟨rfl, hvisited, horphans, hnew, hfile⟩ :=
          walkStep_atomic hpub htied hd hpc hf hv.1 hv.2
        have hseen : seen.contains c = false := by
          rw [Bool.eq_false_iff, Ne, List.contains_iff_mem]
          exact hnew
        refine ⟨⟨fun hs hh => ?_, fun hs hh => ?_⟩, .inr ⟨.pick c, d, ?_, hd⟩⟩
        · cases hh
          rw [hvisited, List.map_cons]
        · cases hh
          rw [horphans, visitFile_orphans]
          by_cases ho : orphanHash scan active w.olderThan c = true ∧ f.modTime < w.olderThan
          · rw [if_pos (by simpa using ho), if_pos ho, List.map_append]
            rfl
          · rw [if_neg (by simpa using ho), if_neg ho, List.append_nil]
        · rw [FileThread.atomic, Thread.step, sweepStep]
          simp only [hpc, hseen, hfile]
          rfl
    · cases h
  · next k =>
    obtain ⟨⟨d1, s1, w1⟩, hw, he⟩ := Option.map_eq_some_iff.1 h
    cases he
    have hwalk : ∀ active scan seen b, w.pc = .walk active scan seen → k ≠ .pick b := by
      rintro active scan seen b hpc rfl
      rw [sweepStep] at hw
      simp only [hpc] at hw
      split at hw <;> cases hw
    obtain ⟨hvisited, horphans⟩ := sweepStep_lists hwalk hw
    refine ⟨⟨fun hs hh => htied.1 hs (hvisited hs hh), fun hs hh => ?_⟩,
      .inr ⟨k, d1.withFiles (w.filesAfter k d.files), ?_, rfl, ?_⟩⟩
    · obtain ⟨hs', hh', rfl⟩ := horphans hs hh
      rw [htied.2 hs' hh', Sweep.orphansLeft_map]
    · rw [hd.eq]
      show (sweepStep (db.disk.withFiles d.files) s t w k).map _ = _
      rw [sweepStep_withFiles hwalk, hw]
      rfl
    · exact Sweep.filesAfter_matches htied.2 hd
  · cases h

/-- **A step is one atomic step, or none that the atomic steps see.** -/
theorem FileThread.step_atomic {k : FileChoice} {th th' : FileThread}
    (hpub : Files.Published isChunkName (wellPlaced blake3) root)
    (hok : th.Ok blake3 root s t) (htied : th.Tied) (hd : d.Matches root db)
    (hplain : ∀ u c err, th = .upload u → u.pc = .stat c → k ≠ .call (.fail err))
    (h : th.step blake3 root db s t k = some (root', db', s', th')) :
    FileThread.Simulates blake3 d root' db' s s' t th th' := by
  cases th with
  | upload u => exact fileUploadStep_atomic hd (fun c err hpc => hplain u c err rfl hpc) h
  | writing u c found w => exact fileWriterStep_atomic hpub hok htied hd h
  | lifecycle l =>
    unfold FileThread.step at h
    cases k with
    | call k =>
      obtain ⟨⟨d1, s1, l1⟩, hl, he⟩ := Option.map_eq_some_iff.1 h
      cases he
      refine ⟨trivial, .inr ⟨k, d1.withFiles d.files, ?_, rfl, hd.files⟩⟩
      rw [hd.eq]
      show (lifecycleStep (db.disk.withFiles d.files) s t l k).map _ = _
      rw [lifecycleStep_withFiles, hl]
      rfl
    | temp | wrote | visit => cases h
  | sweep w visited orphans => exact fileSweepStep_atomic hpub htied hd h

/-! ## The system -/

/-- The state of the atomic steps that a state stands for. -/
structure FileStore.Matches (y : FileStore) (z : System Unit) : Prop where
  disk : z.disk.Matches y.root y.db
  mem : z.mem () = y.mem
  threads : ∀ t, z.threads t = (y.threads t).map fun th => ((), th.atomic)
  tied : ∀ t th, y.threads t = some th → th.Tied

/-- The step is no crash, and not a failure of the `stat` in `touchChunk`: there is no atomic step
for either. -/
def FileStore.plain (y : FileStore) : FileStoreAction → Prop
  | .crash .. => False
  | .run t (.call (.fail _)) => ∀ u c, y.threads t = some (.upload u) → u.pc ≠ .stat c
  | _ => True

variable {cfg : FastCdc.Config} {y y' : FileStore} {z : System Unit} {a : FileStoreAction}

theorem FileStore.Matches.spawn {th : FileThread} (hm : y.Matches z) {db : Database}
    (hd : d.Matches y.root db) (ht : th.Tied) (h : y.spawn t db th = some y') :
    ∃ z', z.spawn t () d th.atomic = some z' ∧ y'.Matches z' := by
  unfold FileStore.spawn at h
  split at h
  · cases h
  · next hn =>
    cases h
    have hz : z.threads t = none := by rw [hm.threads, hn]; rfl
    refine ⟨⟨d, z.mem, Function.update z.threads t (some ((), th.atomic))⟩, ?_,
      hd, hm.mem, fun u => ?_, fun u x hx => ?_⟩
    · rw [System.spawn, hz]
    · simp only [Function.update_apply]
      split
      · rfl
      · exact hm.threads u
    · simp only [Function.update_apply] at hx
      split at hx
      · cases hx; exact ht
      · exact hm.tied u x hx

theorem FileStore.Matches.run {th th' : FileThread} (hm : y.Matches z)
    (hth : y.threads t = some th)
    (h : FileThread.Simulates blake3 z.disk root' db' y.mem s' t th th') :
    ∃ z', (⟨root', db', s', Function.update y.threads t (some th')⟩ : FileStore).Matches z' ∧
      (z' = z ∨ ∃ b, z.step cfg blake3 b = some z') := by
  obtain ⟨htied, h⟩ := h
  have tied : ∀ u x, Function.update y.threads t (some th') u = some x → x.Tied := by
    intro u x hx
    rw [Function.update_apply] at hx
    split at hx
    · cases hx; exact htied
    · exact hm.tied u x hx
  rcases h with ⟨hatomic, rfl, hd⟩ | ⟨k, d', hstep, hd⟩
  · refine ⟨z, ⟨hd, hm.mem, fun u => ?_, tied⟩, .inl rfl⟩
    simp only [Function.update_apply]
    split
    · next hu => rw [hu, hm.threads, hth, Option.map_some, Option.map_some, hatomic]
    · exact hm.threads u
  · have hz : z.threads t = some ((), th.atomic) := by rw [hm.threads, hth]; rfl
    refine ⟨⟨d', Function.update z.mem () s',
      Function.update z.threads t (some ((), th'.atomic))⟩, ⟨hd, ?_, fun u => ?_, tied⟩,
      .inr ⟨.run t k, ?_⟩⟩
    · exact Function.update_self () s' z.mem
    · simp only [Function.update_apply]
      split
      · rfl
      · exact hm.threads u
    · rw [System.step, hz]
      dsimp only
      rw [hm.mem, hstep]
      rfl

/-- **A step of the system calls is one atomic step, or none.** -/
theorem FileStore.Matches.step (hm : y.Matches z) (hy : y.Inv blake3) (hplain : y.plain a)
    (h : y.step cfg blake3 a = some y') :
    ∃ z', y'.Matches z' ∧ (z' = z ∨ ∃ b, z.step cfg blake3 b = some z') := by
  cases a with
  | processUpload t fileName bytes now =>
    have hd : (putUploadSession z.disk (newUploadSession t fileName now)).Matches y.root
        (putUploadSession y.db.disk (newUploadSession t fileName now)).database := by
      refine ⟨?_, hm.disk.files⟩
      rw [← hm.disk.database]
      rfl
    have ht : (FileThread.upload (.start cfg (newUploadSession t fileName now) bytes)).Tied :=
      trivial
    obtain ⟨z', hz, hm'⟩ := hm.spawn hd ht h
    exact ⟨z', hm', .inr ⟨.processUpload t () fileName bytes now, hz⟩⟩
  | updateManifestLifecycle t manifestID retired =>
    have ht : (FileThread.lifecycle ⟨manifestID, retired, .lock⟩).Tied := trivial
    obtain ⟨z', hz, hm'⟩ := hm.spawn hm.disk ht h
    exact ⟨z', hm', .inr ⟨.updateManifestLifecycle t () manifestID retired, hz⟩⟩
  | collectGarbage t olderThan =>
    have ht : (FileThread.sweep (.start olderThan) [] []).Tied :=
      ⟨fun _ hh => by cases hh; rfl, fun _ hh => by cases hh; rfl⟩
    obtain ⟨z', hz, hm'⟩ := hm.spawn hm.disk ht h
    exact ⟨z', hm', .inr ⟨.collectGarbage t () olderThan, hz⟩⟩
  | run t k =>
    unfold FileStore.step at h
    dsimp only at h
    split at h
    · cases h
    · next th hth =>
      obtain ⟨⟨root1, db1, s1, th1⟩, hs, he⟩ := Option.map_eq_some_iff.1 h
      cases he
      refine hm.run hth (FileThread.step_atomic hy.published (hy.threads t th hth)
        (hm.tied t th hth) hm.disk ?_ hs)
      rintro u c err rfl hpc rfl
      exact hplain u c hth hpc
  | crash db kept torn => exact hplain.elim

/-- **Refinement.** A run of system calls without a crash is a run of the atomic steps. -/
theorem FileStore.refines {y₀ : FileStore} {z₀ : System Unit} (hy₀ : y₀.Inv blake3)
    (hm₀ : y₀.Matches z₀)
    (h : Runs.Reach (FileStore.step cfg blake3) FileStore.plain (· = y₀) y) :
    ∃ z, Runs.Reach (System.step cfg blake3) (fun _ _ => True) (· = z₀) z ∧ y.Matches z := by
  obtain ⟨z, hz, -, hm⟩ := h.simulate (R := fun y z => y.Inv blake3 ∧ y.Matches z) ⟨hy₀, hm₀⟩
    (by
      rintro y a y' z ⟨hy, hm⟩ hplain hs
      obtain ⟨z', hm', hz⟩ := hm.step hy hplain hs
      exact ⟨z', ⟨(hy.step hs).1, hm'⟩, hz⟩)
  exact ⟨z, hz, hm⟩

/-! ## After crashes -/

theorem exists_matches (root : ChunkRoot) (db : Database) : ∃ d : Disk, d.Matches root db := by
  have finite : Finite Hash := Finite.of_injective BitVec.toFin fun _ _ => BitVec.eq_of_toFin_eq
  obtain ⟨files, hfiles⟩ := Dict.exists_lookup root.chunkFile
  exact ⟨db.disk.withFiles files, rfl, hfiles⟩

theorem FileStore.Matches.idle (hd : d.Matches root db) :
    (⟨root, db, .idle, fun _ => none⟩ : FileStore).Matches (.idle d) :=
  ⟨hd, rfl, fun _ => rfl, fun _ _ h => by cases h⟩

/-- **What a registered upload has touched is on disk**, under the chunk's own name and complete:
the single-store invariant of the atomic steps, read off the tree in every state and after every
crash. -/
theorem FileStore.registered_on_disk
    (h : Runs.Reach (FileStore.step cfg blake3) (fun y a => a.isCrash = true ∨ y.plain a)
      (fun y => ∃ db, y = .idle db) y) {c : Hash} (hc : y.mem.holds c) :
    ∃ i f, y.root.lookup (chunkPath c) = some i ∧ y.root.inode i = some f ∧
      blake3 f.content = c := by
  obtain ⟨hy, z, hz, hm⟩ : y.Inv blake3 ∧ ∃ z, HashBox.Vault.Inv blake3 z ∧ y.Matches z := by
    refine h.inv (P := fun y => y.Inv blake3 ∧ ∃ z, HashBox.Vault.Inv blake3 z ∧ y.Matches z) ?_ ?_
    · rintro y ⟨db, rfl⟩
      obtain ⟨d, hd⟩ := exists_matches .empty db
      exact ⟨.idle blake3 db, .idle d, .idle d, .idle hd⟩
    · rintro y a y' ⟨hy, z, hz, hm⟩ hok hs
      refine ⟨(hy.step hs).1, ?_⟩
      rcases hok with hcrash | hplain
      · cases a with
        | crash db kept torn =>
          cases hs
          obtain ⟨d, hd⟩ := exists_matches (y.root.crash kept torn) db
          exact ⟨.idle d, .idle d, .idle hd⟩
        | processUpload | updateManifestLifecycle | collectGarbage | run => cases hcrash
      · obtain ⟨z', hm', rfl | ⟨b, hb⟩⟩ := hm.step hy hplain hs
        · exact ⟨z', hz, hm'⟩
        · exact ⟨z', hz.step hb, hm'⟩
  have hfile : (z.disk.files.lookup c).isSome := (hz.registry c (hm.mem ▸ hc)).2
  rw [hm.disk.files, ChunkRoot.isSome_chunkFile] at hfile
  obtain ⟨i, hi⟩ := Option.isSome_iff_exists.1 hfile
  obtain ⟨-, f, hf, hh⟩ := hy.file hi (fileName_chunkPath c)
  exact ⟨i, f, hi, hf, hh⟩

end HashBox.Vault
