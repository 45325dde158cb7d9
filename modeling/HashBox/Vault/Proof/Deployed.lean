import HashBox.Lib.Threads
import HashBox.Vault.Proof.Steps

/-!
# The deployed composition: two stores over one disk

`main` builds a `Store` for the garbage-collection ticker and `NewHandler` a second one for the
uploads, so a sweep holds a lock no upload takes and reads a registry no upload writes. A sweep may
then remove the file of a chunk that an upload has found in place (`deployed_loses_chunk`). What
the two stores no longer ensure, `Calm` states as a condition on the steps of a run: under it every
active manifest stays backed (`deployed_intact`).
-/

namespace HashBox.Vault

/-- The two `Store` values of the process. -/
inductive Deployed
  | main
  | handler
deriving DecidableEq

/-- The calls of the composition: uploads through the handler, sweeps by the ticker of `main`. -/
def Deployed.calls : Action Deployed → Prop
  | .processUpload _ store _ _ _ => store = .handler
  | .collectGarbage _ store _ => store = .main
  | .updateManifestLifecycle .. => False
  | .run .. => True

variable {cfg : FastCdc.Config} {blake3 : Bytes → Hash} {d d' : Disk} {s s' : Mem} {t : SessionID}
  {k : Choice}

/-- **A commit** makes no other chunks referenced than it says, and keeps active manifests backed
when these are present. -/
theorem commit_spec {m : ManifestRecord} (h : commitManifestAndChunkRefs d m = .ok d') :
    (∀ c, d'.referenced c → d.referenced c ∨ c ∈ d.activates m) ∧
      ((∀ c ∈ d.activates m, d'.present c) → d.intact → d'.intact) := by
  have hg := commit_grows h
  -- in both cases that store a record, it lists the chunks that become referenced
  have stored : ∀ e : ManifestRecord, e.chunkHashes = d.activates m →
      d'.manifests = d.manifests.insert m.manifestID e →
      (∀ c, d'.referenced c → d.referenced c ∨ c ∈ d.activates m) ∧
        ((∀ c ∈ d.activates m, d'.present c) → d.intact → d'.intact) := by
    intro e he hman
    refine ⟨fun c hc => ?_, fun hp hint id m' hm' hr c hc => ?_⟩
    · obtain ⟨id, m', hm', hr, hc⟩ := hc
      rw [hman] at hm'
      rcases Dict.lookup_insert_cases hm' with ⟨-, rfl⟩ | ⟨-, hm'⟩
      · exact .inr (he ▸ hc)
      · exact .inl ⟨id, m', hm', hr, hc⟩
    · rw [hman] at hm'
      rcases Dict.lookup_insert_cases hm' with ⟨-, rfl⟩ | ⟨-, hm'⟩
      · exact hp c (he ▸ hc)
      · exact hg.present (hint id m' hm' hr c hc)
  rcases commit_ok h with ⟨e, -, -, -, rfl⟩ | ⟨e, he, -, hret, rfl⟩ | ⟨hn, chunks, -, rfl⟩
  · exact ⟨fun c => .inl, fun _ => id⟩
  · exact stored _ (by rw [Disk.activates, he]; exact (if_pos hret).symm) rfl
  · exact stored { m with fileHash := m.manifestID } (by rw [Disk.activates, hn]) rfl

/-! ## The invariant of calm runs -/

/-- What a thread of the composition knows. -/
def Thread.Calm (blake3 : Bytes → Hash) (d : Disk) : Thread → Prop
  | .upload u => u.Ok blake3 d
  | .lifecycle _ => False
  | .sweep w => ∀ c, w.pending d c → ¬ d.referenced c

theorem Thread.Calm.frame {th : Thread} (h : th.Calm blake3 d)
    (hkept : ∀ c ∈ th.touched blake3,
      (d.hasRecord c → d'.hasRecord c) ∧ (d.hasFile c → d'.hasFile c))
    (href : ∀ c, th.pending d' c → d'.referenced c → th.pending d c ∧ d.referenced c) :
    th.Calm blake3 d' := by
  cases th with
  | upload u => exact Upload.Ok.frame h hkept
  | lifecycle l => exact h
  | sweep w => exact fun c hc hr => h c (href c hc hr).1 (href c hc hr).2

theorem Thread.pending_of_file {th : Thread} {c : Hash}
    (hf : ∀ f, d'.files.lookup c = some f → d.files.lookup c = some f) (h : th.pending d' c) :
    th.pending d c := by
  cases th with
  | sweep w => exact Sweep.pending_of_file hf h
  | upload u => exact h
  | lifecycle l => exact h

structure CalmInv (blake3 : Bytes → Hash) (y : System Deployed) : Prop where
  intact : y.disk.intact
  threads : Threads.All (fun _ e => e.2.Calm blake3 y.disk) y.threads

variable {y y' : System Deployed} {a : Action Deployed}

theorem CalmInv.spawn {store : Deployed} {th : Thread} (hy : CalmInv blake3 y)
    (h : y.spawn t store d' th = some y') (hrec : d'.chunks = y.disk.chunks)
    (hfile : d'.files = y.disk.files) (hman : d'.manifests = y.disk.manifests)
    (hth : th.Calm blake3 d') : CalmInv blake3 y' := by
  unfold System.spawn at h
  split at h
  · cases h
  · cases h
    refine ⟨?_, hy.threads.update (fun u e hne _ hu => hu.frame (fun c _ => ?_) fun c hp hr => ?_)
      hth⟩
    · simpa only [Disk.intact, Disk.backed, Disk.present, Disk.hasRecord, Disk.hasFile, hrec, hfile,
        hman] using hy.intact
    · simp only [Disk.hasRecord, Disk.hasFile, hrec, hfile]
      exact ⟨id, id⟩
    · exact ⟨Thread.pending_of_file (Disk.NoNewFile.of_eq hfile c) hp,
        (Disk.referenced_congr hman c).1 hr⟩

/-- **A calm step keeps the invariant.** -/
theorem CalmInv.step (hy : CalmInv blake3 y) (hcall : Deployed.calls a)
    (hcalm : ∀ t k, a = .run t k → Vault.Calm blake3 y t k)
    (h : y.step cfg blake3 a = some y') : CalmInv blake3 y' := by
  cases a with
  | processUpload t store fileName bytes now =>
    exact hy.spawn h rfl rfl rfl fun _ hc => by cases hc
  | updateManifestLifecycle t store manifestID retired => exact hcall.elim
  | collectGarbage t store olderThan =>
    exact hy.spawn h rfl rfl rfl fun _ hp => hp.elim
  | run t k =>
    have hcalm := hcalm t k rfl
    simp only [System.step] at h
    split at h
    · cases h
    · next store th ht =>
      obtain ⟨⟨d', s', th'⟩, hstep, he⟩ := Option.map_eq_some_iff.1 h
      cases he
      have hl := hy.threads t _ ht
      unfold Thread.step at hstep
      cases th with
      | lifecycle l => exact hl.elim
      | upload u =>
        obtain ⟨⟨d1, s1, u'⟩, hr, he⟩ := Option.map_eq_some_iff.1 hstep
        cases he
        obtain ⟨hg, heff⟩ := uploadStep_disk hr
        have hown : (Thread.upload u').Calm blake3 d1 := Upload.Ok.step hl hr
        have hkept : ∀ c, (y.disk.hasRecord c → d1.hasRecord c) ∧
            (y.disk.hasFile c → d1.hasFile c) := fun c => ⟨hg.record c, hg.file c⟩
        -- a chunk that is referenced has its file, so the upload does not write it
        have hpend : ∀ {th : Thread} {c : Hash}, th.pending d1 c → y.disk.referenced c →
            th.pending y.disk c := by
          intro th c hp hrc
          obtain ⟨id, m, hm, hret, hc⟩ := hrc
          have hfile := (hy.intact id m hm hret c hc).2
          refine Thread.pending_of_file (fun f hf => ?_) hp
          rcases uploadStep_files hr with hnew | ⟨-, hnew⟩
          · exact hnew c f hf
          · exact hnew c f hf hfile
        rcases heff with hman | ⟨m, hm, hc⟩
        · refine ⟨fun id m hm hr c hc => hg.present (hy.intact id m (hman ▸ hm) hr c hc),
            hy.threads.update (fun v e hne _ hv => hv.frame (fun c _ => hkept c)
              fun c hp hrc => ?_) hown⟩
          have hrc := (Disk.referenced_congr hman c).1 hrc
          exact ⟨hpend hp hrc, hrc⟩
        · obtain ⟨hpc, -⟩ := Thread.commits_upload hm
          have hok : u.Ok blake3 y.disk := hl
          simp only [Upload.Ok, hpc] at hok
          obtain ⟨href, hint⟩ := commit_spec hc
          refine ⟨hint (fun c hmem => hg.present ?_) hy.intact,
            hy.threads.update
              (fun v e hne he hv => hv.frame (fun c _ => hkept c) fun c hp hrc => ?_) hown⟩
          · rcases (hcalm.commit _ _ m ht hm c hmem).1 with hown | hp
            · exact hok.2 c (hok.1 ▸ hown)
            · exact hp
          · -- the commit makes no chunk referenced that a sweep has pending
            rcases href c hrc with hrc | hmem
            · exact ⟨hpend hp hrc, hrc⟩
            · have hnew := Disk.NoNewFile.of_eq (commit_files hc) c
              exact absurd (Thread.pending_of_file hnew hp)
                ((hcalm.commit _ _ m ht hm c hmem).2 v _ _ he)
      | sweep w =>
        obtain ⟨⟨d1, s1, w'⟩, hr, he⟩ := Option.map_eq_some_iff.1 hstep
        cases he
        obtain ⟨hman, hfiles, hkept⟩ := sweepStep_disk hr
        refine ⟨fun id m hm hret c hc => ?_, hy.threads.update (fun v e hne he hv =>
          hv.frame (fun c hc => ?_) fun c hp hrc => ?_) fun c hc => ?_⟩
        · -- what an active manifest lists is not pending, so it is not removed
          have hk := hkept c fun hrem => hl c (Sweep.pending_of_removes hrem)
            ⟨id, m, hman ▸ hm, hret, hc⟩
          have hp := hy.intact id m (hman ▸ hm) hret c hc
          exact ⟨hk.1 hp.1, hk.2 hp.2⟩
        · exact hkept c fun hrem => hcalm.removal _ _ c ht hrem v _ _ he hc
        · exact ⟨Thread.pending_of_file (hfiles c) hp, (Disk.referenced_congr hman c).1 hrc⟩
        · rw [Disk.referenced_congr hman]
          rcases sweepStep_pending hr with hp | ⟨active, -, hp⟩
          · exact hl c (hp c hc)
          · exact (hp c hc).1

/-! ## The composition -/

/-- **Calm runs keep every active manifest backed.** For every disk whose active manifests are
backed, whatever else it holds, and every interleaving of uploads and sweeps whose steps are all
calm. -/
theorem deployed_intact (hint : d.intact)
    (h : Runs.Reach (System.step cfg blake3)
      (fun y a => Deployed.calls a ∧ ∀ t k, a = .run t k → Vault.Calm blake3 y t k)
      (· = .idle d) y) : y.disk.intact := by
  suffices CalmInv blake3 y from this.intact
  refine h.inv (fun s hs => ?_) fun s a s' hs hok hstep => hs.step hok.1 hok.2 hstep
  subst hs
  exact ⟨hint, .empty⟩

/-! ### A run beside a sweep -/

instance (scan : GarbageCollectionScan) (active : List Hash) (olderThan : Time)
    (todo : List (Hash × ChunkRecord)) (h : Hash) :
    Decidable (selected scan active olderThan todo h) :=
  decidable_of_iff ((∃ e ∈ todo, e.1 = h ∧ ∃ retired : Bool,
      sweepDecision scan active olderThan h e.2 = .candidate retired) ∨
        scan.physicalOrphans.contains h = true)
    (or_congr ⟨fun ⟨e, he, hk, b, hd⟩ => ⟨e.2, b, hk ▸ he, hd⟩,
      fun ⟨r, b, hr, hd⟩ => ⟨(h, r), hr, rfl, b, hd⟩⟩ List.contains_iff_mem)

instance (d : Disk) : ∀ (w : Sweep) (h : Hash), Decidable (w.pending d h)
  | ⟨_, _, _, .walk active scan _⟩, h =>
    inferInstanceAs (Decidable (selected scan active _ (Dict.toList scan.chunkRecords) h ∨
      orphanHash scan active _ h = true ∧ ∃ f ∈ d.files.lookup h, f.modTime < _))
  | ⟨_, _, _, .records active scan todo⟩, h =>
    inferInstanceAs (Decidable (selected scan active _ todo h))
  | ⟨_, _, _, .removeFile active scan todo h' _⟩, h
  | ⟨_, _, _, .deleteMetadata active scan todo h' _⟩, h =>
    inferInstanceAs (Decidable (h = h' ∨ selected scan active _ todo h))
  | ⟨_, _, _, .orphans todo⟩, h => decidable_of_iff (todo.contains h = true) List.contains_iff_mem
  | ⟨_, _, _, .lock⟩, _ | ⟨_, _, _, .snapshot⟩, _ | ⟨_, _, _, .scan _⟩, _ | ⟨_, _, _, .done⟩, _ =>
    inferInstanceAs (Decidable False)

instance (d : Disk) (th : Thread) (h : Hash) : Decidable (th.pending d h) :=
  match th with
  | .sweep w => inferInstanceAs (Decidable (w.pending d h))
  | .upload _ | .lifecycle _ => inferInstanceAs (Decidable False)

/-- What `Calm` asks of the step of one thread, where only the threads of a list are in flight. -/
def Thread.calmAmong (blake3 : Bytes → Hash) (ts : List SessionID) (y : System Deployed)
    (th : Thread) (k : Choice) : Bool :=
  ((th.removes y.disk k).all fun h => ts.all fun u => (y.threads u).all fun e =>
    !(e.2.touched blake3).contains h) &&
  (th.commits k).all fun m => (y.disk.activates m).all fun h =>
    (m.chunkHashes.contains h || decide (y.disk.present h)) &&
      ts.all fun u => (y.threads u).all fun e => !decide (e.2.pending y.disk h)

def System.calmAmong (blake3 : Bytes → Hash) (ts : List SessionID) (y : System Deployed) :
    Action Deployed → Bool
  | .run t k => ts.contains t && (y.threads t).all fun e => e.2.calmAmong blake3 ts y k
  | .processUpload t .. | .collectGarbage t .. | .updateManifestLifecycle t .. => ts.contains t

instance : ∀ a, Decidable (Deployed.calls a)
  | .processUpload .. | .collectGarbage .. => inferInstanceAs (Decidable (_ = _))
  | .updateManifestLifecycle .. => inferInstanceAs (Decidable False)
  | .run .. => inferInstanceAs (Decidable True)

theorem System.calmAmong_calm {ts : List SessionID}
    (hts : Threads.All (fun u _ => u ∈ ts) y.threads) (h : y.calmAmong blake3 ts a = true)
    (t : SessionID) (k : Choice) (ha : a = .run t k) : Vault.Calm blake3 y t k := by
  subst ha
  simp only [System.calmAmong, Thread.calmAmong, Bool.and_eq_true, Option.all_eq_true,
    List.all_eq_true, Bool.or_eq_true, Bool.not_eq_true', List.contains_eq_mem, decide_eq_true_eq,
    decide_eq_false_iff_not] at h
  refine ⟨fun store th c ht hrem u store' th' hu => ?_, fun store th m ht hm c hc => ?_⟩
  · exact (h.2 _ ht).1 c hrem u (hts u _ hu) _ hu
  · obtain ⟨hp, hpend⟩ := (h.2 _ ht).2 m hm c hc
    exact ⟨hp, fun u store' th' hu => hpend u (hts u _ hu) _ hu⟩

theorem System.calmAmong_threads {ts : List SessionID}
    (hts : Threads.All (fun u _ => u ∈ ts) y.threads) (h : y.calmAmong blake3 ts a = true)
    (hstep : y.step cfg blake3 a = some y') : Threads.All (fun u _ => u ∈ ts) y'.threads := by
  have spawn : ∀ {t : SessionID} {store : Deployed} {d : Disk} {th : Thread}, t ∈ ts →
      y.spawn t store d th = some y' → Threads.All (fun u _ => u ∈ ts) y'.threads := by
    intro t store d th ht hs
    unfold System.spawn at hs
    split at hs
    · cases hs
    · cases hs; exact hts.update (fun _ _ _ _ => id) ht
  cases a with
  | processUpload t store fileName bytes now => exact spawn (List.contains_iff_mem.1 h) hstep
  | updateManifestLifecycle t store manifestID retired =>
    exact spawn (List.contains_iff_mem.1 h) hstep
  | collectGarbage t store olderThan => exact spawn (List.contains_iff_mem.1 h) hstep
  | run t k =>
    simp only [System.calmAmong, Bool.and_eq_true, List.contains_iff_mem] at h
    simp only [System.step] at hstep
    split at hstep
    · cases hstep
    · obtain ⟨r, -, he⟩ := Option.map_eq_some_iff.1 hstep
      cases he
      exact hts.update (fun _ _ _ _ => id) h.1

/-- A disk with a retired manifest of one chunk, past its grace, and an old chunk that no manifest
lists. -/
def pastGrace : Disk where
  manifests := (∅ : Dict Hash ManifestRecord).insert (sampleHash [7])
    { newManifest (sampleHash [7]) [sampleHash [7]] 1 1 with retired := true, retiredAt := some 2 }
  chunks := ((∅ : Dict Hash ChunkRecord).insert (sampleHash [7]) ⟨sampleHash [7], 1, 1, false, 1⟩
    ).insert (sampleHash [5]) ⟨sampleHash [5], 1, 0, false, 1⟩
  uploads := ∅
  files := ((∅ : Dict Hash ChunkFile).insert (sampleHash [7]) ⟨[7], 1⟩).insert (sampleHash [5])
    ⟨[5], 1⟩

/-- The sweep (thread 2) selects both chunks and removes the one of the retired manifest; the
upload (thread 1), under way since the sweep walked the directory, stores this chunk anew and makes
the manifest active again; the sweep then removes the other chunk. -/
def uploadBesideSweep : List (Action Deployed) :=
  .collectGarbage 2 .main 9 :: runs 2 3 9 ++ .processUpload 1 .handler "a.bin" [7] 10 ::
    runs 1 3 10 ++ .run 2 (.pick (sampleHash [5])) :: runs 2 1 9 ++
    .run 2 (.pick (sampleHash [7])) :: runs 2 2 9 ++ runs 1 9 10 ++
    .run 2 (.pick (sampleHash [5])) :: runs 2 4 9

theorem deployed_intact_sample :
    ∃ y, Runs.exec (System.step (sampleConfig 1) sampleHash) (.idle pastGrace) uploadBesideSweep =
        some y ∧
      y.disk.active (sampleHash [7]) ∧ ¬ y.disk.hasFile (sampleHash [5]) ∧ y.disk.intact := by
  have run : (Runs.exec (Runs.guarded (System.step (sampleConfig 1) sampleHash) fun y a =>
      Deployed.calls a ∧ y.calmAmong sampleHash [1, 2] a = true) (.idle pastGrace)
        uploadBesideSweep).any (fun y =>
          ((y.disk.manifests.lookup (sampleHash [7])).any fun m => !m.retired) &&
          !decide (y.disk.hasFile (sampleHash [5]))) = true := by decide
  obtain ⟨y, hy, hr⟩ := (Option.any_eq_true _ _).1 run
  simp only [Bool.and_eq_true, Option.any_eq_true, Bool.not_eq_true', decide_eq_false_iff_not] at hr
  obtain ⟨⟨m, hm, hact⟩, hfile⟩ := hr
  refine ⟨y, Runs.exec_of_guarded hy, ⟨m, hm, hact⟩, hfile, ?_⟩
  -- the one manifest of the disk is retired
  have intact : pastGrace.intact := by
    intro id m hm hret
    rcases Dict.lookup_insert_cases hm with ⟨-, rfl⟩ | ⟨-, hm⟩
    · cases hret
    · cases hm
  have reach : Runs.Reach (System.step (sampleConfig 1) sampleHash)
      (fun y a => Deployed.calls a ∧ y.calmAmong sampleHash [1, 2] a = true)
      (· = .idle pastGrace) y := .exec_guarded (.init rfl) hy
  refine deployed_intact intact (reach.strengthen
    (P := fun y => Threads.All (fun u _ => u ∈ [1, 2]) y.threads) (fun y hs => ?_)
    (fun _ _ _ hts hok hstep => System.calmAmong_threads hts hok.2 hstep)
    fun _ _ hts hok => ⟨hok.1, System.calmAmong_calm hts hok.2⟩)
  subst hs
  exact .empty

def oldChunk : Disk where
  manifests := ∅
  chunks := (∅ : Dict Hash ChunkRecord).insert (sampleHash [7]) ⟨sampleHash [7], 1, 0, false, 1⟩
  uploads := ∅
  files := (∅ : Dict Hash ChunkFile).insert (sampleHash [7]) ⟨[7], 1⟩

/-- The sweep (thread 2) selects the chunk, the upload (thread 1) finds it in place, the sweep
removes the file, the upload commits, the sweep finds the record referenced and keeps it. -/
def lostChunk : List (Action Deployed) :=
  .collectGarbage 2 .main 9 :: runs 2 3 9 ++ [.run 2 (.pick (sampleHash [7]))] ++ runs 2 1 9 ++
    [.run 2 (.pick (sampleHash [7]))] ++
    .processUpload 1 .handler "a.bin" [7] 10 :: runs 1 6 10 ++ runs 2 1 10 ++ runs 1 5 10 ++
    runs 2 3 10

/-- **The two stores lose a chunk of an active manifest.** -/
theorem deployed_loses_chunk :
    oldChunk.intact ∧ ∃ y, Runs.Reach (System.step (sampleConfig 1) sampleHash)
      (fun _ a => Deployed.calls a) (· = .idle oldChunk) y ∧ ¬ y.disk.intact := by
  have run : (Runs.exec (System.step (sampleConfig 1) sampleHash) (.idle oldChunk) lostChunk).any
      (fun y => ((y.disk.manifests.lookup (sampleHash [7])).any fun m =>
          !m.retired && m.chunkHashes == [sampleHash [7]]) &&
        (y.disk.files.lookup (sampleHash [7])).isNone) = true := by decide
  obtain ⟨y, hy, hr⟩ := (Option.any_eq_true _ _).1 run
  simp only [Bool.and_eq_true, Option.isNone_iff_eq_none, Option.any_eq_true, Bool.not_eq_true',
    beq_iff_eq] at hr
  obtain ⟨⟨m, hm, hact, hcs⟩, hf⟩ := hr
  refine ⟨fun _ _ hl => (by cases hl), y, ?_, fun hint => ?_⟩
  · have calls : ∀ a ∈ lostChunk, Deployed.calls a := by
      simp [lostChunk, runs, Deployed.calls]
    exact Runs.Reach.exec (.init rfl) (fun a ha _ => calls a ha) hy
  · have hp := (hint _ m hm hact (sampleHash [7]) (hcs ▸ List.mem_singleton_self _)).2
    rw [Disk.hasFile, hf] at hp
    cases hp

end HashBox.Vault
